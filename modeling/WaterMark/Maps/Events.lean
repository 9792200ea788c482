import WaterMark.Maps.Flow

/-! # The events of a run

A gather deals with an image only after every worker has made the event that
marks the end of its chunk, and the events of all gathers together are the
completions of all images.
-/

namespace WaterMark.Maps
open ChannelNetwork TaggedLog Pixels Gather

variable {ι J : Type} {nw : ℕ}

/-- A completion event of gather `m` belongs to an image of the map whose chunks
have all been stamped before. -/
def Code.Caused (P : Code ι J nw) (tasks : ι → List J) (before : List (Thread ι nw × Event J))
    (e : Thread ι nw × Event J) : Prop :=
  ∀ m, e.1 = .gather m →
    (∃ j, ∃ hj : j < (tasks m).length,
      (∃ pixels, e.2 = (P.gather m).onComplete
        (P.worker.number (tasks m)[j] j, P.worker.image (tasks m)[j]) pixels) ∧
      ∀ i, (.worker m i, .chunkDone (tasks m)[j]) ∈ before) ∨
    ∃ n, e.2 ∈ (P.gather m).onReturn n

namespace Code
variable [DecidableEq ι] {P : Code ι J nw} {tasks : ι → List J} {last : J}
  {pixels : Ptr → Buffer} {s : NetState ι J nw}

/-- What holds whenever a gather is in its branch for a complete image holds of
the events before the completion. -/
theorem justified_gather {C : ι → Result → List (Thread ι nw × Event J) → Prop}
    (hC : ∀ s : NetState ι J nw, P.program.Reachable ⟨pixels, []⟩ s → ∀ m r g,
      s.loc (.gather m) = .complete r g → C m r s.mem.events)
    (h : P.program.Reachable ⟨pixels, []⟩ s) :
    Justified (fun before e => ∀ m, e.1 = .gather m →
      (∃ r, C m r before ∧ ∃ pixels, e.2 = (P.gather m).onComplete r pixels) ∨
        ∃ n, e.2 ∈ (P.gather m).onReturn n) s.mem.events := by
  refine h.justified Memory.events rfl fun s hs t f ha => ?_
  cases t with
  | scatter => exact absurd ha send_work_none
  | worker m i =>
    rcases WorkerCode.work_events ha with ⟨es, hes⟩
    refine ⟨_, hes, .of_all fun before e he m' ht => ?_⟩
    rcases List.mem_map.mp he with ⟨e', -, rfl⟩
    cases ht
  | gather m =>
    rcases GatherCode.work_events ha with ⟨r, g, hloc, hes⟩ | ⟨n, hes⟩
    · refine ⟨_, hes, .singleton fun m' ht => Or.inl ⟨r, ?_, s.mem.pixels, ?_⟩⟩
      · cases ht
        rw [List.append_nil]
        exact hC s hs m r g hloc
      · cases ht
        rfl
    · refine ⟨_, hes, .of_all fun before e he m' ht => Or.inr ?_⟩
      rcases List.mem_map.mp he with ⟨e', he', rfl⟩
      cases ht
      exact ⟨n, he'⟩

theorem gather_or_makes (hnw : ∀ m, 1 ≤ (P.gather m).nw)
    (h : P.program.Reachable ⟨pixels, []⟩ s) {t : Thread ι nw} {e : Event J}
    (he : e ∈ s.mem.eventsOf t) : (∃ m, t = .gather m) ∨ P.worker.Makes e := by
  cases t with
  | scatter =>
    have hnil : s.mem.eventsOf .scatter = [] := (Code.placeTells hnw h .scatter).2
    rw [hnil] at he
    cases he
  | worker m i =>
    have hplace : P.worker.HasAnswered (s.loc (.worker m i)) _ _ _ :=
      Code.placeTells hnw h (.worker m i)
    exact Or.inr (hplace.makes he)
  | gather m => exact Or.inl ⟨m, rfl⟩

theorem countP_events [Fintype ι] (hnw : ∀ m, 1 ≤ (P.gather m).nw)
    (h : P.program.Reachable ⟨pixels, []⟩ s) (p : Event J → Bool)
    (hp : ∀ e, P.worker.Makes e → p e = false) :
    (s.mem.events.map Prod.snd).countP p = ∑ m, (s.mem.eventsOf (.gather m)).countP p := by
  have hinj : Function.Injective (Thread.gather : ι → Thread ι nw) := fun m m' he => by
    cases he
    rfl
  rw [countP_eq_sum Finset.univ p fun e _ => Finset.mem_univ e.1,
    ← Finset.sum_subset (Finset.subset_univ (Finset.univ.image Thread.gather)) ?_,
    Finset.sum_image fun m _ m' _ he => hinj he]
  · rfl
  · intro t _ ht
    apply List.countP_eq_zero.mpr
    intro e he
    rcases Code.gather_or_makes hnw h he with ⟨m, rfl⟩ | hmakes
    · exact absurd (Finset.mem_image_of_mem _ (Finset.mem_univ m)) ht
    · rw [hp e hmakes]
      exact Bool.false_ne_true

theorem count_shown [Fintype ι] {α : Type} [BEq α] {f : Event J → Option α}
    (hnw : ∀ m, 1 ≤ (P.gather m).nw) (h : P.program.Reachable ⟨pixels, []⟩ s)
    (hf : ∀ e, P.worker.Makes e → f e = none) (a : α) :
    ((s.mem.events.map Prod.snd).filterMap f).count a =
      ∑ m, ((s.mem.eventsOf (.gather m)).filterMap f).count a := by
  simp only [List.count_filterMap]
  apply Code.countP_events hnw h
  intro e he
  rw [hf e he]
  rfl

namespace Feeds

/-- In every run all events are caused. -/
theorem caused (hF : P.Feeds tasks last) (h : P.program.Reachable ⟨pixels, []⟩ s) :
    Justified (P.Caused tasks) s.mem.events := by
  have hcomplete := justified_gather
    (C := fun m r (before : List (Thread ι nw × Event J)) => ∃ j, ∃ hj : j < (tasks m).length,
      r = (P.worker.number (tasks m)[j] j, P.worker.image (tasks m)[j]) ∧
      ∀ i, (Thread.worker m i, Event.chunkDone (tasks m)[j]) ∈ before)
    (fun s hs m r g hloc => by
      rcases hF.complete_stamped hs hloc with ⟨j, hj, hr, hdone, -⟩
      exact ⟨j, hj, hr, fun i => mem_entries.mp (hdone i)⟩) h
  refine hcomplete.imp fun before e he m ht => ?_
  rcases he m ht with ⟨r, ⟨j, hj, rfl, hdone⟩, hpixels⟩ | hprinted
  · exact Or.inl ⟨j, hj, hpixels, hdone⟩
  · exact Or.inr hprinted

theorem shown {α : Type} {f : Event J → Option α} {g : Result → α} {m : ι}
    (hF : P.Feeds tasks last) (h : P.program.Reachable ⟨pixels, []⟩ s)
    (hshows : (P.gather m).Shows f g) :
    ∃ n, (s.mem.eventsOf (.gather m)).filterMap f =
      ((P.worker.results (tasks m)).take n).map g := by
  rcases hF.gather_events h m with ⟨n, completions, printed, hsplit, hev, hprinted⟩
  rw [hsplit]
  exact ⟨n, hshows.events hev hprinted⟩

theorem shown_terminal {α : Type} {f : Event J → Option α} {g : Result → α} {m : ι}
    (hF : P.Feeds tasks last) (h : P.program.Reachable ⟨pixels, []⟩ s)
    (hterm : P.program.Terminal s) (hshows : (P.gather m).Shows f g) :
    (s.mem.eventsOf (.gather m)).filterMap f = (P.worker.results (tasks m)).map g := by
  rcases hF.gather_finished h hterm m with ⟨-, -, completions, hev, hall⟩
  rw [hall]
  exact hshows.events hev (Or.inr rfl)

/-- A worker that is stamping is at the first task whose chunk it has not
finished. -/
theorem stamp_next (hF : P.Feeds tasks last) (h : P.program.Reachable ⟨pixels, []⟩ s)
    (hchunk : ∀ task job, .chunkDone job ∉ P.worker.onChunk task) {m : ι} {i : Fin nw} {task : J}
    {loop : LoopState} {n : ℕ} (hloc : s.loc (.worker m i) = .stamp task loop n) :
    (tasks m)[n]? = some task ∧
      ∀ job, .chunkDone job ∈ s.mem.eventsOf (.worker m i) → job ∈ (tasks m).take n := by
  have hplace := hF.worker_answered h m i
  have hle := hF.received_le h m i
  rw [hloc] at hplace
  generalize s.ins (.worker m i) (.workerQueue (P.queue m i)) = got at hplace hle
  generalize s.outs (.worker m i) (.gatherQueue m) = sent at hplace
  generalize s.mem.eventsOf (.worker m i) = events at hplace ⊢
  cases hplace with
  | @stamp done _ _ hproper =>
    have hpre := hproper.prefix_tasks hF.eof_last hle
    rcases hpre with ⟨rest, hrest⟩
    rw [← hrest]
    constructor
    · simp
    · intro job hjob
      rcases List.mem_flatMap.mp hjob with ⟨task', htask', he⟩
      rcases List.mem_cons.mp he with he | he
      · cases he
        simpa using htask'
      · exact absurd he (hchunk _ _)

end Feeds

end Code

end WaterMark.Maps
