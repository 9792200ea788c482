import WaterMark.Maps.Network

/-! # What flows through a map

When `scatter` feeds all workers of a map with the same tasks, the results of
the map are copies of one stream, and the gather completes the images in stream
order, each after all workers have stamped their chunk of it.
-/

namespace WaterMark.Maps
open ChannelNetwork TaggedLog Pixels Gather

variable {ι J : Type} {nw : ℕ}

/-- Every worker of map `m` is fed with the tasks of the map and then with the
end of the stream. -/
structure Code.Feeds (P : Code ι J nw) (tasks : ι → List J) (last : J) : Prop where
  one_le : 1 ≤ nw
  queue_inj : ∀ m i m' i', P.queue m i = P.queue m' i' → m = m' ∧ i = i'
  routed : ∀ e ∈ P.scatter, ∃ m i, e.1 = P.queue m i
  feed : ∀ m i, entries (P.queue m i) P.scatter = tasks m ++ [last]
  proper : ∀ m, P.worker.Proper (tasks m)
  eof_last : P.worker.eof last = true
  image_last : P.worker.image last = NULL
  results : ∀ m, ResultStream (P.worker.results (tasks m))
  gather_nw : ∀ m, (P.gather m).nw = nw

namespace WorkerCode
variable {c : WorkerCode J} {tasks got : List J} {last task : J}

theorem Proper.prefix_tasks (h : c.Proper got) (hlast : c.eof last = true)
    (hpre : got <+: tasks ++ [last]) : got <+: tasks := by
  rcases List.prefix_concat_iff.mp hpre with heq | hpre
  · have hmem := h last (heq ▸ by simp)
    rw [hlast] at hmem
    cases hmem
  · exact hpre

theorem Proper.eq_of_eof (hproper : c.Proper tasks) (heof : c.eof task = true)
    (hpre : got ++ [task] <+: tasks ++ [last]) : got = tasks ∧ task = last := by
  rcases List.prefix_concat_iff.mp hpre with heq | hpre
  · have := List.append_inj' heq rfl
    exact ⟨this.1, List.singleton_inj.mp this.2⟩
  · have hmem := hproper task (hpre.subset (by simp))
    rw [heof] at hmem
    cases hmem

section
variable {x : WorkerState J} {sent : List Result} {events : List (Event J)}

theorem HasAnswered.sent_le (h : c.HasAnswered x got sent events) (hproper : c.Proper tasks)
    (hlast : c.eof last = true) (himage : c.image last = NULL)
    (hpre : got <+: tasks ++ [last]) : sent <+: c.results tasks ++ [eos] := by
  obtain ⟨done, hdone, -, hsent⟩ := h.exists_done
  rcases hsent with ⟨hgot, rfl⟩ | ⟨task, heof, rfl, rfl⟩
  · have hle := hdone.prefix_tasks hlast (hgot.trans hpre)
    exact (c.results_mono hle).trans (List.prefix_append _ _)
  · obtain ⟨rfl, rfl⟩ := hproper.eq_of_eof heof hpre
    rw [himage]
    exact List.prefix_rfl

/-- A result is sent only after the chunk is stamped. -/
theorem HasAnswered.chunkDone (h : c.HasAnswered x got sent events) (hproper : c.Proper tasks)
    (hlast : c.eof last = true) (hpre : got <+: tasks ++ [last]) {k : ℕ} (hk : k < tasks.length)
    (hsent : k < sent.length) : .chunkDone tasks[k] ∈ events := by
  obtain ⟨done, hdone, hev, hcases⟩ := h.exists_done
  have hle : done <+: tasks ∧ k < done.length := by
    rcases hcases with ⟨hgot, rfl⟩ | ⟨task, heof, rfl, rfl⟩
    · exact ⟨hdone.prefix_tasks hlast (hgot.trans hpre), by simpa using hsent⟩
    · obtain ⟨rfl, -⟩ := hproper.eq_of_eof heof hpre
      exact ⟨List.prefix_rfl, hk⟩
  apply hev.subset
  apply c.mem_chunkEvents
  rw [← hle.1.getElem hle.2]
  exact List.getElem_mem hle.2

end

end WorkerCode

namespace Code
variable [DecidableEq ι] {P : Code ι J nw} {tasks : ι → List J} {last : J}
  {pixels : Ptr → Buffer} {s : NetState ι J nw}

theorem placeTells (hnw : ∀ m, 1 ≤ (P.gather m).nw) (h : P.program.Reachable ⟨pixels, []⟩ s)
    (t : Thread ι nw) : P.PlaceTells t (s.loc t) (s.ins t) (s.outs t) (s.mem.eventsOf t) := by
  refine P.localInvariant.reachable (fun t => ?_) h t
  cases t with
  | scatter => exact ⟨.start _, rfl⟩
  | worker m i => exact .start _
  | gather m => exact .start (hnw m)

namespace Feeds

omit [DecidableEq ι] in
theorem one_le_gather (hF : P.Feeds tasks last) (m : ι) : 1 ≤ (P.gather m).nw := by
  rw [hF.gather_nw]
  exact hF.one_le

theorem placeTells (hF : P.Feeds tasks last) (h : P.program.Reachable ⟨pixels, []⟩ s)
    (t : Thread ι nw) : P.PlaceTells t (s.loc t) (s.ins t) (s.outs t) (s.mem.eventsOf t) :=
  Code.placeTells hF.one_le_gather h t

theorem worker_answered (hF : P.Feeds tasks last) (h : P.program.Reachable ⟨pixels, []⟩ s)
    (m : ι) (i : Fin nw) : P.worker.HasAnswered (s.loc (.worker m i))
      (s.ins (.worker m i) (.workerQueue (P.queue m i))) (s.outs (.worker m i) (.gatherQueue m))
      (s.mem.eventsOf (.worker m i)) :=
  hF.placeTells h (.worker m i)

theorem gather_completed (hF : P.Feeds tasks last) (h : P.program.Reachable ⟨pixels, []⟩ s)
    (m : ι) : (P.gather m).HasCompleted (s.loc (.gather m)) (s.ins (.gather m) (.gatherQueue m))
      (s.mem.eventsOf (.gather m)) :=
  hF.placeTells h (.gather m)

/-! ## Who reads and writes which queue -/

theorem ins_worker (hF : P.Feeds tasks last) (h : P.program.Reachable ⟨pixels, []⟩ s) (m : ι)
    (i : Fin nw) : s.ins (.worker m i) (.workerQueue (P.queue m i)) =
      (s.popped (.workerQueue (P.queue m i))).map Prod.snd := by
  apply entries_eq_map
  apply h.popped_by (S := {.worker m i})
  intro t x next ha
  cases t with
  | scatter => exact absurd ha send_pop_none
  | worker m' i' =>
    obtain ⟨rfl, rfl⟩ := hF.queue_inj _ _ _ _ (Chan.workerQueue.inj (WorkerCode.pop_queue ha))
    rfl
  | gather m' => cases GatherCode.pop_queue ha

theorem outs_scatter (h : P.program.Reachable ⟨pixels, []⟩ s) (index : ℕ) :
    s.outs .scatter (.workerQueue index) = (s.pushed (.workerQueue index)).map Prod.snd := by
  apply entries_eq_map
  apply h.pushed_by (S := {.scatter})
  intro t x m next ha
  cases t with
  | scatter => rfl
  | worker m' i' => cases WorkerCode.push_queue ha
  | gather m' => exact absurd ha GatherCode.push_none

theorem ins_gather (h : P.program.Reachable ⟨pixels, []⟩ s) (m : ι) :
    s.ins (.gather m) (.gatherQueue m) = (s.popped (.gatherQueue m)).map Prod.snd := by
  apply entries_eq_map
  apply h.popped_by (S := {.gather m})
  intro t x next ha
  cases t with
  | scatter => exact absurd ha send_pop_none
  | worker m' i' => cases WorkerCode.pop_queue ha
  | gather m' =>
    cases GatherCode.pop_queue ha
    rfl

def workers (m : ι) (nw : ℕ) : Finset (Thread ι nw) := Finset.univ.image (.worker m)

theorem mem_workers {m : ι} {t : Thread ι nw} : t ∈ workers m nw ↔ ∃ i, t = .worker m i := by
  simp [workers, eq_comm]

theorem card_workers (m : ι) (nw : ℕ) : (workers m nw).card = nw := by
  rw [workers, Finset.card_image_of_injective _ fun i i' he => by cases he; rfl, Finset.card_univ,
    Fintype.card_fin]

theorem pushed_gather (h : P.program.Reachable ⟨pixels, []⟩ s) (m : ι) :
    ∀ e ∈ s.pushed (.gatherQueue m), e.1 ∈ workers m nw := by
  apply h.pushed_by (S := ↑(workers m nw))
  intro t x r next ha
  cases t with
  | scatter =>
    obtain ⟨e, -, hq⟩ := scatter_push ha
    cases hq
  | worker m' i' =>
    cases WorkerCode.push_queue ha
    exact mem_workers.mpr ⟨i', rfl⟩
  | gather m' => exact absurd ha GatherCode.push_none

/-! ## The tasks of a worker and its results -/

/-- What has left a queue, what waits in it, and what `scatter` has sent so far. -/
theorem sent_append (hnw : ∀ m, 1 ≤ (P.gather m).nw) (h : P.program.Reachable ⟨pixels, []⟩ s)
    (index : ℕ) : (s.popped (.workerQueue index)).map Prod.snd ++ s.queue (.workerQueue index) =
      entries index (P.scatter.take (s.loc .scatter)) := by
  have hscatter : s.outs .scatter (.workerQueue index) = _ :=
    (Code.placeTells hnw h .scatter).1.eq_take index
  rwa [outs_scatter h, h.conserved] at hscatter

theorem queue_unused (hnw : ∀ m, 1 ≤ (P.gather m).nw) (h : P.program.Reachable ⟨pixels, []⟩ s)
    {index : ℕ} (hnone : ∀ e ∈ P.scatter, e.1 ≠ index) : s.queue (.workerQueue index) = [] := by
  have hall := sent_append hnw h index
  rw [entries_eq_nil fun e he => hnone e (List.mem_of_mem_take he)] at hall
  exact (List.append_eq_nil_iff.mp hall).2

theorem received_append (hF : P.Feeds tasks last) (h : P.program.Reachable ⟨pixels, []⟩ s)
    (m : ι) (i : Fin nw) : s.ins (.worker m i) (.workerQueue (P.queue m i)) ++
      s.queue (.workerQueue (P.queue m i)) =
        entries (P.queue m i) (P.scatter.take (s.loc .scatter)) := by
  rw [ins_worker hF h]
  exact sent_append hF.one_le_gather h (P.queue m i)

theorem received_le (hF : P.Feeds tasks last) (h : P.program.Reachable ⟨pixels, []⟩ s)
    (m : ι) (i : Fin nw) :
    s.ins (.worker m i) (.workerQueue (P.queue m i)) <+: tasks m ++ [last] :=
  calc s.ins (.worker m i) (.workerQueue (P.queue m i))
    _ <+: entries (P.queue m i) (P.scatter.take (s.loc .scatter)) :=
      ⟨_, hF.received_append h m i⟩
    _ <+: entries (P.queue m i) P.scatter := entries_mono _ (List.take_prefix _ _)
    _ = tasks m ++ [last] := hF.feed m i

/-- The results of the workers are interleaved copies of one stream. -/
theorem merges (hF : P.Feeds tasks last) (h : P.program.Reachable ⟨pixels, []⟩ s) (m : ι) :
    MergesPrefixes (workers m nw) (P.worker.results (tasks m) ++ [eos])
      (s.pushed (.gatherQueue m)) where
  tags := pushed_gather h m
  prefixes t ht := by
    obtain ⟨i, rfl⟩ := mem_workers.mp ht
    exact (hF.worker_answered h m i).sent_le (hF.proper m) hF.eof_last hF.image_last
      (hF.received_le h m i)

theorem chunkDone (hF : P.Feeds tasks last) (h : P.program.Reachable ⟨pixels, []⟩ s) (m : ι)
    (i : Fin nw) {k : ℕ} (hk : k < (tasks m).length)
    (hsent : k < progress (s.pushed (.gatherQueue m)) (.worker m i)) :
    .chunkDone (tasks m)[k] ∈ s.mem.eventsOf (.worker m i) :=
  (hF.worker_answered h m i).chunkDone (hF.proper m) hF.eof_last (hF.received_le h m i)
    hk hsent

/-! ## The gather -/

def gatherLog (s : NetState ι J nw) (m : ι) : List (Thread ι nw × Result) :=
  (s.pushed (.gatherQueue m)).take (s.popped (.gatherQueue m)).length

theorem map_gatherLog (h : P.program.Reachable ⟨pixels, []⟩ s) (m : ι) :
    (gatherLog s m).map Prod.snd = s.ins (.gather m) (.gatherQueue m) := by
  have hlen : (s.popped (.gatherQueue m)).length =
      ((s.popped (.gatherQueue m)).map Prod.snd).length := by simp
  rw [gatherLog, List.map_take, h.conserved (.gatherQueue m), ins_gather h, hlen, List.take_left]

omit [DecidableEq ι] in
theorem gatherLog_le (s : NetState ι J nw) (m : ι) :
    gatherLog s m <+: s.pushed (.gatherQueue m) :=
  List.take_prefix _ _

theorem queue_of_gatherLog (h : P.program.Reachable ⟨pixels, []⟩ s) {m : ι}
    (hall : gatherLog s m = s.pushed (.gatherQueue m)) : s.queue (.gatherQueue m) = [] := by
  have hcons := h.conserved (.gatherQueue m)
  rw [← ins_gather h, ← map_gatherLog h, hall] at hcons
  simpa using hcons

theorem gatherLog_of_queue (h : P.program.Reachable ⟨pixels, []⟩ s) {m : ι}
    (hq : s.queue (.gatherQueue m) = []) : gatherLog s m = s.pushed (.gatherQueue m) := by
  have hlen := congrArg List.length (h.conserved (.gatherQueue m))
  rw [hq, List.append_nil, List.length_map, List.length_map] at hlen
  rw [gatherLog, ← hlen, List.take_length]

/-- The gather completes the images in stream order, each after all workers
have stamped it. -/
theorem collect_eq (hF : P.Feeds tasks last) (h : P.program.Reachable ⟨pixels, []⟩ s) (m : ι) :
    ∃ n ≤ (tasks m).length,
      (collect nw (s.ins (.gather m) (.gatherQueue m))).complete =
        (P.worker.results (tasks m)).take n ∧
      ∀ j (hjt : j < (tasks m).length), j < n → ∀ i : Fin nw,
        .chunkDone (tasks m)[j] ∈ s.mem.eventsOf (.worker m i) := by
  have hmerge := (hF.merges h m).restrict (gatherLog_le s m)
  obtain ⟨n, ⟨hle, hall, -⟩, hcomplete⟩ :=
    collect_merge (card_workers m nw) hF.one_le (hF.results m) hmerge
  rw [map_gatherLog h] at hcomplete
  refine ⟨n, by simpa using hle, hcomplete, fun j hjt hj i => ?_⟩
  have hpassed := hall (.worker m i) (mem_workers.mpr ⟨i, rfl⟩)
  have hmono := progress_mono (gatherLog_le s m) (.worker m i)
  exact hF.chunkDone h m i hjt (by omega)

/-- In the branch for a complete image the gather is at the next image of its
stream, and all workers have stamped their chunk of it. -/
theorem complete_stamped (hF : P.Feeds tasks last) (h : P.program.Reachable ⟨pixels, []⟩ s) {m : ι}
    {r : Result} {g : GatherVars} (hloc : s.loc (.gather m) = .complete r g) :
    ∃ j, ∃ hj : j < (tasks m).length,
      r = (P.worker.number (tasks m)[j] j, P.worker.image (tasks m)[j]) ∧
      (∀ i, .chunkDone (tasks m)[j] ∈ s.mem.eventsOf (.worker m i)) ∧
      (P.gather m).Completions ((P.worker.results (tasks m)).take j)
        (s.mem.eventsOf (.gather m)) := by
  have hplace := hF.gather_completed h m
  obtain ⟨n, hle, hcomplete, hdone⟩ := hF.collect_eq h m
  rw [hloc] at hplace
  generalize s.ins (.gather m) (.gatherQueue m) = msgs at hplace hcomplete
  cases hplace with
  | @complete before _ _ hn hfull hev =>
    rw [hF.gather_nw m] at hfull hev
    rw [hfull] at hcomplete
    have hlen := congrArg List.length hcomplete
    simp only [List.length_append, List.length_singleton, List.length_take,
      WorkerCode.length_results] at hlen
    have hn : n = (collect nw before).complete.length + 1 := by omega
    have hj : (collect nw before).complete.length < (tasks m).length := by omega
    have hget := P.worker.getElem?_results hj
    rw [hn, List.take_add_one, hget] at hcomplete
    obtain ⟨hbefore, hr⟩ := List.append_inj' hcomplete rfl
    refine ⟨_, hj, List.singleton_inj.mp hr, hdone _ hj (by omega), ?_⟩
    rwa [← hbefore]

theorem gather_events (hF : P.Feeds tasks last) (h : P.program.Reachable ⟨pixels, []⟩ s) (m : ι) :
    ∃ n completions printed, s.mem.eventsOf (.gather m) = completions ++ printed ∧
      (P.gather m).Completions ((P.worker.results (tasks m)).take n) completions ∧
      (printed = [] ∨ printed = (P.gather m).onReturn completions.length) := by
  have hplace := hF.gather_completed h m
  obtain ⟨k, completions, printed, hsplit, hev, hprinted⟩ := hplace.exists_completions
  obtain ⟨n, hle, hcomplete, -⟩ := hF.collect_eq h m
  rw [hF.gather_nw m, hcomplete, List.take_take] at hev
  exact ⟨_, completions, printed, hsplit, hev, hprinted⟩

/-! ## The end of a run -/

theorem scatter_finished (hterm : P.program.Terminal s) : P.scatter.length ≤ s.loc .scatter :=
  scatter_waits fun a ha => hterm.waits (t := .scatter) (a := a) ha

theorem worker_finished (hF : P.Feeds tasks last) (h : P.program.Reachable ⟨pixels, []⟩ s)
    (hterm : P.program.Terminal s) (m : ι) (i : Fin nw) :
    s.loc (.worker m i) = .returned ∧ s.queue (.workerQueue (P.queue m i)) = [] ∧
      s.outs (.worker m i) (.gatherQueue m) = P.worker.results (tasks m) ++ [eos] ∧
      s.mem.eventsOf (.worker m i) = P.worker.chunkEvents (tasks m) ++ P.worker.onReturn := by
  have hall := hF.received_append h m i
  rw [List.take_of_length_le (scatter_finished hterm), hF.feed] at hall
  have hplace := hF.worker_answered h m i
  have hwaits := WorkerCode.waits fun a ha => hterm.waits (t := .worker m i) (a := a) ha
  generalize s.ins (.worker m i) (.workerQueue (P.queue m i)) = got at hall hplace
  generalize s.outs (.worker m i) (.gatherQueue m) = sent at hplace ⊢
  generalize s.mem.eventsOf (.worker m i) = events at hplace ⊢
  rcases hwaits with hx | ⟨imageCounter, hx, hq⟩
  · rw [hx] at hplace
    cases hplace with
    | returned hproper heof =>
      obtain ⟨rfl, rfl⟩ := (hF.proper m).eq_of_eof heof ⟨_, hall⟩
      refine ⟨hx, by simpa using hall, ?_, rfl⟩
      rw [hF.image_last]
      rfl
  · -- the end of the stream is among the tasks received
    rw [hq, List.append_nil] at hall
    rw [hx] at hplace
    cases hplace with
    | pop hproper =>
      have heof := hproper last (hall ▸ by simp)
      rw [hF.eof_last] at heof
      cases heof

theorem progress_full (hF : P.Feeds tasks last) (h : P.program.Reachable ⟨pixels, []⟩ s)
    (hterm : P.program.Terminal s) (m : ι) {t : Thread ι nw} (ht : t ∈ workers m nw) :
    progress (s.pushed (.gatherQueue m)) t = (P.worker.results (tasks m) ++ [eos]).length := by
  obtain ⟨i, rfl⟩ := mem_workers.mp ht
  obtain ⟨-, -, hsent, -⟩ := hF.worker_finished h hterm m i
  exact congrArg List.length hsent

theorem gather_finished (hF : P.Feeds tasks last) (h : P.program.Reachable ⟨pixels, []⟩ s)
    (hterm : P.program.Terminal s) (m : ι) :
    s.loc (.gather m) = .returned ⟨∅, nw, (tasks m).length⟩ ∧ s.queue (.gatherQueue m) = [] ∧
      ∃ completions, (P.gather m).Completions (P.worker.results (tasks m)) completions ∧
        s.mem.eventsOf (.gather m) = completions ++ (P.gather m).onReturn (tasks m).length := by
  have hmerge := (hF.merges h m).restrict (gatherLog_le s m)
  have hcard := card_workers m nw
  have hnull := nullCount_eq_card_iff (hF.results m) hmerge
  rw [hcard, map_gatherLog h] at hnull
  have hcollect := collect_all hcard hF.one_le (hF.results m) hmerge
  rw [map_gatherLog h] at hcollect
  have hplace := hF.gather_completed h m
  have hwaits := GatherCode.waits fun a ha => hterm.waits (t := .gather m) (a := a) ha
  have hends : nullCount (s.ins (.gather m) (.gatherQueue m)) = (P.gather m).nw := by
    rcases hwaits with ⟨g, hx⟩ | ⟨g, hx, hq⟩
    · rw [hx] at hplace
      exact hplace.nullCount_returned
    · -- all ends of stream are in
      rw [hF.gather_nw m]
      apply hnull.mpr
      intro t ht
      rw [gatherLog_of_queue h hq, hF.progress_full h hterm m ht]
      simp
  obtain ⟨completions, hx, hev, hevents⟩ :=
    hplace.finished (hwaits.imp id fun ⟨g, hg, _⟩ => ⟨g, hg⟩) hends
  rw [hF.gather_nw m] at hends
  have hfull := hnull.mp hends
  obtain ⟨hcomplete, hpool⟩ := hcollect hfull
  rw [hF.gather_nw m, hcomplete] at hev
  have hlen : completions.length = (tasks m).length := by
    rw [← hev.length_eq, WorkerCode.length_results]
  refine ⟨?_, queue_of_gatherLog h ?_, completions, hev, by rw [hevents, hlen]⟩
  · rw [hx, GatherCode.vars, hF.gather_nw, hpool, hends, hlen]
  · exact (hF.merges h m).eq_of_full (gatherLog_le s m) fun t ht => by
      have := hfull t ht
      rw [List.length_append, List.length_singleton]
      omega

theorem queues_empty (hF : P.Feeds tasks last) (h : P.program.Reachable ⟨pixels, []⟩ s)
    (hterm : P.program.Terminal s) (q : Chan ι) : s.queue q = [] := by
  cases q with
  | gatherQueue m => exact (hF.gather_finished h hterm m).2.1
  | workerQueue index =>
    by_cases hq : ∃ m i, index = P.queue m i
    · obtain ⟨m, i, rfl⟩ := hq
      exact (hF.worker_finished h hterm m i).2.1
    · apply queue_unused hF.one_le_gather h
      rintro e he rfl
      exact hq (hF.routed e he)

end Feeds

/-! ## No run is infinite -/

section Ranking
variable [Fintype ι] (P)

def taskWeight (task : J) : ℕ := 5 + ∑ m, ∑ i, (P.info m i task).loopRank .start

def threadRank : (t : Thread ι nw) → Loc J t → ℕ
  | .scatter => sendRank P.taskWeight (P.scatter.map Prod.snd)
  | .worker m i => WorkerCode.rank (P.info m i)
  | .gather _ => GatherCode.rank

def queues : Finset (Chan ι) :=
  Finset.univ.image (fun mi : ι × Fin nw => .workerQueue (P.queue mi.1 mi.2)) ∪
    Finset.univ.image .gatherQueue

omit [DecidableEq ι] in
theorem loopRank_le_taskWeight (m : ι) (i : Fin nw) (task : J) :
    (P.info m i task).loopRank .start + 5 ≤ P.taskWeight task := by
  have hi := Finset.single_le_sum (f := fun i => (P.info m i task).loopRank .start)
    (fun _ _ => Nat.zero_le _) (Finset.mem_univ i)
  have hm := Finset.single_le_sum (f := fun m => ∑ i, (P.info m i task).loopRank .start)
    (fun _ _ => Nat.zero_le _) (Finset.mem_univ m)
  rw [taskWeight]
  omega

theorem ranking (hrouted : ∀ e ∈ P.scatter, ∃ m i, e.1 = P.queue m i) :
    Ranking P.program P.threadRank (WorkerCode.weight P.taskWeight) P.queues where
  pop t x q next m ha := by
    cases t with
    | scatter => exact absurd ha send_pop_none
    | worker m i =>
      refine ⟨?_, WorkerCode.rank_pop (P.loopRank_le_taskWeight m i) ha⟩
      rw [WorkerCode.pop_queue ha]
      simp [queues]
    | gather m =>
      refine ⟨?_, GatherCode.rank_pop P.taskWeight ha⟩
      rw [GatherCode.pop_queue ha]
      simp [queues]
  push t x q m next ha := by
    cases t with
    | scatter =>
      refine ⟨?_, scatterRank_push P.taskWeight ha⟩
      obtain ⟨e, he, rfl⟩ := scatter_push ha
      obtain ⟨m', i, hq⟩ := hrouted e he
      simp [queues, hq]
    | worker m i =>
      refine ⟨?_, WorkerCode.rank_push P.taskWeight ha⟩
      rw [WorkerCode.push_queue ha]
      simp [queues]
    | gather m => exact absurd ha GatherCode.push_none
  work t x mem f ha := by
    cases t with
    | scatter => exact absurd ha send_work_none
    | worker m i => exact WorkerCode.rank_work ha
    | gather m => exact GatherCode.rank_work ha

end Ranking

end Code

end WaterMark.Maps
