import WaterMark.Maps.SharedEnd
import WaterMark.Pictures.Simulation
import WaterMark.Seq

/-! # The pictures of the maps

In both networks of maps a chunk of an image is in one hand at a time and is
stamped once. So the picture that a gather finds when it completes an image is
the one of the sequential loop.
-/

namespace WaterMark.Maps
open ChannelNetwork TaggedLog SharedQueue Pixels Gather Pictures

variable {ι J : Type} {nw : ℕ}

def WorkerState.hand : WorkerState J → Option (J × LoopState)
  | .stamp task loop _ => some (task, loop)
  | _ => none

theorem WorkerState.hand_eq {x : WorkerState J} {task : J} {loop : LoopState}
    (h : x.hand = some (task, loop)) : ∃ n, x = .stamp task loop n := by
  cases x with
  | stamp task' loop' n =>
    cases h
    exact ⟨n, rfl⟩
  | pop | propagate | propagateEos | finish | returned => cases h

namespace WorkerCode
variable {T κ : Type} {c : WorkerCode J} {info : J → ChunkInfo} {t : T} {index : ℕ} {mapID : κ}
  {x : WorkerState J}

structure Quiet (c : WorkerCode J) : Prop where
  chunk : ∀ task job, .chunkDone job ∉ c.onChunk task
  finish : ∀ job, .chunkDone job ∉ c.onReturn

theorem pop_hand {q : Chan κ} {next : q.Msg J → WorkerState J} {m : q.Msg J}
    (ha : .pop q next ∈ c.actions info t index mapID x) : x.hand = none ∧
      ∀ task loop, (next m).hand = some (task, loop) → loop = .start := by
  cases x with
  | pop imageCounter =>
    cases List.mem_singleton.mp ha
    refine ⟨rfl, fun task loop hnext => ?_⟩
    simp only [receive] at hnext
    split_ifs at hnext
    · cases hnext
    · cases hnext
      rfl
  | stamp | propagate | propagateEos | finish | returned => simp [actions] at ha

theorem push_hand {q : Chan κ} {next : WorkerState J} {m : q.Msg J}
    (ha : .push q m next ∈ c.actions info t index mapID x) : x.hand = none ∧ next.hand = none := by
  cases x with
  | propagate | propagateEos =>
    cases List.mem_singleton.mp ha
    exact ⟨rfl, rfl⟩
  | pop | stamp | finish | returned => simp [actions] at ha

theorem works (hc : c.Quiet) {mem : Memory T J} {f : Memory T J → WorkerState J × Memory T J}
    (ha : .work f ∈ c.actions info t index mapID x) :
    Works t WorkerState.hand info c.dataImg c.ptrMarker x mem (f mem) := by
  cases x with
  | stamp task loop imageCounter =>
    cases List.mem_singleton.mp ha
    by_cases hend : (info task).finished loop = true
    · simp only [hend, if_true]
      refine .finish rfl hend rfl fun job => ?_
      simp [hc.chunk task job]
    · simp only [hend, Bool.false_eq_true, if_false]
      exact .loop rfl (Bool.not_eq_true _ ▸ hend) rfl
  | finish =>
    cases List.mem_singleton.mp ha
    exact .other rfl rfl hc.finish
  | pop | propagate | propagateEos | returned => simp [actions] at ha

end WorkerCode

namespace GatherCode
variable {T κ : Type} {c : GatherCode J} {t : T} {mapID : κ} {x : GatherState}

structure Quiet (c : GatherCode J) : Prop where
  complete : ∀ r pixels job, c.onComplete r pixels ≠ .chunkDone job
  printed : ∀ n job, .chunkDone job ∉ c.onReturn n

theorem works (hc : c.Quiet) {info : J → ChunkInfo} {dataImg : J → Ptr} {ptrMark : Buffer}
    {mem : Memory T J} {f : Memory T J → GatherState × Memory T J}
    (ha : .work f ∈ c.actions t mapID x) :
    Works t (fun _ => none) info dataImg ptrMark x mem (f mem) := by
  cases x with
  | complete r g =>
    cases List.mem_singleton.mp ha
    refine .other rfl rfl fun job hjob => ?_
    exact hc.complete r mem.pixels job (List.mem_singleton.mp hjob).symm
  | finish g =>
    cases List.mem_singleton.mp ha
    exact .other rfl rfl (hc.printed g.imgNumber)
  | pop | returned => simp [actions] at ha

end GatherCode

namespace Code

def hand : (t : Thread ι nw) → Loc J t → Option (J × LoopState)
  | .scatter => fun _ => none
  | .worker _ _ => WorkerState.hand
  | .gather _ => fun _ => none

/-- The stamping of a map version, given what a task is to worker `i` of map `m`. -/
def stamping (P : Code ι J nw) (piece : ι → Fin nw → J → ℕ → Fin nw → Prop) :
    Stamping (Thread ι nw) J (Loc J) nw where
  hand := hand
  piece
    | .worker m i => piece m i
    | _ => fun _ _ _ => False
  dataImg := P.worker.dataImg
  info
    | .worker m i => P.info m i
    | _ => fun _ => ⟨0, 0, 0, 0⟩
  ptrMark := P.worker.ptrMarker

structure Quiet (P : Code ι J nw) : Prop where
  worker : P.worker.Quiet
  gather : ∀ m, (P.gather m).Quiet

theorem describes {P : Code ι J nw} (hP : P.Quiet)
    (piece : ι → Fin nw → J → ℕ → Fin nw → Prop) :
    (P.stamping piece).Describes P.program where
  start t := by cases t <;> rfl
  pop t x q next m ha := by
    cases t with
    | scatter => exact absurd ha send_pop_none
    | worker m' i => exact WorkerCode.pop_hand ha
    | gather m' => exact ⟨rfl, fun task loop h => by cases h⟩
  push t x q m next ha := by
    cases t with
    | scatter => exact ⟨rfl, rfl⟩
    | worker m' i => exact WorkerCode.push_hand ha
    | gather m' => exact ⟨rfl, rfl⟩
  work t x mem f ha := by
    cases t with
    | scatter => exact absurd ha send_work_none
    | worker m' i => exact WorkerCode.works hP.worker ha
    | gather m' => exact GatherCode.works (hP.gather m') ha

abbrev sequential (st : ImageStream) (ptrMark : Buffer) (h w : ℕ) (pixels : Ptr → Buffer) (j : ℕ) :
    Buffer :=
  (seqLoop ptrMark h w (pixels (st.pix j))).img

/-- The runs of a version that start from `pixels` stamp the images of the stream
chunk by chunk, and a gather completes images of its map that are stamped. -/
structure Paints [DecidableEq ι] (P : Code ι J nw) (piece : ι → Fin nw → J → ℕ → Fin nw → Prop)
    (st : ImageStream) (order : ι → List ℕ) (h w : ℕ) (pixels : Ptr → Buffer) : Prop where
  one_le : 1 ≤ nw
  order_lt : ∀ m, ∀ j ∈ order m, j < st.size
  quiet : P.Quiet
  cuts : (P.stamping piece).Cuts st h w
  alone : ∀ s, P.program.Reachable ⟨pixels, []⟩ s → (P.stamping piece).Alone s
  full : ∀ s : NetState ι J nw, P.program.Reachable ⟨pixels, []⟩ s → ∀ m r g,
    s.loc (.gather m) = .complete r g →
      ∃ j ∈ order m, r = resultOf st j ∧ ∀ c, (P.stamping piece).Stamped s j c

section Paints
variable [DecidableEq ι] {P : Code ι J nw} {piece : ι → Fin nw → J → ℕ → Fin nw → Prop}
  {st : ImageStream} {order : ι → List ℕ} {h w : ℕ} {pixels : Ptr → Buffer} {s : NetState ι J nw}

theorem Paints.pixels_eq (hP : P.Paints piece st order h w pixels)
    (hs : P.program.Reachable ⟨pixels, []⟩ s) {j : ℕ} (hj : j < st.size)
    (hall : ∀ c, (P.stamping piece).Stamped s j c) :
    s.mem.pixels (st.pix j) = sequential st P.worker.ptrMarker h w pixels j :=
  (describes hP.quiet piece).pixels_eq hP.cuts hP.alone hP.one_le hj hs hall

/-- What a gather records: the completion of an image, with the pixels of the
sequential program in the memory, or what it prints. -/
theorem Paints.gather_event (hP : P.Paints piece st order h w pixels)
    (hs : P.program.Reachable ⟨pixels, []⟩ s) :
    ∀ e ∈ s.mem.events, ∀ m, e.1 = .gather m →
      (∃ j ∈ order m, ∃ buffers : Ptr → Buffer,
        buffers (st.pix j) = sequential st P.worker.ptrMarker h w pixels j ∧
        e.2 = (P.gather m).onComplete (resultOf st j) buffers) ∨
      ∃ n, e.2 ∈ (P.gather m).onReturn n := by
  refine Program.forall_log_of_run (fun _ _ hstep => hstep) hs Memory.events rfl
    fun s hs t f ha => ?_
  cases t with
  | scatter => exact absurd ha send_work_none
  | worker m i =>
    rcases WorkerCode.work_events ha with ⟨es, hes⟩
    refine ⟨_, hes, fun e he m' ht => ?_⟩
    rcases List.mem_map.mp he with ⟨e', -, rfl⟩
    cases ht
  | gather m =>
    rcases GatherCode.work_events ha with ⟨r, g, hloc, hes⟩ | ⟨n, hes⟩
    · refine ⟨_, hes, fun e he m' ht => Or.inl ?_⟩
      cases List.mem_singleton.mp he
      cases ht
      rcases hP.full s hs m r g hloc with ⟨j, hj, rfl, hall⟩
      exact ⟨j, hj, s.mem.pixels, hP.pixels_eq hs (hP.order_lt m j hj) hall, rfl⟩
    · refine ⟨_, hes, fun e he m' ht => Or.inr ?_⟩
      rcases List.mem_map.mp he with ⟨e', he', rfl⟩
      cases ht
      exact ⟨n, he'⟩

/-! ## What is written -/

/-- The gathers of the version save, and nobody else does. -/
structure Saves (P : Code ι J nw) (st : ImageStream) (savePath : ℤ → String) : Prop where
  complete : ∀ m r buffers, (P.gather m).onComplete r buffers =
    .save r.1 (savePath r.1) r.2 (buffers (st.data r.2))
  printed : ∀ m n, ∀ e ∈ (P.gather m).onReturn n, e.saved = none ∧ e.output = none
  worker : ∀ e, P.worker.Makes e → e.saved = none ∧ e.output = none

theorem Paints.gather_output (hP : P.Paints piece st order h w pixels) {savePath : ℤ → String}
    (hS : P.Saves st savePath) (hs : P.program.Reachable ⟨pixels, []⟩ s) {m : ι} {e : Event J}
    (he : (.gather m, e) ∈ s.mem.events) :
    e.output = e.saved.map fun save =>
      Seq.stamped st P.worker.ptrMarker h w pixels (st.imgVector.idxOf save.2) := by
  rcases hP.gather_event hs _ he m rfl with ⟨j, hj, buffers, hpixels, rfl⟩ | ⟨n, he⟩
  · have hlt := hP.order_lt m j hj
    have hidx : st.imgVector.idxOf (st.img j) = j := by
      rw [st.img_eq hlt]
      exact st.img_nodup.idxOf_getElem j hlt
    rw [hS.complete]
    simp only [Event.output, Event.saved, Option.map_some, resultOf, hidx, ← st.pix_eq hlt,
      hpixels]
    rfl
  · rcases hS.printed m n e he with ⟨hsaved, houtput⟩
    rw [hsaved, houtput]
    rfl

def written (s : NetState ι J nw) : List (ℤ × Buffer) :=
  (s.mem.events.map Prod.snd).filterMap Event.output

theorem Paints.written_eq (hP : P.Paints piece st order h w pixels) {savePath : ℤ → String}
    (hS : P.Saves st savePath) (hnw : ∀ m, 1 ≤ (P.gather m).nw)
    (hs : P.program.Reachable ⟨pixels, []⟩ s) :
    written s = ((s.mem.events.map Prod.snd).filterMap Event.saved).map fun save =>
      Seq.stamped st P.worker.ptrMarker h w pixels (st.imgVector.idxOf save.2) := by
  rw [written, List.map_filterMap]
  apply List.filterMap_congr
  intro e he
  rcases List.mem_map.mp he with ⟨⟨t, e⟩, hte, rfl⟩
  rcases Code.gather_or_makes hnw hs (mem_entries.mpr hte) with ⟨m, rfl⟩ | hmakes
  · exact hP.gather_output hS hs hte
  · rcases hS.worker e hmakes with ⟨hsaved, houtput⟩
    rw [hsaved, houtput]
    rfl

theorem Paints.written_perm (hP : P.Paints piece st order h w pixels) {savePath : ℤ → String}
    (hS : P.Saves st savePath) (hnw : ∀ m, 1 ≤ (P.gather m).nw)
    (hs : P.program.Reachable ⟨pixels, []⟩ s)
    (hsaves : ((s.mem.events.map Prod.snd).filterMap Event.saved).Perm
      ((List.range st.size).map fun j : ℕ => (savePath j, st.img j))) :
    (written s).Perm (Seq.output st P.worker.ptrMarker h w pixels) := by
  rw [hP.written_eq hS hnw hs, Seq.output_eq]
  apply (hsaves.map _).trans
  rw [List.map_map]
  apply List.Perm.of_eq
  apply List.map_congr_left
  intro j hj
  have hlt := List.mem_range.mp hj
  simp only [Function.comp_apply]
  rw [st.img_eq hlt, st.img_nodup.idxOf_getElem j hlt]

/-- What is written at any time is part of what the sequential program writes, since
it is still there at the end. -/
theorem Paints.writes_seq (hP : P.Paints piece st order h w pixels) {savePath : ℤ → String}
    (hS : P.Saves st savePath) (hnw : ∀ m, 1 ≤ (P.gather m).nw)
    (hsaves : ∀ s, P.program.Reachable ⟨pixels, []⟩ s → P.program.Terminal s →
      ((s.mem.events.map Prod.snd).filterMap Event.saved).Perm
        ((List.range st.size).map fun j : ℕ => (savePath j, st.img j)))
    (hend : ∃ s', Relation.ReflTransGen P.program.Step s s' ∧ P.program.Terminal s')
    (hs : P.program.Reachable ⟨pixels, []⟩ s) :
    (written s).Subperm (Seq.output st P.worker.ptrMarker h w pixels) ∧
      (P.program.Terminal s → (written s).Perm (Seq.output st P.worker.ptrMarker h w pixels)) := by
  have hperm {s : NetState ι J nw} (hs : P.program.Reachable ⟨pixels, []⟩ s)
      (hterm : P.program.Terminal s) :
      (written s).Perm (Seq.output st P.worker.ptrMarker h w pixels) :=
    hP.written_perm hS hnw hs (hsaves s hs hterm)
  refine ⟨?_, hperm hs⟩
  obtain ⟨s', hrun, hterm⟩ := hend
  have hle := (describes hP.quiet piece).events_le hrun
  have hmore : (written s).Sublist (written s') :=
    ((hle.map Prod.snd).filterMap Event.output).sublist
  exact hmore.subperm.trans (hperm (hs.trans hrun) hterm).subperm

end Paints

/-! ## Workers with queues of their own -/

/-- One task for each image, the same for all workers of the image's map. -/
structure Deals (P : Code ι J nw) (st : ImageStream) (taskOf : ℕ → J) (order : ι → List ℕ)
    (h w : ℕ) : Prop where
  quiet : P.Quiet
  order_lt : ∀ m, ∀ j ∈ order m, j < st.size
  nodup : ∀ m, (order m).Nodup
  map_unique : ∀ {m m' j}, j ∈ order m → j ∈ order m' → m = m'
  dataImg : ∀ j, P.worker.dataImg (taskOf j) = st.pix j
  info : ∀ m i j, P.info m i (taskOf j) = infoVector h w nw i
  results : ∀ m, P.worker.results ((order m).map taskOf) = (order m).map (resultOf st)

/-- A worker stamps the chunk with its own number. -/
def ownChunk (taskOf : ℕ → J) (order : ι → List ℕ) (m : ι) (i : Fin nw) (task : J) (j : ℕ)
    (c : Fin nw) : Prop :=
  c = i ∧ j ∈ order m ∧ task = taskOf j

section Deals
variable {P : Code ι J nw} {taskOf : ℕ → J} {st : ImageStream} {order : ι → List ℕ} {h w : ℕ}

theorem worker_of_piece {t : Thread ι nw} {task : J} {j : ℕ} {c : Fin nw}
    (hp : (P.stamping (ownChunk taskOf order)).piece t task j c) :
    ∃ m, t = .worker m c ∧ j ∈ order m ∧ task = taskOf j := by
  cases t with
  | scatter => exact hp.elim
  | worker m i =>
    rcases hp with ⟨rfl, hj, htask⟩
    exact ⟨m, rfl, hj, htask⟩
  | gather m => exact hp.elim

theorem Deals.cuts (hD : P.Deals st taskOf order h w) :
    (P.stamping (ownChunk taskOf order)).Cuts st h w where
  lt hp := by
    rcases worker_of_piece hp with ⟨m, -, hj, -⟩
    exact hD.order_lt m _ hj
  dataImg hp := by
    rcases worker_of_piece hp with ⟨m, -, -, rfl⟩
    exact hD.dataImg _
  info hp := by
    rcases worker_of_piece hp with ⟨m, rfl, -, rfl⟩
    exact hD.info m _ _
  chunk_unique hp hp' := by
    rcases worker_of_piece hp with ⟨m, rfl, -⟩
    rcases worker_of_piece hp' with ⟨m', ht, -⟩
    cases ht
    rfl

theorem Deals.task_inj (hD : P.Deals st taskOf order h w) {j k : ℕ} (hj : j < st.size)
    (hk : k < st.size) (he : taskOf j = taskOf k) : j = k := by
  apply (st.pix_inj hj hk).mp
  rw [← hD.dataImg j, ← hD.dataImg k, he]

theorem Deals.nodup_tasks (hD : P.Deals st taskOf order h w) (m : ι) :
    ((order m).map taskOf).Nodup :=
  (hD.nodup m).map_on fun _ hj _ hk he =>
    hD.task_inj (hD.order_lt m _ hj) (hD.order_lt m _ hk) he

theorem stamp_of_holds {piece : ι → Fin nw → J → ℕ → Fin nw → Prop} {s : NetState ι J nw}
    {t : Thread ι nw} {task : J} {loop : LoopState}
    (ht : (P.stamping piece).Holds s t task loop) :
    ∃ m i n, t = .worker m i ∧ s.loc (.worker m i) = .stamp task loop n := by
  cases t with
  | scatter => cases ht
  | worker m i =>
    rcases WorkerState.hand_eq ht with ⟨n, hn⟩
    exact ⟨m, i, n, rfl, hn⟩
  | gather m => cases ht

variable [DecidableEq ι] {last : J} {pixels : Ptr → Buffer} {s : NetState ι J nw}

theorem Feeds.alone (hF : P.Feeds (fun m => (order m).map taskOf) last)
    (hD : P.Deals st taskOf order h w) (hs : P.program.Reachable ⟨pixels, []⟩ s) :
    (P.stamping (ownChunk taskOf order)).Alone s where
  known ht := by
    rcases stamp_of_holds ht with ⟨m, i, n, rfl, hloc⟩
    have hget := (hF.stamp_next hs hD.quiet.worker.chunk hloc).1
    rcases List.mem_map.mp (List.mem_of_getElem? hget) with ⟨j, hj, rfl⟩
    exact ⟨j, i, rfl, hj, rfl⟩
  one _ hp _ hp' := by
    rcases worker_of_piece hp with ⟨m, rfl, hj, -⟩
    rcases worker_of_piece hp' with ⟨m', rfl, hj', -⟩
    rw [hD.map_unique hj hj']
  fresh ht hp := by
    rintro ⟨u, task', hmem, hp'⟩
    rcases worker_of_piece hp with ⟨m, rfl, hj, rfl⟩
    rcases worker_of_piece hp' with ⟨m', rfl, hj', rfl⟩
    obtain rfl := hD.map_unique hj hj'
    rcases stamp_of_holds ht with ⟨_, _, n, he, hloc⟩
    cases he
    rcases hF.stamp_next hs hD.quiet.worker.chunk hloc with ⟨hget, hdone⟩
    -- the task in hand is not among those before it
    rcases List.mem_take_iff_getElem.mp (hdone _ (mem_entries.mpr hmem)) with ⟨k, hk, hke⟩
    rcases List.getElem?_eq_some_iff.mp hget with ⟨hn, hne⟩
    have := (hD.nodup_tasks m).getElem_inj_iff.mp (hke.trans hne.symm)
    omega

theorem Feeds.paints (hF : P.Feeds (fun m => (order m).map taskOf) last)
    (hD : P.Deals st taskOf order h w) (pixels : Ptr → Buffer) :
    P.Paints (ownChunk taskOf order) st order h w pixels where
  one_le := hF.one_le
  order_lt := hD.order_lt
  quiet := hD.quiet
  cuts := hD.cuts
  alone _ hs := hF.alone hD hs
  full s hs m r g hloc := by
    rcases hF.complete_stamped hs hloc with ⟨k, hk, hr, hdone, -⟩
    have hk' : k < (order m).length := by simpa using hk
    have hj : (order m)[k] ∈ order m := List.getElem_mem hk'
    have hresult := P.worker.getElem?_results hk
    rw [hD.results m, ← hr, List.getElem?_map, List.getElem?_eq_getElem hk'] at hresult
    simp only [List.getElem_map] at hdone
    exact ⟨_, hj, (Option.some.inj hresult).symm, fun c =>
      ⟨.worker m c, _, mem_entries.mp (hdone c), rfl, hj, rfl⟩⟩

end Deals

/-! ## Workers that share a queue -/

/-- One task for each chunk of an image, for whichever worker of the map takes it. -/
structure Splits (P : Code ι J nw) (st : ImageStream) (taskOf : ℕ → Fin nw → J)
    (order : ι → List ℕ) (tasks : ι → List J) (h w : ℕ) : Prop where
  quiet : P.Quiet
  order_lt : ∀ m, ∀ j ∈ order m, j < st.size
  map_unique : ∀ {m m' j}, j ∈ order m → j ∈ order m' → m = m'
  mem_tasks : ∀ {m task}, task ∈ tasks m ↔ ∃ j ∈ order m, ∃ c, task = taskOf j c
  dataImg : ∀ j c, P.worker.dataImg (taskOf j c) = st.pix j
  info : ∀ m i j c, P.info m i (taskOf j c) = infoVector h w nw c
  chunk_inj : ∀ {j c d}, taskOf j c = taskOf j d → c = d
  result : ∀ j c, P.worker.result (taskOf j c) = resultOf st j

/-- A worker stamps the chunk that its task names. -/
def takenChunk (taskOf : ℕ → Fin nw → J) (order : ι → List ℕ) (m : ι) (_ : Fin nw) (task : J)
    (j : ℕ) (c : Fin nw) : Prop :=
  j ∈ order m ∧ task = taskOf j c

section Splits
variable {P : Code ι J nw} {taskOf : ℕ → Fin nw → J} {st : ImageStream} {order : ι → List ℕ}
  {tasks : ι → List J} {h w : ℕ}

theorem taken_of_piece {t : Thread ι nw} {task : J} {j : ℕ} {c : Fin nw}
    (hp : (P.stamping (takenChunk taskOf order)).piece t task j c) :
    ∃ m i, t = .worker m i ∧ j ∈ order m ∧ task = taskOf j c := by
  cases t with
  | scatter => exact hp.elim
  | worker m i => exact ⟨m, i, rfl, hp⟩
  | gather m => exact hp.elim

theorem Splits.cuts (hT : P.Splits st taskOf order tasks h w) :
    (P.stamping (takenChunk taskOf order)).Cuts st h w where
  lt hp := by
    rcases taken_of_piece hp with ⟨m, i, -, hj, -⟩
    exact hT.order_lt m _ hj
  dataImg hp := by
    rcases taken_of_piece hp with ⟨m, i, -, -, rfl⟩
    exact hT.dataImg _ _
  info hp := by
    rcases taken_of_piece hp with ⟨m, i, rfl, -, rfl⟩
    exact hT.info m i _ _
  chunk_unique hp hp' := by
    rcases taken_of_piece hp with ⟨m, i, -, -, rfl⟩
    rcases taken_of_piece hp' with ⟨m', i', -, -, he⟩
    exact hT.chunk_inj he

variable [DecidableEq ι] [DecidableEq J] {index : ι → ℕ} {last : J} {stream : ι → List Result}
  {pixels : Ptr → Buffer} {s : NetState ι J nw}

/-- Each chunk is taken and stamped once. -/
theorem Shares.alone (hS : P.Shares index tasks last stream)
    (hT : P.Splits st taskOf order tasks h w) (hs : P.program.Reachable ⟨pixels, []⟩ s) :
    (P.stamping (takenChunk taskOf order)).Alone s where
  known ht := by
    rcases stamp_of_holds ht with ⟨m, i, n, rfl, hloc⟩
    rcases hT.mem_tasks.mp (hS.stamping hs hloc).1 with ⟨j, hj, c, rfl⟩
    exact ⟨j, c, hj, rfl⟩
  one ht hp hu hp' := by
    rcases taken_of_piece hp with ⟨m, i, rfl, hj, rfl⟩
    rcases taken_of_piece hp' with ⟨m', i', rfl, hj', rfl⟩
    obtain rfl := hT.map_unique hj hj'
    rcases stamp_of_holds ht with ⟨_, _, n, he, hloc⟩
    cases he
    rcases stamp_of_holds hu with ⟨_, _, n', he, hloc'⟩
    cases he
    rw [(hS.stamping hs hloc).2.2 i' _ n' hloc']
  fresh ht hp := by
    rintro ⟨u, task', hmem, hp'⟩
    rcases taken_of_piece hp with ⟨m, i, rfl, hj, rfl⟩
    rcases taken_of_piece hp' with ⟨m', i', rfl, hj', rfl⟩
    obtain rfl := hT.map_unique hj hj'
    rcases stamp_of_holds ht with ⟨_, _, n, he, hloc⟩
    cases he
    apply (hS.stamping hs hloc).2.1
    exact mem_stampedBy.mpr ⟨i', mem_stampedOf.mpr (mem_entries.mpr hmem)⟩

theorem Shares.paints (hS : P.Shares index tasks last stream)
    (hT : P.Splits st taskOf order tasks h w)
    (hstream : ∀ m, stream m = (order m).map (resultOf st)) (pixels : Ptr → Buffer) :
    P.Paints (takenChunk taskOf order) st order h w pixels where
  one_le := hS.one_le
  order_lt := hT.order_lt
  quiet := hT.quiet
  cuts := hT.cuts
  alone _ hs := hS.alone hT hs
  full s hs m r g hloc := by
    have hplace := hS.gather_completed hs m
    have hr : r ∈ completeOf s m := by
      rw [hloc] at hplace
      generalize s.mem.eventsOf (.gather m) = events at hplace
      generalize hmsgs : s.ins (.gather m) (.gatherQueue m) = msgs at hplace
      cases hplace with
      | complete hn hfull hev =>
        rw [hS.gather_nw m] at hfull
        rw [completeOf, hmsgs, hfull]
        exact List.mem_append_right _ (List.mem_singleton_self r)
    rcases hS.complete_stamped hs hr with ⟨hmem, hdone⟩
    rw [hstream] at hmem
    rcases List.mem_map.mp hmem with ⟨j, hj, rfl⟩
    refine ⟨j, hj, rfl, fun c => ?_⟩
    have hstamped := hdone _ (hT.mem_tasks.mpr ⟨j, hj, c, rfl⟩) (hT.result j c)
    rcases mem_stampedBy.mp hstamped with ⟨i, hi⟩
    exact ⟨.worker m i, _, mem_entries.mp (mem_stampedOf.mp hi), hj, rfl⟩

end Splits

end Code

end WaterMark.Maps
