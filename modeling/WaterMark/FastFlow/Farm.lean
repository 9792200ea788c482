import WaterMark.Farm.Worker

/-! # The FastFlow farm

`Emitter_farm` sends one task record for each image, and the scheduling delivers
it to any of the workers. The end of the stream reaches every worker after its
last task. A worker stamps the whole picture of a record and saves it; at the end
it deletes its marker. Records and images are never deleted.
-/

namespace WaterMark.FastFlow.Farm
open ChannelNetwork TaggedLog Pixels Maps
open WaterMark.Farm (Task taskOf wholePicture)

/-- What a worker receives: a record, or the end of the stream. -/
abbrev Msg := Option Task

variable (st : ImageStream) (nw : ℕ)

/-- The ways to make send number `n`: a record goes to any worker, and then the
workers are told the end of the stream one after the other. -/
def choices (n : ℕ) : List (ℕ × Msg) :=
  if n < st.size then (List.range nw).map fun index => (index, some (taskOf st n))
  else if n < st.size + nw then [(n - st.size, none)]
  else []

inductive Thread (nw : ℕ) where
  | emitter
  | worker (i : Fin nw)
deriving DecidableEq, Fintype

/-- Where a `Worker_farm` stands, with the variables of `svc`. -/
inductive WorkerState where
  | pop
  | stamp (imageInfo : Task) (loop : LoopState)
  | save (imageInfo : Task)
  | svcEnd
  | returned

@[reducible] def Loc : Thread nw → Type
  | .emitter => ℕ
  | .worker _ => WorkerState

def savePath (index : ℤ) : String := "markedImageFFfarm/img_" ++ toString index ++ ".jpg"

variable {nw}

def saveEvent (imageInfo : Task) (picture : Buffer) : Event Task :=
  .save imageInfo.index (savePath imageInfo.index) imageInfo.ptrImage picture

def receive : Msg → WorkerState
  | some imageInfo => .stamp imageInfo .start
  | none => .svcEnd

/-- The actions of `Worker_farm`: `svc` for each record, then `svc_end`. -/
def workerActions (markImg : Mark) (i : Fin nw) :
    WorkerState → List (Action (@Chan.Msg Empty Msg) WorkerState (Memory (Thread nw) Task))
  | .pop => [.pop (.workerQueue i) receive]
  | .stamp imageInfo loop =>
    [.work fun mem =>
      let pixNmb := wholePicture (markImg.size / 3 : ℕ)
      if pixNmb.finished loop then (.save imageInfo, mem.record (.worker i) [.chunkDone imageInfo])
      else
        let (loop, img) := pixNmb.bodyStep markImg.data loop (mem.pixels imageInfo.image)
        (.stamp imageInfo loop, mem.write imageInfo.image img)]
  | .save imageInfo =>
    [.work fun mem => (.pop, mem.record (.worker i)
      [saveEvent imageInfo (mem.pixels (st.data imageInfo.ptrImage))])]
  | .svcEnd => [.work fun mem => (.returned, mem.record (.worker i) [.deleteMark])]
  | .returned => []

def program (markImg : Mark) (nw : ℕ) :
    Program (Thread nw) (@Chan.Msg Empty Msg) (Loc nw) (Memory (Thread nw) Task) where
  start
    | .emitter => (0 : ℕ)
    | .worker _ => WorkerState.pop
  actions
    | .emitter => fun n => sendActions (choices st nw n) (n + 1)
    | .worker i => workerActions st markImg i

abbrev FarmState (nw : ℕ) :=
  State (Thread nw) (@Chan.Msg Empty Msg) (Loc nw) (Memory (Thread nw) Task)

/-! ## What the emitter has sent -/

variable {st}

/-- The records dealt out by the first `n` sends, and the ends of stream. -/
structure Dealt (st : ImageStream) (nw n : ℕ) (dealt : List (ℕ × Task))
    (outs : (q : Chan Empty) → List (q.Msg Msg)) : Prop where
  tasks : dealt.map Prod.snd = ((List.range st.size).map (taskOf st)).take n
  targets : ∀ e ∈ dealt, e.1 < nw
  outs : ∀ i < nw, outs (.workerQueue i) =
    (entries i dealt).map some ++ if st.size + i < n then [none] else []

theorem Dealt.start : Dealt st nw 0 [] fun _ => [] where
  tasks := rfl
  targets e he := by cases he
  outs i _ := rfl

theorem mem_choices {n : ℕ} {e : ℕ × Msg} (he : e ∈ choices st nw n) :
    (n < st.size ∧ e.1 < nw ∧ e.2 = some (taskOf st n)) ∨
      (st.size ≤ n ∧ n < st.size + nw ∧ e = (n - st.size, none)) := by
  unfold choices at he
  split_ifs at he with hn hend
  · rcases List.mem_map.mp he with ⟨index, hindex, rfl⟩
    exact .inl ⟨hn, List.mem_range.mp hindex, rfl⟩
  · exact .inr ⟨not_lt.mp hn, hend, List.mem_singleton.mp he⟩
  · cases he

section Step
variable {n : ℕ} {dealt : List (ℕ × Task)} {outs : (q : Chan Empty) → List (q.Msg Msg)}

theorem workerQueue_ne {i k : ℕ} (h : i ≠ k) : @Chan.workerQueue Empty i ≠ .workerQueue k :=
  fun he => h (Chan.workerQueue.inj he)

theorem Dealt.send (h : Dealt st nw n dealt outs) (hn : n < st.size) {k : ℕ} (hk : k < nw) :
    Dealt st nw (n + 1) (dealt ++ [(k, taskOf st n)])
      (Function.update outs (.workerQueue k) (outs (.workerQueue k) ++ [some (taskOf st n)])) where
  tasks := by
    have hget : ((List.range st.size).map (taskOf st))[n]? = some (taskOf st n) := by simp [hn]
    rw [List.map_append, h.tasks, List.take_add_one, hget]
    rfl
  targets e he := by
    rcases List.mem_append.mp he with he | he
    · exact h.targets e he
    · rw [List.mem_singleton.mp he]
      exact hk
  outs i hi := by
    have hopen : ¬ st.size + i < n + 1 := by omega
    have hbefore : ¬ st.size + i < n := by omega
    have houts := h.outs i hi
    rw [if_neg hbefore, List.append_nil] at houts
    rw [if_neg hopen, List.append_nil, entries_append, List.map_append, ← houts]
    by_cases hik : i = k
    · subst hik
      rw [Function.update_self, entries_single_self]
      rfl
    · rw [Function.update_of_ne (workerQueue_ne hik), entries_single_ne _ (Ne.symm hik)]
      exact (List.append_nil _).symm

theorem Dealt.end_stream (h : Dealt st nw n dealt outs) (hn : st.size ≤ n) :
    Dealt st nw (n + 1) dealt (Function.update outs (.workerQueue (n - st.size))
      (outs (.workerQueue (n - st.size)) ++ [none])) where
  tasks := by
    have hlen : ((List.range st.size).map (taskOf st)).length ≤ n := by simpa using hn
    rw [h.tasks, List.take_of_length_le hlen, List.take_of_length_le (by omega)]
  targets := h.targets
  outs i hi := by
    have houts := h.outs i hi
    by_cases hik : i = n - st.size
    · subst hik
      have hbefore : ¬ st.size + (n - st.size) < n := by omega
      have hnow : st.size + (n - st.size) < n + 1 := by omega
      rw [if_neg hbefore, List.append_nil] at houts
      rw [Function.update_self, houts, if_pos hnow]
    · have hsame : st.size + i < n + 1 ↔ st.size + i < n := by omega
      rw [Function.update_of_ne (workerQueue_ne hik), houts]
      simp only [hsame]

theorem Dealt.push_step {μ : Type} {q : Chan Empty} {m : q.Msg Msg} {next : ℕ}
    (ha : .push q m next ∈ @sendActions Empty Msg μ (choices st nw n) (n + 1))
    (h : Dealt st nw n dealt outs) :
    ∃ dealt', Dealt st nw next dealt' (Function.update outs q (outs q ++ [m])) := by
  rcases send_push ha with ⟨⟨k, m'⟩, he, rfl, hpush⟩
  cases hpush
  rcases mem_choices he with ⟨hn, hk, hm⟩ | ⟨hn, -, hend⟩
  · cases hm
    exact ⟨_, h.send hn hk⟩
  · cases hend
    exact ⟨_, h.end_stream hn⟩

end Step

/-! ## What a worker has received and done -/

def handled (tasks : List (Task × Buffer)) : List (Event Task) :=
  tasks.flatMap fun e => [.chunkDone e.1, saveEvent e.1 e.2]

/-- A worker's place in its code tells what it has received and done: it has saved
the records `tasks`, each with its picture. -/
inductive HasSaved : WorkerState → List Msg → List (Event Task) → Prop
  | pop (tasks) : HasSaved .pop (tasks.map fun e => some e.1) (handled tasks)
  | stamp (tasks task loop) :
      HasSaved (.stamp task loop) ((tasks.map fun e => some e.1) ++ [some task]) (handled tasks)
  | save (tasks task) : HasSaved (.save task) ((tasks.map fun e => some e.1) ++ [some task])
      (handled tasks ++ [.chunkDone task])
  | svcEnd (tasks) : HasSaved .svcEnd ((tasks.map fun e => some e.1) ++ [none]) (handled tasks)
  | returned (tasks) : HasSaved .returned ((tasks.map fun e => some e.1) ++ [none])
      (handled tasks ++ [.deleteMark])

section Worker
variable {markImg : Mark} {i : Fin nw} {x : WorkerState} {got : List Msg}
  {events : List (Event Task)}

theorem HasSaved.pop_step {ins : (q : Chan Empty) → List (q.Msg Msg)} {q : Chan Empty}
    {next : q.Msg Msg → WorkerState} {m : q.Msg Msg}
    (ha : .pop q next ∈ workerActions st markImg i x)
    (h : HasSaved x (ins (.workerQueue i)) events) :
    HasSaved (next m) (Function.update ins q (ins q ++ [m]) (.workerQueue i)) events := by
  cases x with
  | pop =>
    cases List.mem_singleton.mp ha
    rw [Function.update_self]
    generalize ins (.workerQueue i) = got at h ⊢
    cases h with
    | pop tasks =>
      cases m with
      | some task => exact .stamp tasks task .start
      | none => exact .svcEnd tasks
  | stamp | save | svcEnd | returned => simp [workerActions] at ha

theorem push_none {q : Chan Empty} {next : WorkerState} {m : q.Msg Msg} :
    .push q m next ∉ workerActions st markImg i x := by
  cases x <;> simp [workerActions]

theorem HasSaved.work_step {mem : Memory (Thread nw) Task}
    {f : Memory (Thread nw) Task → WorkerState × Memory (Thread nw) Task}
    (ha : .work f ∈ workerActions st markImg i x)
    (h : HasSaved x got (mem.eventsOf (.worker i))) :
    HasSaved (f mem).1 got ((f mem).2.eventsOf (.worker i)) := by
  generalize hev : mem.eventsOf (.worker i) = events at h
  cases x with
  | stamp task loop =>
    cases List.mem_singleton.mp ha
    cases h with
    | stamp tasks =>
      by_cases hend : (wholePicture (markImg.size / 3 : ℕ)).finished loop = true
      · simp only [hend, if_true, Memory.eventsOf_record_self, hev]
        exact .save tasks task
      · simp only [hend, Bool.false_eq_true, if_false, Memory.eventsOf_write, hev]
        exact .stamp tasks task _
  | save task =>
    cases List.mem_singleton.mp ha
    cases h with
    | save tasks =>
      have hmore := HasSaved.pop (tasks ++ [(task, mem.pixels (st.data task.ptrImage))])
      simp only [handled, List.map_append, List.flatMap_append] at hmore
      simpa [handled, hev] using hmore
  | svcEnd =>
    cases List.mem_singleton.mp ha
    cases h with
    | svcEnd tasks =>
      simp only [Memory.eventsOf_record_self, hev]
      exact .returned tasks
  | pop | returned => simp [workerActions] at ha

theorem work_frame {u : Thread nw} {mem : Memory (Thread nw) Task}
    {f : Memory (Thread nw) Task → WorkerState × Memory (Thread nw) Task}
    (ha : .work f ∈ workerActions st markImg i x) (h : .worker i ≠ u) :
    (f mem).2.eventsOf u = mem.eventsOf u := by
  cases x with
  | stamp task loop =>
    cases List.mem_singleton.mp ha
    by_cases hend : (wholePicture (markImg.size / 3 : ℕ)).finished loop = true
    · simp only [hend, if_true, Memory.eventsOf_record_ne _ _ _ h]
    · simp only [hend, Bool.false_eq_true, if_false, Memory.eventsOf_write]
  | save | svcEnd =>
    cases List.mem_singleton.mp ha
    exact Memory.eventsOf_record_ne _ _ _ h
  | pop | returned => simp [workerActions] at ha

theorem waits {empty : Chan Empty → Prop}
    (h : ∀ a ∈ workerActions st markImg i x, ∃ q next, a = .pop q next ∧ empty q) :
    x = .returned ∨ x = .pop ∧ empty (.workerQueue i) := by
  cases x with
  | pop =>
    rcases h _ (List.mem_singleton_self _) with ⟨q, next, he, hq⟩
    cases he
    exact Or.inr ⟨rfl, hq⟩
  | stamp | save | svcEnd =>
    rcases h _ (List.mem_singleton_self _) with ⟨q, next, he, hq⟩
    cases he
  | returned => exact Or.inl rfl

def rank (markImg : Mark) : WorkerState → ℕ
  | .pop => 0
  | .stamp _ loop => (wholePicture (markImg.size / 3 : ℕ)).loopRank loop + 2
  | .save _ => 1
  | .svcEnd => 1
  | .returned => 0

def msgWeight (markImg : Mark) (_ : Msg) : ℕ :=
  (wholePicture (markImg.size / 3 : ℕ)).loopRank .start + 3

theorem rank_pop {q : Chan Empty} {next : q.Msg Msg → WorkerState} {m : q.Msg Msg}
    (ha : .pop q next ∈ workerActions st markImg i x) : q = .workerQueue i ∧
      rank markImg (next m) < rank markImg x + WorkerCode.weight (msgWeight markImg) q m := by
  cases x with
  | pop =>
    cases List.mem_singleton.mp ha
    apply And.intro rfl
    cases m <;> simp only [receive, rank, WorkerCode.weight, msgWeight] <;> omega
  | stamp | save | svcEnd | returned => simp [workerActions] at ha

theorem rank_work {mem : Memory (Thread nw) Task}
    {f : Memory (Thread nw) Task → WorkerState × Memory (Thread nw) Task}
    (ha : .work f ∈ workerActions st markImg i x) :
    rank markImg (f mem).1 < rank markImg x := by
  cases x with
  | stamp task loop =>
    cases List.mem_singleton.mp ha
    by_cases hend : (wholePicture (markImg.size / 3 : ℕ)).finished loop = true
    · simp only [hend, if_true, rank]
      omega
    · have hlt := (wholePicture (markImg.size / 3 : ℕ)).loopRank_bodyStep markImg.data
        (mem.pixels task.image) (Bool.not_eq_true _ ▸ hend)
      simp only [hend, Bool.false_eq_true, if_false, rank]
      omega
  | save | svcEnd =>
    cases List.mem_singleton.mp ha
    simp [rank]
  | pop | returned => simp [workerActions] at ha

end Worker

/-! ## One event of each kind for each record -/

structure Picks {α : Type} (f : Event Task → Option α) (g : Task → α) : Prop where
  task : ∀ task picture, [.chunkDone task, saveEvent task picture].filterMap f = [g task]
  mark : f .deleteMark = none

section Picks
variable {α : Type} {f : Event Task → Option α} {g : Task → α}

theorem picked_handled (hf : Picks f g) (tasks : List (Task × Buffer)) :
    (handled tasks).filterMap f = tasks.map fun e => g e.1 := by
  induction tasks with
  | nil => rfl
  | cons e tasks ih =>
    rw [handled, List.flatMap_cons, List.filterMap_append, hf.task, ← handled, ih]
    rfl

theorem HasSaved.picked_le (hf : Picks f g) {x : WorkerState} {got : List Msg}
    {events : List (Event Task)} (h : HasSaved x got events) :
    events.filterMap f <+: got.filterMap (Option.map g) := by
  cases h with
  | pop tasks =>
    rw [picked_handled hf]
    simp [List.filterMap_map]
  | stamp tasks task loop =>
    rw [picked_handled hf]
    simp [List.filterMap_map]
  | save tasks task =>
    have hdone : [Event.chunkDone task].filterMap f <+: [g task] := by
      rw [← hf.task task []]
      exact List.IsPrefix.filterMap f ⟨_, rfl⟩
    rw [List.filterMap_append, picked_handled hf]
    simpa [List.filterMap_map] using hdone
  | svcEnd tasks =>
    rw [picked_handled hf]
    simp [List.filterMap_map]
  | returned tasks =>
    rw [List.filterMap_append, picked_handled hf]
    simp [List.filterMap_map, hf.mark]

theorem HasSaved.picked_returned (hf : Picks f g) {got : List Msg} {events : List (Event Task)}
    (h : HasSaved .returned got events) : events.filterMap f = got.filterMap (Option.map g) := by
  cases h with
  | returned tasks =>
    rw [List.filterMap_append, picked_handled hf]
    simp [List.filterMap_map, hf.mark]

end Picks

theorem picks_stamped : Picks Event.stamped id := ⟨fun _ _ => rfl, rfl⟩

theorem picks_saved : Picks Event.saved fun task => (savePath task.index, task.ptrImage) :=
  ⟨fun _ _ => rfl, rfl⟩

end WaterMark.FastFlow.Farm
