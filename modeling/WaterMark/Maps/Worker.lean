import WaterMark.Gather.Pool
import WaterMark.Library.ChannelNetwork
import WaterMark.Memory
import WaterMark.Pixels.ChunkLoops

/-! # The worker of a map

The workers of the map versions run the same loop. They pop a task, stamp their
chunk of its picture, push a result and pop again, until a task without
picture ends the stream. The versions differ in the tasks, in the number that
goes with a result and in what is released on the way.
-/

namespace WaterMark.Maps
open ChannelNetwork TaggedLog Pixels Gather

inductive Chan (κ : Type) where
  | workerQueue (k : ℕ)
  | gatherQueue (g : κ)
deriving DecidableEq

/-- Each version has its own type `J` of tasks; a result is the number of an
image and its pointer. -/
@[reducible] def Chan.Msg {κ : Type} (J : Type) : Chan κ → Type
  | .workerQueue _ => J
  | .gatherQueue _ => Result

/-- What distinguishes the workers of the versions: the test for the end of the
stream, the pixels and the image of a task, the number of its result after
`imageCounter` earlier tasks, and what is released after the loop and at the end. -/
structure WorkerCode (J : Type) where
  eof : J → Bool
  dataImg : J → Ptr
  image : J → Ptr
  number : J → ℕ → ℤ
  ptrMarker : Buffer
  onChunk : J → List (Event J)
  onReturn : List (Event J)

/-- Where `worker` stands, with its local variables. -/
inductive WorkerState (J : Type) where
  | pop (imageCounter : ℕ)
  | stamp (task : J) (loop : LoopState) (imageCounter : ℕ)
  | propagate (task : J) (imageCounter : ℕ)
  | propagateEos (task : J)
  | finish
  | returned

namespace WorkerCode
variable {T κ J : Type}

/-- A task without picture ends the stream. -/
def receive (c : WorkerCode J) (imageCounter : ℕ) (task : J) : WorkerState J :=
  if c.eof task then .propagateEos task else .stamp task .start imageCounter

/-- The actions of `worker`: each pixel access and each queue operation is a
step of its own. -/
def actions (c : WorkerCode J) (info : J → ChunkInfo) (t : T) (index : ℕ) (mapID : κ) :
    WorkerState J → List (Action (@Chan.Msg κ J) (WorkerState J) (Memory T J))
  | .pop imageCounter => [.pop (.workerQueue index) (c.receive imageCounter)]
  | .stamp task loop imageCounter =>
    [.work fun mem =>
      if (info task).finished loop then
        (.propagate task imageCounter, mem.record t (.chunkDone task :: c.onChunk task))
      else
        let (loop, img) := (info task).bodyStep c.ptrMarker loop (mem.pixels (c.dataImg task))
        (.stamp task loop imageCounter, mem.write (c.dataImg task) img)]
  | .propagate task imageCounter =>
    [.push (.gatherQueue mapID) (c.number task imageCounter, c.image task)
      (.pop (imageCounter + 1))]
  | .propagateEos task => [.push (.gatherQueue mapID) (0, c.image task) .finish]
  | .finish => [.work fun mem => (.returned, mem.record t c.onReturn)]
  | .returned => []

/-! ## What a worker has received, sent and done -/

def results (c : WorkerCode J) (tasks : List J) : List Result :=
  tasks.mapIdx fun imageCounter task => (c.number task imageCounter, c.image task)

def chunkEvents (c : WorkerCode J) (tasks : List J) : List (Event J) :=
  tasks.flatMap fun task => .chunkDone task :: c.onChunk task

@[simp] theorem results_snoc (c : WorkerCode J) (tasks : List J) (task : J) :
    c.results (tasks ++ [task]) =
      c.results tasks ++ [(c.number task tasks.length, c.image task)] := by
  simp [results, List.mapIdx_append]

@[simp] theorem length_results (c : WorkerCode J) (tasks : List J) :
    (c.results tasks).length = tasks.length := by
  simp [results]

@[simp] theorem chunkEvents_snoc (c : WorkerCode J) (tasks : List J) (task : J) :
    c.chunkEvents (tasks ++ [task]) =
      c.chunkEvents tasks ++ (.chunkDone task :: c.onChunk task) := by
  simp [chunkEvents]

def Makes (c : WorkerCode J) (e : Event J) : Prop :=
  ∃ task, e = .chunkDone task ∨ e ∈ c.onChunk task ∨ e ∈ c.onReturn

theorem Makes.hidden {α : Type} {c : WorkerCode J} {e : Event J} (h : c.Makes e)
    {f : Event J → Option α} (hdone : ∀ task, f (.chunkDone task) = none)
    (hchunk : ∀ task, ∀ e ∈ c.onChunk task, f e = none) (hreturn : ∀ e ∈ c.onReturn, f e = none) :
    f e = none := by
  rcases h with ⟨task, rfl | he | he⟩
  · exact hdone task
  · exact hchunk task e he
  · exact hreturn e he

def Proper (c : WorkerCode J) (tasks : List J) : Prop := ∀ task ∈ tasks, c.eof task = false

/-- A worker's place in its code tells what it has received, sent and done. -/
inductive HasAnswered (c : WorkerCode J) :
    WorkerState J → List J → List Result → List (Event J) → Prop
  | pop {tasks} (h : c.Proper tasks) :
      HasAnswered c (.pop tasks.length) tasks (c.results tasks) (c.chunkEvents tasks)
  | stamp {tasks task} (loop) (h : c.Proper (tasks ++ [task])) :
      HasAnswered c (.stamp task loop tasks.length) (tasks ++ [task]) (c.results tasks)
        (c.chunkEvents tasks)
  | propagate {tasks task} (h : c.Proper (tasks ++ [task])) :
      HasAnswered c (.propagate task tasks.length) (tasks ++ [task]) (c.results tasks)
        (c.chunkEvents (tasks ++ [task]))
  | propagateEos {tasks task} (h : c.Proper tasks) (heof : c.eof task = true) :
      HasAnswered c (.propagateEos task) (tasks ++ [task]) (c.results tasks) (c.chunkEvents tasks)
  | finish {tasks task} (h : c.Proper tasks) (heof : c.eof task = true) :
      HasAnswered c .finish (tasks ++ [task]) (c.results tasks ++ [(0, c.image task)])
        (c.chunkEvents tasks)
  | returned {tasks task} (h : c.Proper tasks) (heof : c.eof task = true) :
      HasAnswered c .returned (tasks ++ [task]) (c.results tasks ++ [(0, c.image task)])
        (c.chunkEvents tasks ++ c.onReturn)

theorem Proper.snoc {c : WorkerCode J} {tasks : List J} {task : J} (h : c.Proper tasks)
    (ht : c.eof task = false) : c.Proper (tasks ++ [task]) := by
  intro job hjob
  rcases List.mem_append.mp hjob with hjob | hjob
  · exact h job hjob
  · rw [List.mem_singleton.mp hjob]
    exact ht

theorem HasAnswered.start (c : WorkerCode J) : c.HasAnswered (.pop 0) [] [] [] :=
  @pop J c [] fun _ h => absurd h List.not_mem_nil

theorem makes_chunkEvents {c : WorkerCode J} {tasks : List J} {e : Event J}
    (h : e ∈ c.chunkEvents tasks) : c.Makes e := by
  rcases List.mem_flatMap.mp h with ⟨task, -, he⟩
  rcases List.mem_cons.mp he with he | he
  · exact ⟨task, Or.inl he⟩
  · exact ⟨task, Or.inr (Or.inl he)⟩

theorem HasAnswered.makes {c : WorkerCode J} {x : WorkerState J} {got : List J} {sent : List Result}
    {events : List (Event J)} (h : c.HasAnswered x got sent events) {e : Event J}
    (he : e ∈ events) : c.Makes e := by
  cases h with
  | pop | stamp | propagate | propagateEos | finish => exact makes_chunkEvents he
  | @returned _ task =>
    rcases List.mem_append.mp he with he | he
    · exact makes_chunkEvents he
    · exact ⟨task, Or.inr (Or.inr he)⟩

theorem results_mono (c : WorkerCode J) {got tasks : List J} (h : got <+: tasks) :
    c.results got <+: c.results tasks := by
  obtain ⟨rest, rfl⟩ := h
  exact ⟨_, (List.mapIdx_append).symm⟩

theorem getElem?_results (c : WorkerCode J) {tasks : List J} {k : ℕ} (hk : k < tasks.length) :
    (c.results tasks)[k]? = some (c.number tasks[k] k, c.image tasks[k]) := by
  simp [results, hk]

theorem mem_chunkEvents (c : WorkerCode J) {tasks : List J} {task : J} (h : task ∈ tasks) :
    .chunkDone task ∈ c.chunkEvents tasks :=
  List.mem_flatMap.mpr ⟨task, h, List.mem_cons_self⟩

/-- The tasks a worker is done with: their results are sent, perhaps together
with the end of the stream. -/
theorem HasAnswered.exists_done {c : WorkerCode J} {got : List J} {x : WorkerState J}
    {sent : List Result} {events : List (Event J)} (h : c.HasAnswered x got sent events) :
    ∃ done, c.Proper done ∧ c.chunkEvents done <+: events ∧
      (done <+: got ∧ sent = c.results done ∨
        ∃ task, c.eof task = true ∧ got = done ++ [task] ∧
          sent = c.results done ++ [(0, c.image task)]) := by
  cases h with
  | pop h => exact ⟨got, h, List.prefix_rfl, Or.inl ⟨List.prefix_rfl, rfl⟩⟩
  | @stamp done task loop h =>
    have hdone : c.Proper done := fun job hjob => h job (List.mem_append_left _ hjob)
    exact ⟨done, hdone, List.prefix_rfl, Or.inl ⟨List.prefix_append _ _, rfl⟩⟩
  | @propagate done task h =>
    have hdone : c.Proper done := fun job hjob => h job (List.mem_append_left _ hjob)
    rw [chunkEvents_snoc]
    exact ⟨done, hdone, List.prefix_append _ _, Or.inl ⟨List.prefix_append _ _, rfl⟩⟩
  | @propagateEos done task h heof =>
    exact ⟨done, h, List.prefix_rfl, Or.inl ⟨List.prefix_append _ _, rfl⟩⟩
  | @finish done task h heof =>
    exact ⟨done, h, List.prefix_rfl, Or.inr ⟨task, heof, rfl, rfl⟩⟩
  | @returned done task h heof =>
    exact ⟨done, h, List.prefix_append _ _, Or.inr ⟨task, heof, rfl, rfl⟩⟩

section Step
variable {c : WorkerCode J} {info : J → ChunkInfo} {t : T}
  {index : ℕ} {mapID : κ} {x : WorkerState J} {events : List (Event J)}
  {ins outs : (q : Chan κ) → List (q.Msg J)}

theorem HasAnswered.pop_step [DecidableEq κ] {q : Chan κ} {next : q.Msg J → WorkerState J}
    {m : q.Msg J}
    (ha : .pop q next ∈ c.actions info t index mapID x)
    (h : c.HasAnswered x (ins (.workerQueue index)) (outs (.gatherQueue mapID)) events) :
    c.HasAnswered (next m) (Function.update ins q (ins q ++ [m]) (.workerQueue index))
      (outs (.gatherQueue mapID)) events := by
  cases x with
  | pop imageCounter =>
    cases List.mem_singleton.mp ha
    rw [Function.update_self]
    generalize ins (.workerQueue index) = tasks at h ⊢
    generalize outs (.gatherQueue mapID) = sent at h ⊢
    cases h with
    | pop h =>
      by_cases heof : c.eof m = true
      · rw [receive, if_pos heof]
        exact .propagateEos h heof
      · rw [receive, if_neg heof]
        exact .stamp _ (h.snoc (Bool.not_eq_true _ ▸ heof))
  | stamp | propagate | propagateEos | finish | returned => simp [actions] at ha

theorem HasAnswered.push_step [DecidableEq κ] {q : Chan κ} {next : WorkerState J} {m : q.Msg J}
    (ha : .push q m next ∈ c.actions info t index mapID x)
    (h : c.HasAnswered x (ins (.workerQueue index)) (outs (.gatherQueue mapID)) events) :
    c.HasAnswered next (ins (.workerQueue index))
      (Function.update outs q (outs q ++ [m]) (.gatherQueue mapID)) events := by
  cases x with
  | propagate task imageCounter =>
    cases List.mem_singleton.mp ha
    rw [Function.update_self]
    generalize ins (.workerQueue index) = tasks at h ⊢
    generalize outs (.gatherQueue mapID) = sent at h ⊢
    cases h with
    | @propagate tasks _ h =>
      rw [← results_snoc]
      have hlen : tasks.length + 1 = (tasks ++ [task]).length := by simp
      rw [hlen]
      exact .pop h
  | propagateEos task =>
    cases List.mem_singleton.mp ha
    rw [Function.update_self]
    generalize ins (.workerQueue index) = tasks at h ⊢
    generalize outs (.gatherQueue mapID) = sent at h ⊢
    cases h with
    | propagateEos h heof => exact .finish h heof
  | pop | stamp | finish | returned => simp [actions] at ha

theorem HasAnswered.work_step [DecidableEq T] {mem : Memory T J}
    {f : Memory T J → WorkerState J × Memory T J}
    (ha : .work f ∈ c.actions info t index mapID x) {got : List J} {sent : List Result}
    (h : c.HasAnswered x got sent (mem.eventsOf t)) :
    c.HasAnswered (f mem).1 got sent ((f mem).2.eventsOf t) := by
  cases x with
  | stamp task loop imageCounter =>
    cases List.mem_singleton.mp ha
    generalize hev : mem.eventsOf t = events at h
    cases h with
    | stamp loop h =>
      by_cases hend : (info task).finished loop = true
      · simp only [hend, if_true, Memory.eventsOf_record_self, hev]
        rw [← chunkEvents_snoc]
        exact .propagate h
      · simp only [hend, Bool.false_eq_true, if_false, Memory.eventsOf_write, hev]
        exact .stamp _ h
  | finish =>
    cases List.mem_singleton.mp ha
    generalize hev : mem.eventsOf t = events at h
    cases h with
    | finish h heof =>
      simp only [Memory.eventsOf_record_self, hev]
      exact .returned h heof
  | pop | propagate | propagateEos | returned => simp [actions] at ha

theorem work_frame [DecidableEq T] {u : T} {mem : Memory T J}
    {f : Memory T J → WorkerState J × Memory T J}
    (ha : .work f ∈ c.actions info t index mapID x) (h : t ≠ u) :
    (f mem).2.eventsOf u = mem.eventsOf u := by
  cases x with
  | stamp task loop imageCounter =>
    cases List.mem_singleton.mp ha
    by_cases hend : (info task).finished loop = true
    · simp only [hend, if_true, Memory.eventsOf_record_ne _ _ _ h]
    · simp only [hend, Bool.false_eq_true, if_false, Memory.eventsOf_write]
  | finish =>
    cases List.mem_singleton.mp ha
    exact Memory.eventsOf_record_ne _ _ _ h
  | pop | propagate | propagateEos | returned => simp [actions] at ha

theorem work_events {mem : Memory T J} {f : Memory T J → WorkerState J × Memory T J}
    (ha : .work f ∈ c.actions info t index mapID x) :
    ∃ es : List (Event J), (f mem).2.events = mem.events ++ es.map fun e => (t, e) := by
  cases x with
  | stamp task loop imageCounter =>
    cases List.mem_singleton.mp ha
    by_cases hend : (info task).finished loop = true
    · simp only [hend, if_true]
      exact ⟨_, rfl⟩
    · simp only [hend, Bool.false_eq_true, if_false]
      exact ⟨[], (List.append_nil _).symm⟩
  | finish =>
    cases List.mem_singleton.mp ha
    exact ⟨_, rfl⟩
  | pop | propagate | propagateEos | returned => simp [actions] at ha

theorem pop_queue {q : Chan κ} {next : q.Msg J → WorkerState J}
    (ha : .pop q next ∈ c.actions info t index mapID x) : q = .workerQueue index := by
  cases x with
  | pop imageCounter =>
    cases List.mem_singleton.mp ha
    rfl
  | stamp | propagate | propagateEos | finish | returned => simp [actions] at ha

theorem push_queue {q : Chan κ} {next : WorkerState J} {m : q.Msg J}
    (ha : .push q m next ∈ c.actions info t index mapID x) : q = .gatherQueue mapID := by
  cases x with
  | propagate | propagateEos =>
    cases List.mem_singleton.mp ha
    rfl
  | pop | stamp | finish | returned => simp [actions] at ha

theorem waits {empty : Chan κ → Prop}
    (h : ∀ a ∈ c.actions info t index mapID x, ∃ q next, a = .pop q next ∧ empty q) :
    x = .returned ∨ ∃ imageCounter, x = .pop imageCounter ∧ empty (.workerQueue index) := by
  cases x with
  | pop imageCounter =>
    obtain ⟨q, next, he, hq⟩ := h _ (List.mem_singleton_self _)
    cases he
    exact Or.inr ⟨imageCounter, rfl, hq⟩
  | stamp | propagate | propagateEos | finish =>
    obtain ⟨q, next, he, hq⟩ := h _ (List.mem_singleton_self _)
    cases he
  | returned => exact Or.inl rfl

/-! ## A worker comes to an end -/

def rank (info : J → ChunkInfo) : WorkerState J → ℕ
  | .pop _ => 0
  | .stamp task loop _ => (info task).loopRank loop + 4
  | .propagate _ _ => 3
  | .propagateEos _ => 4
  | .finish => 1
  | .returned => 0

/-- What a message is worth to its reader, given a bound for the tasks. -/
def weight (taskWeight : J → ℕ) : (q : Chan κ) → q.Msg J → ℕ
  | .workerQueue _ => taskWeight
  | .gatherQueue _ => fun _ => 2

theorem rank_pop {taskWeight : J → ℕ}
    (hw : ∀ task, (info task).loopRank .start + 5 ≤ taskWeight task)
    {q : Chan κ} {next : q.Msg J → WorkerState J} {m : q.Msg J}
    (ha : .pop q next ∈ c.actions info t index mapID x) :
    rank info (next m) < rank info x + weight taskWeight q m := by
  cases x with
  | pop imageCounter =>
    cases List.mem_singleton.mp ha
    have hm := hw m
    simp only [receive, weight]
    split_ifs <;> simp only [rank] <;> omega
  | stamp | propagate | propagateEos | finish | returned => simp [actions] at ha

theorem rank_push (taskWeight : J → ℕ) {q : Chan κ} {next : WorkerState J} {m : q.Msg J}
    (ha : .push q m next ∈ c.actions info t index mapID x) :
    rank info next + weight taskWeight q m < rank info x := by
  cases x with
  | propagate | propagateEos =>
    cases List.mem_singleton.mp ha
    simp [rank, weight]
  | pop | stamp | finish | returned => simp [actions] at ha

theorem rank_work {mem : Memory T J} {f : Memory T J → WorkerState J × Memory T J}
    (ha : .work f ∈ c.actions info t index mapID x) : rank info (f mem).1 < rank info x := by
  cases x with
  | stamp task loop imageCounter =>
    cases List.mem_singleton.mp ha
    by_cases hend : (info task).finished loop = true
    · simp only [hend, if_true, rank]
      omega
    · have hlt := (info task).loopRank_bodyStep c.ptrMarker (mem.pixels (c.dataImg task))
        (Bool.not_eq_true _ ▸ hend)
      simp only [hend, Bool.false_eq_true, if_false, rank]
      omega
  | finish =>
    cases List.mem_singleton.mp ha
    simp [rank]
  | pop | propagate | propagateEos | returned => simp [actions] at ha

end Step

end WorkerCode

end WaterMark.Maps
