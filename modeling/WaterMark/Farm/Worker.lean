import Mathlib.Data.Fintype.Sum
import Mathlib.Tactic.DeriveFintype
import WaterMark.Maps.Sender
import WaterMark.Pixels.WholePicture

/-! # The farm

`emitter` pushes one task record for each image on a queue that all workers
share, and then one null for each worker. A worker stamps the whole picture of
its record, saves it, deletes the record and pops again, until it gets a null.
-/

namespace WaterMark.Farm
open ChannelNetwork TaggedLog Pixels Maps

/-- A task record with the number of its allocation. No field changes after
`new`, so a pointer to a record carries the fields along. -/
structure Task where
  record : ℕ
  ptrImage : Ptr
  image : Ptr
  index : ℤ
deriving DecidableEq

/-- The message of the queue: a record, or null. -/
abbrev Msg := Option Task

variable (st : ImageStream) (nw : ℕ)

/-- `new task{imgVector[j],imgDataVector[j],j}`. -/
def taskOf (j : ℕ) : Task := ⟨j, st.img j, st.pix j, j⟩

def emitter : List (ℕ × Msg) :=
  ((List.range st.size).map fun j => (0, some (taskOf st j))) ++
    (List.range nw).map fun _ => (0, none)

inductive Thread (nw : ℕ) where
  | emitter
  | worker (i : Fin nw)
deriving DecidableEq, Fintype

/-- Where `worker` stands, with its local variables. -/
inductive WorkerState where
  | pop
  | stamp (imageInfo : Task) (loop : LoopState)
  | save (imageInfo : Task)
  | release (imageInfo : Task)
  | deleteMark
  | returned

@[reducible] def Loc : Thread nw → Type
  | .emitter => ℕ
  | .worker _ => WorkerState

/-- The loop over the whole picture, as the loop of a chunk of one row. -/
def wholePicture (pixNmb : ℤ) : ChunkInfo := ⟨pixNmb, 1, pixNmb, 0⟩

def savePath (index : ℤ) : String := "markedImageFarm/img_" ++ toString index ++ ".jpg"

variable {nw}

def saveEvent (imageInfo : Task) (picture : Buffer) : Event Task :=
  .save imageInfo.index (savePath imageInfo.index) imageInfo.ptrImage picture

def receive : Msg → WorkerState
  | some imageInfo => .stamp imageInfo .start
  | none => .deleteMark

def workerActions (markImg : Mark) (t : Thread nw) :
    WorkerState → List (Action (@Chan.Msg Empty Msg) WorkerState (Memory (Thread nw) Task))
  | .pop => [.pop (.workerQueue 0) receive]
  | .stamp imageInfo loop =>
    [.work fun mem =>
      let pixNmb := wholePicture (markImg.size / 3 : ℕ)
      if pixNmb.finished loop then (.save imageInfo, mem.record t [.chunkDone imageInfo])
      else
        let (loop, img) := pixNmb.bodyStep markImg.data loop (mem.pixels imageInfo.image)
        (.stamp imageInfo loop, mem.write imageInfo.image img)]
  | .save imageInfo =>
    [.work fun mem => (.release imageInfo,
      mem.record t [saveEvent imageInfo (mem.pixels (st.data imageInfo.ptrImage))])]
  | .release imageInfo =>
    [.work fun mem => (.pop, mem.record t [.deleteTask imageInfo.record])]
  | .deleteMark => [.work fun mem => (.returned, mem.record t [.deleteMark])]
  | .returned => []

def program (markImg : Mark) (nw : ℕ) :
    Program (Thread nw) (@Chan.Msg Empty Msg) (Loc nw) (Memory (Thread nw) Task) where
  start
    | .emitter => (0 : ℕ)
    | .worker _ => WorkerState.pop
  actions
    | .emitter => scatterActions (emitter st nw)
    | .worker i => workerActions st markImg (.worker i)

/-! ## What a worker has taken and done -/

inductive Handled : List Task → List (Event Task) → Prop
  | nil : Handled [] []
  | snoc {tasks events} (h : Handled tasks events) (task : Task) (picture : Buffer) :
      Handled (tasks ++ [task])
        (events ++ [.chunkDone task, saveEvent task picture, .deleteTask task.record])

/-- A worker's place in its code tells what it has taken and done. -/
inductive HasTaken : WorkerState → List Msg → List (Event Task) → Prop
  | pop {tasks events} (h : Handled tasks events) : HasTaken .pop (tasks.map some) events
  | stamp {tasks events} (h : Handled tasks events) (task loop) :
      HasTaken (.stamp task loop) (tasks.map some ++ [some task]) events
  | save {tasks events} (h : Handled tasks events) (task) :
      HasTaken (.save task) (tasks.map some ++ [some task]) (events ++ [.chunkDone task])
  | release {tasks events} (h : Handled tasks events) (task picture) :
      HasTaken (.release task) (tasks.map some ++ [some task])
        (events ++ [.chunkDone task, saveEvent task picture])
  | deleteMark {tasks events} (h : Handled tasks events) :
      HasTaken .deleteMark (tasks.map some ++ [none]) events
  | returned {tasks events} (h : Handled tasks events) :
      HasTaken .returned (tasks.map some ++ [none]) (events ++ [.deleteMark])

section Step
variable {st} {markImg : Mark} {t : Thread nw} {x : WorkerState} {events : List (Event Task)}
  {ins : (q : Chan Empty) → List (q.Msg Msg)}

theorem HasTaken.pop_step {q : Chan Empty} {next : q.Msg Msg → WorkerState} {m : q.Msg Msg}
    (ha : .pop q next ∈ workerActions st markImg t x)
    (h : HasTaken x (ins (.workerQueue 0)) events) :
    HasTaken (next m) (Function.update ins q (ins q ++ [m]) (.workerQueue 0)) events := by
  cases x with
  | pop =>
    cases List.mem_singleton.mp ha
    rw [Function.update_self]
    generalize ins (.workerQueue 0) = got at h ⊢
    cases h with
    | pop h =>
      cases m with
      | some task => exact .stamp h task .start
      | none => exact .deleteMark h
  | stamp | save | release | deleteMark | returned => simp [workerActions] at ha

theorem push_none {q : Chan Empty} {next : WorkerState} {m : q.Msg Msg} :
    .push q m next ∉ workerActions st markImg t x := by
  cases x <;> simp [workerActions]

theorem HasTaken.work_step {mem : Memory (Thread nw) Task}
    {f : Memory (Thread nw) Task → WorkerState × Memory (Thread nw) Task}
    (ha : .work f ∈ workerActions st markImg t x) {got : List Msg}
    (h : HasTaken x got (mem.eventsOf t)) : HasTaken (f mem).1 got ((f mem).2.eventsOf t) := by
  generalize hev : mem.eventsOf t = events at h
  cases x with
  | stamp task loop =>
    cases List.mem_singleton.mp ha
    cases h with
    | stamp h =>
      by_cases hend : (wholePicture (markImg.size / 3 : ℕ)).finished loop = true
      · simp only [hend, if_true, Memory.eventsOf_record_self, hev]
        exact .save h task
      · simp only [hend, Bool.false_eq_true, if_false, Memory.eventsOf_write, hev]
        exact .stamp h task _
  | save task =>
    cases List.mem_singleton.mp ha
    cases h with
    | save h =>
      simp only [Memory.eventsOf_record_self, hev, List.append_assoc]
      exact .release h task _
  | release task =>
    cases List.mem_singleton.mp ha
    cases h with
    | @release tasks _ h _ picture =>
      have hsnoc := HasTaken.pop (h.snoc task picture)
      rw [List.map_append] at hsnoc
      simp only [Memory.eventsOf_record_self, hev, List.append_assoc]
      exact hsnoc
  | deleteMark =>
    cases List.mem_singleton.mp ha
    cases h with
    | deleteMark h =>
      simp only [Memory.eventsOf_record_self, hev]
      exact .returned h
  | pop | returned => simp [workerActions] at ha

theorem work_frame {u : Thread nw} {mem : Memory (Thread nw) Task}
    {f : Memory (Thread nw) Task → WorkerState × Memory (Thread nw) Task}
    (ha : .work f ∈ workerActions st markImg t x) (h : t ≠ u) :
    (f mem).2.eventsOf u = mem.eventsOf u := by
  cases x with
  | stamp task loop =>
    cases List.mem_singleton.mp ha
    by_cases hend : (wholePicture (markImg.size / 3 : ℕ)).finished loop = true
    · simp only [hend, if_true, Memory.eventsOf_record_ne _ _ _ h]
    · simp only [hend, Bool.false_eq_true, if_false, Memory.eventsOf_write]
  | save | release | deleteMark =>
    cases List.mem_singleton.mp ha
    exact Memory.eventsOf_record_ne _ _ _ h
  | pop | returned => simp [workerActions] at ha

theorem waits {empty : Chan Empty → Prop}
    (h : ∀ a ∈ workerActions st markImg t x, ∃ q next, a = .pop q next ∧ empty q) :
    x = .returned ∨ x = .pop ∧ empty (.workerQueue 0) := by
  cases x with
  | pop =>
    rcases h _ (List.mem_singleton_self _) with ⟨q, next, he, hq⟩
    cases he
    exact Or.inr ⟨rfl, hq⟩
  | stamp | save | release | deleteMark =>
    rcases h _ (List.mem_singleton_self _) with ⟨q, next, he, hq⟩
    cases he
  | returned => exact Or.inl rfl

/-! ## A worker comes to an end -/

def rank (markImg : Mark) : WorkerState → ℕ
  | .pop => 0
  | .stamp _ loop => (wholePicture (markImg.size / 3 : ℕ)).loopRank loop + 3
  | .save _ => 2
  | .release _ => 1
  | .deleteMark => 1
  | .returned => 0

def msgWeight (markImg : Mark) (_ : Msg) : ℕ :=
  (wholePicture (markImg.size / 3 : ℕ)).loopRank .start + 4

theorem rank_pop {q : Chan Empty} {next : q.Msg Msg → WorkerState} {m : q.Msg Msg}
    (ha : .pop q next ∈ workerActions st markImg t x) : q = .workerQueue 0 ∧
      rank markImg (next m) < rank markImg x + WorkerCode.weight (msgWeight markImg) q m := by
  cases x with
  | pop =>
    cases List.mem_singleton.mp ha
    apply And.intro rfl
    cases m <;> simp only [receive, rank, WorkerCode.weight, msgWeight] <;> omega
  | stamp | save | release | deleteMark | returned => simp [workerActions] at ha

theorem rank_work {mem : Memory (Thread nw) Task}
    {f : Memory (Thread nw) Task → WorkerState × Memory (Thread nw) Task}
    (ha : .work f ∈ workerActions st markImg t x) :
    rank markImg (f mem).1 < rank markImg x := by
  cases x with
  | stamp task loop =>
    cases List.mem_singleton.mp ha
    by_cases hend : (wholePicture (markImg.size / 3 : ℕ)).finished loop = true
    · simp only [hend, if_true, rank]
      omega
    · have hlt := (wholePicture (markImg.size / 3 : ℕ)).loopRank_bodyStep markImg.data
        (mem.pixels task.image) (Bool.not_eq_true _ ▸ hend)
      simp only [hend, Bool.false_eq_true, if_false, rank]
      omega
  | save | release | deleteMark =>
    cases List.mem_singleton.mp ha
    simp [rank]
  | pop | returned => simp [workerActions] at ha

end Step

/-! ## One event of each kind for each task -/

/-- A projection of the events that picks one event of each task. -/
structure Picks {α : Type} (f : Event Task → Option α) (g : Task → α) : Prop where
  task : ∀ task picture,
    [.chunkDone task, saveEvent task picture, .deleteTask task.record].filterMap f = [g task]
  mark : f .deleteMark = none

section Picks
variable {α : Type} {f : Event Task → Option α} {g : Task → α}

theorem Handled.picked (hf : Picks f g) {tasks : List Task} {events : List (Event Task)}
    (h : Handled tasks events) : events.filterMap f = tasks.map g := by
  induction h with
  | nil => rfl
  | snoc _ task picture ih => rw [List.filterMap_append, ih, hf.task, List.map_append]; rfl

theorem HasTaken.picked_le (hf : Picks f g) {x : WorkerState} {got : List Msg}
    {events : List (Event Task)} (h : HasTaken x got events) :
    events.filterMap f <+: got.filterMap (Option.map g) := by
  have htask (tasks : List Task) (task : Task) :
      (tasks.map some ++ [some task]).filterMap (Option.map g) = tasks.map g ++ [g task] := by
    simp
  have hpart {part : List (Event Task)} (task : Task) (picture : Buffer)
      (hp : part <+: [.chunkDone task, saveEvent task picture, .deleteTask task.record]) :
      part.filterMap f <+: [g task] := hf.task task picture ▸ hp.filterMap f
  cases h with
  | pop h =>
    rw [h.picked hf]
    simp
  | stamp h task loop =>
    rw [h.picked hf, htask]
    exact List.prefix_append _ _
  | save h task =>
    rw [List.filterMap_append, h.picked hf, htask]
    exact (List.prefix_append_right_inj _).mpr (hpart task [] ⟨_, rfl⟩)
  | release h task picture =>
    rw [List.filterMap_append, h.picked hf, htask]
    exact (List.prefix_append_right_inj _).mpr (hpart task picture ⟨_, rfl⟩)
  | deleteMark h =>
    rw [h.picked hf]
    simp
  | returned h =>
    rw [List.filterMap_append, h.picked hf]
    simp [hf.mark]

theorem HasTaken.picked_returned (hf : Picks f g) {got : List Msg} {events : List (Event Task)}
    (h : HasTaken .returned got events) : events.filterMap f = got.filterMap (Option.map g) := by
  cases h with
  | returned h =>
    rw [List.filterMap_append, h.picked hf]
    simp [hf.mark]

end Picks

theorem picks_stamped : Picks Event.stamped id := ⟨fun _ _ => rfl, rfl⟩

theorem picks_saved : Picks Event.saved fun task => (savePath task.index, task.ptrImage) :=
  ⟨fun _ _ => rfl, rfl⟩

theorem picks_released : Picks Event.released Task.record := ⟨fun _ _ => rfl, rfl⟩

end WaterMark.Farm
