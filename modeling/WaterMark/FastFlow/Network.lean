import Mathlib.Data.Fintype.Sum
import Mathlib.Tactic.DeriveFintype
import WaterMark.FastFlow.Collector
import WaterMark.Maps.Sender

/-! # A FastFlow farm

The emitter sends tasks one after the other, each to one of the workers that the
scheduling allows. Every worker returns one result for each task, in order, and
the collector takes the results of the workers in any order. FastFlow's own end
of stream is left out: a thread that has nothing more to do waits.
-/

namespace WaterMark.FastFlow
open ChannelNetwork TaggedLog Pixels Maps Gather

variable {J : Type} {nw : ℕ}

inductive Thread (nw : ℕ) where
  | emitter
  | worker (i : Fin nw)
  | collector
deriving DecidableEq, Fintype

/-- The local states: the emitter counts its sends. -/
@[reducible] def Loc (J : Type) : Thread nw → Type
  | .emitter => ℕ
  | .worker _ => WorkerState J
  | .collector => CollectorState

/-- The code of a version: what the emitter sends, the workers that send number
`t` may go to, and the nodes. -/
structure Code (J : Type) (nw : ℕ) where
  sends : List J
  targets : ℕ → List ℕ
  info : J → Fin nw → ChunkInfo
  worker : WorkerCode J
  gather : GatherMap

def choices (sends : List J) (targets : ℕ → List ℕ) (n : ℕ) : List (ℕ × J) :=
  match sends[n]? with
  | some task => (targets n).map fun index => (index, task)
  | none => []

/-- `ff_send_out` of the next task. -/
def emitterActions {κ μ : Type} (sends : List J) (targets : ℕ → List ℕ) (n : ℕ) :
    List (Action (@Chan.Msg κ J) ℕ μ) :=
  sendActions (choices sends targets n) (n + 1)

def Code.program (P : Code J nw) :
    Program (Thread nw) (@Chan.Msg (Fin nw) J) (Loc J) (Memory (Thread nw) J) where
  start
    | .emitter => (0 : ℕ)
    | .worker _ => WorkerState.pop 0
    | .collector => CollectorState.pop fun _ => 0
  actions
    | .emitter => emitterActions P.sends P.targets
    | .worker i => P.worker.actions (fun task => P.info task i) (.worker i) i i
    | .collector => P.gather.actions nw .collector

abbrev FarmState (J : Type) (nw : ℕ) :=
  State (Thread nw) (@Chan.Msg (Fin nw) J) (Loc J) (Memory (Thread nw) J)

/-- What is relied on: every task can be sent, and to a worker that exists, and
no task is null. -/
structure Code.Delivers (P : Code J nw) : Prop where
  targets_ne : ∀ t, P.targets t ≠ []
  targets_lt : ∀ t, ∀ index ∈ P.targets t, index < nw
  eof : ∀ task, P.worker.eof task = false

def Sent (sends : List J) (targets : ℕ → List ℕ) (n : ℕ) (sent : List (ℕ × J)) : Prop :=
  sent.map Prod.snd = sends.take n ∧ ∀ k e, sent[k]? = some e → e.1 ∈ targets k

section Emitter
variable {κ μ : Type} {sends : List J} {targets : ℕ → List ℕ} {n : ℕ}

theorem mem_choices {e : ℕ × J} (he : e ∈ choices sends targets n) :
    e.1 ∈ targets n ∧ sends[n]? = some e.2 := by
  unfold choices at he
  split at he
  · rename_i task hn
    rcases List.mem_map.mp he with ⟨index, hindex, rfl⟩
    exact ⟨hindex, hn⟩
  · cases he

theorem sent_of_sends {sent : List (ℕ × J)} (h : Sends (choices sends targets) n sent) :
    Sent sends targets n sent := by
  constructor
  · apply List.ext_getElem?
    intro k
    rw [List.getElem?_map]
    cases hk : sent[k]? with
    | none =>
      have hn : n ≤ k := h.length ▸ List.getElem?_eq_none_iff.mp hk
      exact (List.getElem?_take_eq_none hn).symm
    | some e =>
      have hn : k < n := h.length ▸ (List.getElem?_eq_some_iff.mp hk).1
      rw [List.getElem?_take_of_lt hn, (mem_choices (h.chosen k e hk)).2]
      rfl
  · intro k e hk
    exact (mem_choices (h.chosen k e hk)).1

theorem emitter_push {q : Chan κ} {m : q.Msg J} {next : ℕ}
    (ha : .push q m next ∈ @emitterActions J κ μ sends targets n) :
    ∃ index ∈ targets n, ∃ task, sends[n]? = some task ∧
      (⟨q, m⟩ : (q : Chan κ) × q.Msg J) = ⟨.workerQueue index, task⟩ := by
  rcases send_push ha with ⟨e, he, -, hpush⟩
  rcases mem_choices he with ⟨hindex, htask⟩
  exact ⟨e.1, hindex, e.2, htask, hpush⟩

theorem emitter_waits {empty : Chan κ → Prop} (hne : ∀ t, targets t ≠ [])
    (h : ∀ a ∈ @emitterActions J κ μ sends targets n, ∃ q next, a = .pop q next ∧ empty q) :
    sends.length ≤ n := by
  have hnone := send_waits h
  unfold choices at hnone
  split at hnone
  · exact absurd (List.map_eq_nil_iff.mp hnone) (hne n)
  · rename_i hn
    exact List.getElem?_eq_none_iff.mp hn

end Emitter

/-! ## What every thread has received, sent and done -/

namespace Code
variable {P : Code J nw}

def PlaceTells (P : Code J nw) : (t : Thread nw) → Loc J t →
    ((q : Chan (Fin nw)) → List (q.Msg J)) → ((q : Chan (Fin nw)) → List (q.Msg J)) →
    List (Event J) → Prop
  | .emitter => fun n _ outs events =>
    SendsTo (choices P.sends P.targets) n outs ∧ events = []
  | .worker i => fun x ins outs events =>
    P.worker.HasAnswered x (ins (.workerQueue i)) (outs (.gatherQueue i)) events
  | .collector => fun x ins _ events => P.gather.HasMerged x (fun i => ins (.gatherQueue i)) events

theorem localInvariant (P : Code J nw) :
    LocalInvariant P.program Memory.eventsOf P.PlaceTells where
  pop t x ins outs v q next m ha h := by
    cases t with
    | emitter => exact absurd ha send_pop_none
    | worker i => exact WorkerCode.HasAnswered.pop_step ha h
    | collector => exact GatherMap.HasMerged.pop_step ha h
  push t x ins outs v q m next ha h := by
    cases t with
    | emitter => exact ⟨h.1.push_step ha, h.2⟩
    | worker i => exact WorkerCode.HasAnswered.push_step ha h
    | collector => exact absurd ha GatherMap.push_none
  work t x ins outs mem f ha h := by
    cases t with
    | emitter => exact absurd ha send_work_none
    | worker i => exact WorkerCode.HasAnswered.work_step ha h
    | collector =>
      rcases h with ⟨log, hlog, hplace⟩
      exact ⟨log, hlog, hplace.work_step ha⟩
  frame t u x mem f hne ha := by
    cases u with
    | emitter => exact absurd ha send_work_none
    | worker i => exact WorkerCode.work_frame ha hne
    | collector => exact GatherMap.work_frame ha hne

section Run
variable {pixels : Ptr → Buffer} {s : FarmState J nw}

theorem placeTells (h : P.program.Reachable ⟨pixels, []⟩ s) (t : Thread nw) :
    P.PlaceTells t (s.loc t) (s.ins t) (s.outs t) (s.mem.eventsOf t) := by
  refine P.localInvariant.reachable (fun t => ?_) h t
  cases t with
  | emitter => exact ⟨.start _, rfl⟩
  | worker i => exact .start _
  | collector => exact ⟨[], fun i => rfl, .pop .nil⟩

/-! ## Who reads and writes which queue -/

theorem outs_emitter (h : P.program.Reachable ⟨pixels, []⟩ s) (index : ℕ) :
    s.outs .emitter (.workerQueue index) = (s.pushed (.workerQueue index)).map Prod.snd := by
  apply entries_eq_map
  apply h.pushed_by (S := {.emitter})
  intro t x m next ha
  cases t with
  | emitter => rfl
  | worker i => cases WorkerCode.push_queue ha
  | collector => exact absurd ha GatherMap.push_none

theorem ins_worker (h : P.program.Reachable ⟨pixels, []⟩ s) (i : Fin nw) :
    s.ins (.worker i) (.workerQueue i) = (s.popped (.workerQueue i)).map Prod.snd := by
  apply entries_eq_map
  apply h.popped_by (S := {.worker i})
  intro t x next ha
  cases t with
  | emitter => exact absurd ha send_pop_none
  | worker i' =>
    rw [Fin.ext (Chan.workerQueue.inj (WorkerCode.pop_queue ha))]
    rfl
  | collector =>
    rcases GatherMap.pop_queue ha with ⟨i', hq⟩
    cases hq

theorem outs_worker (h : P.program.Reachable ⟨pixels, []⟩ s) (i : Fin nw) :
    s.outs (.worker i) (.gatherQueue i) = (s.pushed (.gatherQueue i)).map Prod.snd := by
  apply entries_eq_map
  apply h.pushed_by (S := {.worker i})
  intro t x m next ha
  cases t with
  | emitter =>
    rcases emitter_push ha with ⟨k, -, task, -, he⟩
    cases he
  | worker i' =>
    rw [Chan.gatherQueue.inj (WorkerCode.push_queue ha)]
    rfl
  | collector => exact absurd ha GatherMap.push_none

theorem ins_collector (h : P.program.Reachable ⟨pixels, []⟩ s) (i : Fin nw) :
    s.ins .collector (.gatherQueue i) = (s.popped (.gatherQueue i)).map Prod.snd := by
  apply entries_eq_map
  apply h.popped_by (S := {.collector})
  intro t x next ha
  cases t with
  | emitter => exact absurd ha send_pop_none
  | worker i' => cases WorkerCode.pop_queue ha
  | collector => rfl

end Run

end Code

end WaterMark.FastFlow
