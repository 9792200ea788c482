import Mathlib.Data.Fintype.Prod
import Mathlib.Data.Fintype.Sigma
import Mathlib.Data.Fintype.Sum
import Mathlib.Tactic.DeriveFintype
import WaterMark.Gather.Merge
import WaterMark.Maps.Gather
import WaterMark.Maps.Sender

/-! # Scatter, workers and gathers

The network of a map version: `scatter` pushes tasks on the workers' queues, the
workers of map `m` push results on the queue of gather `m`. The maps are indexed
by a type `ι`, each with `nw` workers.
-/

namespace WaterMark.Maps
open ChannelNetwork TaggedLog Pixels Gather

variable {ι J : Type} {nw : ℕ}

inductive Thread (ι : Type) (nw : ℕ) where
  | scatter
  | worker (m : ι) (i : Fin nw)
  | gather (m : ι)
deriving DecidableEq, Fintype

@[reducible] def Loc (J : Type) : Thread ι nw → Type
  | .scatter => ℕ
  | .worker _ _ => WorkerState J
  | .gather _ => GatherState

/-- The code of a map version. `scatter` is the sequence of its pushes, each with
the index of its queue; worker `i` of map `m` pops queue `queue m i`. -/
structure Code (ι J : Type) (nw : ℕ) where
  scatter : List (ℕ × J)
  queue : ι → Fin nw → ℕ
  info : ι → Fin nw → J → ChunkInfo
  worker : WorkerCode J
  gather : ι → GatherCode J

def Code.program (P : Code ι J nw) :
    Program (Thread ι nw) (@Chan.Msg ι J) (Loc J) (Memory (Thread ι nw) J) where
  start
    | .scatter => (0 : ℕ)
    | .worker _ _ => WorkerState.pop 0
    | .gather _ => GatherState.pop ⟨∅, 0, 0⟩
  actions
    | .scatter => scatterActions P.scatter
    | .worker m i => P.worker.actions (P.info m i) (.worker m i) (P.queue m i) m
    | .gather m => (P.gather m).actions (.gather m) m

abbrev NetState (ι J : Type) (nw : ℕ) :=
  State (Thread ι nw) (@Chan.Msg ι J) (Loc J) (Memory (Thread ι nw) J)

/-- Every thread's place in its code tells what it has received, sent and done. -/
def Code.PlaceTells (P : Code ι J nw) : (t : Thread ι nw) → Loc J t →
    ((q : Chan ι) → List (q.Msg J)) → ((q : Chan ι) → List (q.Msg J)) → List (Event J) → Prop
  | .scatter => fun n _ outs events =>
    SendsTo (fun k => P.scatter[k]?.toList) n outs ∧ events = []
  | .worker m i => fun x ins outs events =>
    P.worker.HasAnswered x (ins (.workerQueue (P.queue m i))) (outs (.gatherQueue m)) events
  | .gather m => fun x ins _ events => (P.gather m).HasCompleted x (ins (.gatherQueue m)) events

section Invariant
variable [DecidableEq ι] (P : Code ι J nw)

theorem Code.localInvariant : LocalInvariant P.program Memory.eventsOf P.PlaceTells where
  pop t x ins outs v q next m ha h := by
    cases t with
    | scatter => exact absurd ha send_pop_none
    | worker m' i => exact WorkerCode.HasAnswered.pop_step ha h
    | gather m' => exact GatherCode.HasCompleted.pop_step ha h
  push t x ins outs v q m next ha h := by
    cases t with
    | scatter => exact ⟨h.1.push_step ha, h.2⟩
    | worker m' i => exact WorkerCode.HasAnswered.push_step ha h
    | gather m' => exact absurd ha GatherCode.push_none
  work t x ins outs mem f ha h := by
    cases t with
    | scatter => exact absurd ha send_work_none
    | worker m' i => exact WorkerCode.HasAnswered.work_step ha h
    | gather m' => exact GatherCode.HasCompleted.work_step ha h
  frame t u x mem f hne ha := by
    cases u with
    | scatter => exact absurd ha send_work_none
    | worker m' i => exact WorkerCode.work_frame ha hne
    | gather m' => exact GatherCode.work_frame ha hne

end Invariant

end WaterMark.Maps
