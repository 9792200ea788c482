import WaterMark.FarmMap.OnDemand
import WaterMark.Gather.Loop
import WaterMark.Map

/-! # The gather threads run the loop

The gathers of the map versions stop between the steps of an iteration: at the
pop, before the statements for a complete image and before the return. Whatever
the other threads do, such a thread stands where the loop stands on the messages
that the thread has received, and it has done what the loop has done.
-/

namespace WaterMark
open Gather

/-- What an event shows of a gather: the disposal of an image or a printed line. -/
def Event.shown {J : Type} : Event J → Option (Disposal ⊕ String)
  | .save _ path ptrImg _ => some (.inl (.save path ptrImg))
  | .deleteImage ptrImg => some (.inl (.delete ptrImg))
  | .printOut line => some (.inr line)
  | _ => none

end WaterMark

namespace WaterMark.Maps
open MessageLoop ChannelNetwork TaggedLog Pixels Gather

variable {ι J : Type} {nw : ℕ}

def disposals (complete : List Completion) : List (Disposal ⊕ String) :=
  complete.map fun e => .inl e.disposal

structure GatherCode.Runs (c : GatherCode J) (code : LoopCode) : Prop where
  complete : ∀ r pixels, (c.onComplete r pixels).shown = some (.inl (code.completion r).disposal)
  onReturn : ∀ n, (c.onReturn n).filterMap Event.shown = (code.onReturn n).map .inr

def GatherVars.ofLoop (g : LoopVars) : GatherVars := ⟨g.pool, g.nullNmb, g.imgNumber⟩

/-- A thread's place in its code, the messages it has received and its events
belong to one run of the loop. -/
inductive GatherCode.Follows (c : GatherCode J) (code : LoopCode) :
    GatherState → List Result → List (Event J) → Prop
  | pop {msgs events g} (hrun : code.gather c.nw msgs = .waiting g)
      (hev : events.filterMap Event.shown = disposals g.complete) :
      Follows c code (.pop (.ofLoop g)) msgs events
  | complete {msgs r events g done} (hrun : code.gather c.nw msgs = .waiting g)
      (hfull : g.complete = done ++ [code.completion r])
      (hev : events.filterMap Event.shown = disposals done) :
      Follows c code (.complete r ⟨g.pool, g.nullNmb, g.imgNumber - 1⟩) msgs events
  | finish {msgs events g} (hrun : code.gather c.nw msgs =
        .returned (g, code.onReturn g.imgNumber) [])
      (hev : events.filterMap Event.shown = disposals g.complete) :
      Follows c code (.finish (.ofLoop g)) msgs events
  | returned {msgs events g} (hrun : code.gather c.nw msgs =
        .returned (g, code.onReturn g.imgNumber) [])
      (hev : events.filterMap Event.shown =
        disposals g.complete ++ (code.onReturn g.imgNumber).map .inr) :
      Follows c code (.returned (.ofLoop g)) msgs events

namespace GatherCode.Follows
variable {c : GatherCode J} {code : LoopCode} {x : GatherState} {msgs : List Result}
  {events : List (Event J)}

theorem start : c.Follows code (.pop ⟨∅, 0, 0⟩) [] [] := pop (g := code.start) rfl rfl

theorem receive (hnw : 1 ≤ c.nw) {g : LoopVars} (hrun : code.gather c.nw msgs = .waiting g)
    (hev : events.filterMap Event.shown = disposals g.complete) (r : Result) :
    c.Follows code (c.receive (.ofLoop g) r) (msgs ++ [r]) events := by
  have hpath : g.path = code.path := by
    rw [((LoopCode.gather_eq_waiting code hnw).mp hrun).2]
    rfl
  rcases c.receive_cases (.ofLoop g) r with
    ⟨hr, hlast, heq⟩ | ⟨hr, hlast, heq⟩ | ⟨hr, hfull, heq⟩ | ⟨hr, hfull, heq⟩
  · change g.nullNmb + 1 = c.nw at hlast
    have hbody : code.body c.nw g r =
        .finish ({ g with nullNmb := g.nullNmb + 1 }, code.onReturn g.imgNumber) := by
      simp only [LoopCode.body, if_pos hr, if_pos hlast]
    rw [heq]
    exact .finish (run_snoc_finish hrun hbody) hev
  · change g.nullNmb + 1 ≠ c.nw at hlast
    have hbody : code.body c.nw g r = .next { g with nullNmb := g.nullNmb + 1 } := by
      simp only [LoopCode.body, if_pos hr, if_neg hlast]
    rw [heq]
    exact .pop (run_snoc_next hrun hbody) hev
  · change (poolStep c.nw g.pool r.1).2 = true at hfull
    have hbody : code.body c.nw g r = .next
        { pool := (poolStep c.nw g.pool r.1).1, path := code.path, nullNmb := g.nullNmb,
          imgNumber := g.imgNumber + 1, complete := g.complete ++ [code.completion r] } := by
      simp only [LoopCode.body, if_neg hr, if_pos hfull, LoopCode.completion, hpath]
    have hfollows := complete (c := c) (run_snoc_next hrun hbody) rfl hev
    rw [heq]
    simpa only [add_sub_cancel_right, GatherVars.ofLoop] using hfollows
  · change (poolStep c.nw g.pool r.1).2 ≠ true at hfull
    have hbody : code.body c.nw g r = .next { g with pool := (poolStep c.nw g.pool r.1).1 } := by
      simp only [LoopCode.body, if_neg hr, if_neg hfull]
    rw [heq]
    exact .pop (run_snoc_next hrun hbody) hev

theorem work_step {T κ : Type} [DecidableEq T] {t : T} {mapID : κ} {mem : Memory T J}
    {f : Memory T J → GatherState × Memory T J} (hruns : c.Runs code)
    (ha : .work f ∈ c.actions t mapID x) (h : c.Follows code x msgs (mem.eventsOf t)) :
    c.Follows code (f mem).1 msgs ((f mem).2.eventsOf t) := by
  cases x with
  | complete r g =>
    cases List.mem_singleton.mp ha
    generalize hev : mem.eventsOf t = events at h
    cases h with
    | @complete _ _ _ g done hrun hfull hdone =>
      simp only [Memory.eventsOf_record_self, hev]
      have hshown : (events ++ [c.onComplete r mem.pixels]).filterMap Event.shown =
          disposals g.complete := by
        rw [List.filterMap_append, hdone, hfull, List.filterMap_cons_some (hruns.complete _ _)]
        simp [disposals]
      have hfollows := pop hrun hshown
      simpa only [sub_add_cancel, GatherVars.ofLoop] using hfollows
  | finish g =>
    cases List.mem_singleton.mp ha
    generalize hev : mem.eventsOf t = events at h
    cases h with
    | @finish _ _ g hrun hshown =>
      simp only [Memory.eventsOf_record_self, hev]
      refine returned hrun ?_
      rw [List.filterMap_append, hshown]
      congr 1
      exact hruns.onReturn _
  | pop | returned => simp [actions] at ha

theorem pop_step {T κ : Type} [DecidableEq κ] {t : T} {mapID : κ}
    {ins : (q : Chan κ) → List (q.Msg J)} {q : Chan κ} {next : q.Msg J → GatherState}
    {m : q.Msg J} (hnw : 1 ≤ c.nw) (ha : .pop q next ∈ c.actions t mapID x)
    (h : c.Follows code x (ins (.gatherQueue mapID)) events) :
    c.Follows code (next m) (Function.update ins q (ins q ++ [m]) (.gatherQueue mapID))
      events := by
  cases x with
  | pop g =>
    cases List.mem_singleton.mp ha
    rw [Function.update_self]
    generalize ins (.gatherQueue mapID) = msgs at h ⊢
    cases h with
    | pop hrun hev => exact receive hnw hrun hev m
  | complete | finish | returned => simp [actions] at ha

theorem counted (hnw : 1 ≤ c.nw) {g : GatherVars} (h : c.Follows code (.pop g) msgs events) :
    ∃ complete : List Completion, events.filterMap Event.shown = disposals complete ∧
      ∀ k, (complete.map Completion.imageId).count k = resultCount k msgs / c.nw ∧
        (k ∈ g.pool ↔ resultCount k msgs % c.nw ≠ 0) := by
  cases h with
  | @pop _ _ g hrun hev =>
    obtain ⟨-, hg⟩ := (LoopCode.gather_eq_waiting code hnw).mp hrun
    have hcounted := code.counted_after hnw msgs
    rw [← hg] at hcounted
    exact ⟨g.complete, hev, fun k => ⟨hcounted.completed k, hcounted.mem_pool k⟩⟩

end GatherCode.Follows

/-! ## In the network -/

section Network
variable [DecidableEq ι] {P : Code ι J nw} {pixels : Ptr → Buffer} {s : NetState ι J nw}

def Code.GathersFollow (P : Code ι J nw) (loops : ι → LoopCode) : (t : Thread ι nw) → Loc J t →
    ((q : Chan ι) → List (q.Msg J)) → ((q : Chan ι) → List (q.Msg J)) → List (Event J) → Prop
  | .gather m => fun x ins _ events =>
    (P.gather m).Follows (loops m) x (ins (.gatherQueue m)) events
  | .scatter | .worker _ _ => fun _ _ _ _ => True

theorem Code.gathersFollow (loops : ι → LoopCode) (hnw : ∀ m, 1 ≤ (P.gather m).nw)
    (hruns : ∀ m, (P.gather m).Runs (loops m)) :
    LocalInvariant P.program Memory.eventsOf (P.GathersFollow loops) where
  pop t x ins outs v q next m ha h := by
    cases t with
    | gather m' => exact GatherCode.Follows.pop_step (hnw m') ha h
    | scatter | worker => trivial
  push t x ins outs v q m next ha h := by
    cases t with
    | gather m' => exact absurd ha GatherCode.push_none
    | scatter | worker => trivial
  work t x ins outs mem f ha h := by
    cases t with
    | gather m' => exact GatherCode.Follows.work_step (hruns m') ha h
    | scatter | worker => trivial
  frame := P.localInvariant.frame

/-- In every reachable state a gather thread stands where its loop stands on the
messages that it has received. -/
theorem Code.follows (loops : ι → LoopCode) (hnw : ∀ m, 1 ≤ (P.gather m).nw)
    (hruns : ∀ m, (P.gather m).Runs (loops m)) (h : P.program.Reachable ⟨pixels, []⟩ s) (m : ι) :
    (P.gather m).Follows (loops m) (s.loc (.gather m)) (s.ins (.gather m) (.gatherQueue m))
      (s.mem.eventsOf (.gather m)) := by
  have hlocal := Code.gathersFollow loops hnw hruns
  refine hlocal.reachable (fun t => ?_) h (.gather m)
  cases t with
  | gather m' => exact .start
  | scatter | worker => trivial

end Network

end WaterMark.Maps

/-! ## The versions -/

namespace WaterMark
open Pixels Gather Maps

/-- The loop of `test/farm_map.cpp`, which saves to another folder. -/
def OnDemand.gatherLoop (mapID : ℤ) : LoopCode :=
  { farmMapLoop mapID with path := "markedImageMap/img_" }

private theorem toString_natCast (n : ℕ) : toString (n : ℤ) = toString n := rfl

theorem FarmMap.gather_runs (st : ImageStream) (nWorkerMap mapID : ℕ) :
    (FarmMap.gather st nWorkerMap mapID).Runs (farmMapLoop mapID) where
  complete r _ := by
    have hpath : FarmMap.savePath r.1 = (farmMapLoop mapID).path ++ (toString r.1 ++ ".jpg") :=
      String.append_assoc
    exact congrArg (fun path => some (Sum.inl (Disposal.save path r.2))) hpath
  onReturn n := by
    simp only [FarmMap.gather, farmMapLoop, toString_natCast]
    rfl

theorem Map.gather_runs (nw : ℕ) : (Map.gather nw).Runs mapLoop where
  complete _ _ := rfl
  onReturn _ := rfl

theorem OnDemand.gather_runs (st : ImageStream) (nWorkerMap mapID : ℕ) :
    (OnDemand.gather st nWorkerMap mapID).Runs (OnDemand.gatherLoop mapID) where
  complete r _ := by
    have hpath : OnDemand.savePath r.1 =
        (OnDemand.gatherLoop mapID).path ++ (toString r.1 ++ ".jpg") := String.append_assoc
    exact congrArg (fun path => some (Sum.inl (Disposal.save path r.2))) hpath
  onReturn n := by
    simp only [OnDemand.gather, OnDemand.gatherLoop, farmMapLoop, toString_natCast]
    rfl

section
variable (st : ImageStream) {ptrMark : Buffer} {markHeight markWidth : ℕ}
  {pixels : Ptr → Buffer} {nmbMap nWorkerMap : ℕ}

theorem FarmMap.gather_follows (hWorker : 1 ≤ nWorkerMap)
    {s : NetState (Fin nmbMap) FarmMap.Task nWorkerMap}
    (h : (FarmMap.code st nmbMap nWorkerMap ptrMark markHeight markWidth).program.Reachable
      ⟨pixels, []⟩ s) (m : Fin nmbMap) :
    (FarmMap.gather st nWorkerMap m).Follows (farmMapLoop (m : ℕ)) (s.loc (.gather m))
      (s.ins (.gather m) (.gatherQueue m)) (s.mem.eventsOf (.gather m)) :=
  Code.follows (fun m : Fin nmbMap => farmMapLoop (m : ℕ)) (fun _ => hWorker)
    (fun m => FarmMap.gather_runs st nWorkerMap m) h m

theorem Map.gather_follows {nw : ℕ} (hnw : 1 ≤ nw) {s : NetState Unit Map.Task nw}
    (h : (Map.code st nw ptrMark markHeight markWidth).program.Reachable ⟨pixels, []⟩ s) :
    (Map.gather nw).Follows mapLoop (s.loc (.gather ())) (s.ins (.gather ()) (.gatherQueue ()))
      (s.mem.eventsOf (.gather ())) :=
  Code.follows (fun _ : Unit => mapLoop) (fun _ => hnw) (fun _ => Map.gather_runs nw) h ()

theorem OnDemand.gather_follows (hWorker : 1 ≤ nWorkerMap)
    {s : NetState (Fin nmbMap) (OnDemand.Task nWorkerMap) nWorkerMap}
    (h : (OnDemand.code st nmbMap nWorkerMap ptrMark markHeight markWidth).program.Reachable
      ⟨pixels, []⟩ s) (m : Fin nmbMap) :
    (OnDemand.gather st nWorkerMap m).Follows (OnDemand.gatherLoop (m : ℕ)) (s.loc (.gather m))
      (s.ins (.gather m) (.gatherQueue m)) (s.mem.eventsOf (.gather m)) :=
  Code.follows (fun m : Fin nmbMap => OnDemand.gatherLoop (m : ℕ)) (fun _ => hWorker)
    (fun m => OnDemand.gather_runs st nWorkerMap m) h m

end

end WaterMark
