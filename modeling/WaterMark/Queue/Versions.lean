import WaterMark.Pictures.Farm
import WaterMark.Pictures.Versions
import WaterMark.Queue.Network

/-! # The versions on their blocking queues

The farm and the maps as they run, with mutexes, sleeping threads and
notifications. No schedule stops them early: when no thread can move, all have
returned and the pictures are those of the sequential program.
-/

namespace WaterMark.Maps
open ChannelNetwork Queue

variable {ι J : Type} {nw : ℕ}

theorem length_scatterActions_le {κ μ : Type} (pushes : List (ℕ × J)) (n : ℕ) :
    (@scatterActions κ J μ pushes n).length ≤ 1 := by
  rw [scatterActions, sendActions, List.length_map, Option.length_toList]
  split_ifs <;> omega

theorem scatterActions_finished {κ μ : Type} {pushes : List (ℕ × J)} {n : ℕ}
    (h : pushes.length ≤ n) : @scatterActions κ J μ pushes n = [] := by
  rw [scatterActions, List.getElem?_eq_none h]
  rfl

namespace Code

theorem one_action (P : Code ι J nw) : Sequential P.program := by
  intro t x
  cases t with
  | scatter => exact length_scatterActions_le P.scatter x
  | worker m i =>
    cases x with
    | returned => exact Nat.zero_le 1
    | pop | stamp | propagate | propagateEos | finish => exact le_rfl
  | gather m =>
    cases x with
    | returned => exact Nat.zero_le 1
    | pop | complete | finish => exact le_rfl

theorem actions_returned {P : Code ι J nw} {s : NetState ι J nw}
    (hscatter : P.scatter.length ≤ s.loc .scatter)
    (hworkers : ∀ m i, s.loc (.worker m i) = .returned)
    (hgathers : ∀ m, ∃ g, s.loc (.gather m) = .returned g) (t : Thread ι nw) :
    P.program.actions t (s.loc t) = [] := by
  cases t with
  | scatter => exact scatterActions_finished hscatter
  | worker m i =>
    rw [hworkers]
    rfl
  | gather m =>
    obtain ⟨g, hg⟩ := hgathers m
    rw [hg]
    rfl

end Code

end WaterMark.Maps

namespace WaterMark.FarmMap
open ChannelNetwork TaggedLog Pixels Gather Maps Queue

variable {st : ImageStream} {nmbMap nWorkerMap : ℕ} {ptrMark : Buffer} {markHeight markWidth : ℕ}
  {pixels : Ptr → Buffer}

theorem finished (hMap : 1 ≤ nmbMap) (hWorker : 1 ≤ nWorkerMap)
    {s : NetState (Fin nmbMap) Task nWorkerMap}
    (h : (code st nmbMap nWorkerMap ptrMark markHeight markWidth).program.Reachable ⟨pixels, []⟩ s)
    (hterm : (code st nmbMap nWorkerMap ptrMark markHeight markWidth).program.Terminal s) :
    Finished st s where
  scatter := Code.Feeds.scatter_finished hterm
  workers m i :=
    ((feeds st ptrMark markHeight markWidth hMap hWorker).worker_finished h hterm m i).1
  gathers m :=
    ⟨_, ((feeds st ptrMark markHeight markWidth hMap hWorker).gather_finished h hterm m).1, rfl⟩
  queues := (feeds st ptrMark markHeight markWidth hMap hWorker).queues_empty h hterm

/-- The farm of maps on its blocking queues: what is written is always part of the
output of the sequential program, each picture once at most. The threads come to
rest, and at rest all of them have returned, the queues are empty and the whole
output is written. -/
theorem farmMap_onQueues (st : ImageStream) (ptrMark : Buffer) (markHeight markWidth : ℕ)
    (pixels : Ptr → Buffer) {nmbMap nWorkerMap : ℕ} (hMap : 1 ≤ nmbMap) (hWorker : 1 ≤ nWorkerMap)
    (s : SystemState (Thread (Fin nmbMap) nWorkerMap) (@Chan.Msg (Fin nmbMap) Task) (Loc Task)
      (Memory (Thread (Fin nmbMap) nWorkerMap) Task))
    (h : SystemReachable (code st nmbMap nWorkerMap ptrMark markHeight markWidth).program
      ⟨pixels, []⟩ s) :
    (Code.written s.atomic).Subperm (Seq.output st ptrMark markHeight markWidth pixels) ∧
    (AtRest (code st nmbMap nWorkerMap ptrMark markHeight markWidth).program s →
      Finished st s.atomic ∧ (∀ t, s.pc t = .outside) ∧ (∀ q, s.dQueue q = []) ∧
        (Code.written s.atomic).Perm (Seq.output st ptrMark markHeight markWidth pixels)) ∧
    ComesToRest (code st nmbMap nWorkerMap ptrMark markHeight markWidth).program s := by
  have hF := feeds st ptrMark markHeight markWidth hMap hWorker
  have hwritten := written_seq hMap hWorker h.atomic
  refine ⟨hwritten.1, fun hrest => ?_, h.comesToRest (Code.ranking _ hF.routed)⟩
  have hterm := hrest.terminal h (Code.one_action _)
  have hfin := finished hMap hWorker h.atomic hterm
  refine ⟨hfin, fun t => hrest.outside h ?_, fun q => ?_, hwritten.2 hterm⟩
  · refine Code.actions_returned hfin.scatter hfin.workers (fun m => ?_) t
    obtain ⟨g, hg, -⟩ := hfin.gathers m
    exact ⟨g, hg⟩
  · exact List.reverse_eq_nil_iff.mp (hfin.queues q)

/-- Two maps of two workers, with two images of four pixels, come to rest with the
pictures written. -/
theorem farmMap_onQueues_twoImages :
    ∃ s, SystemReachable (code twoImages 2 2 [0, 200, 49, 50] 2 2).program
        ⟨fun _ => List.replicate 12 100, []⟩ s ∧
      AtRest (code twoImages 2 2 [0, 200, 49, 50] 2 2).program s ∧
      (Code.written s.atomic).Perm [(0, [50, 100, 74, 100, 50, 100, 74, 100, 50, 100, 74, 100]),
        (1, [50, 100, 74, 100, 50, 100, 74, 100, 50, 100, 74, 100])] := by
  have hstart : SystemReachable (code twoImages 2 2 [0, 200, 49, 50] 2 2).program
      ⟨fun _ => List.replicate 12 100, []⟩ _ := ⟨0, 0, .refl⟩
  obtain ⟨-, -, ⟨s, hsteps, hrest⟩, -⟩ :=
    farmMap_onQueues twoImages [0, 200, 49, 50] 2 2 _ (by decide) (by decide) _ hstart
  have hs := hstart.steps hsteps
  obtain ⟨-, hend, -⟩ :=
    farmMap_onQueues twoImages [0, 200, 49, 50] 2 2 _ (by decide) (by decide) s hs
  exact ⟨s, hs, hrest, (hend hrest).2.2.2⟩

end WaterMark.FarmMap

namespace WaterMark.OnDemand
open ChannelNetwork TaggedLog Pixels Gather Maps Queue

/-- The farm of maps with shared queues, where several workers sleep on one queue
and a notification wakes up any of them. -/
theorem onDemand_onQueues (st : ImageStream) (ptrMark : Buffer) (markHeight markWidth : ℕ)
    (pixels : Ptr → Buffer) {nmbMap nWorkerMap : ℕ} (hMap : 1 ≤ nmbMap) (hWorker : 1 ≤ nWorkerMap)
    (s : SystemState (Thread (Fin nmbMap) nWorkerMap) (@Chan.Msg (Fin nmbMap) (Task nWorkerMap))
      (Loc (Task nWorkerMap)) (Memory (Thread (Fin nmbMap) nWorkerMap) (Task nWorkerMap)))
    (h : SystemReachable (code st nmbMap nWorkerMap ptrMark markHeight markWidth).program
      ⟨pixels, []⟩ s) :
    (Code.written s.atomic).Subperm (Seq.output st ptrMark markHeight markWidth pixels) ∧
    (AtRest (code st nmbMap nWorkerMap ptrMark markHeight markWidth).program s →
      Finished st s.atomic ∧ (∀ t, s.pc t = .outside) ∧ (∀ q, s.dQueue q = []) ∧
        (Code.written s.atomic).Perm (Seq.output st ptrMark markHeight markWidth pixels)) ∧
    ComesToRest (code st nmbMap nWorkerMap ptrMark markHeight markWidth).program s := by
  have hwritten := written_seq hMap hWorker h.atomic
  have hR := Code.ranking _ (routed st ptrMark markHeight markWidth hMap hWorker)
  refine ⟨hwritten.1, fun hrest => ?_, h.comesToRest hR⟩
  have hterm := hrest.terminal h (Code.one_action _)
  have hfin := finished st hMap hWorker h.atomic hterm
  refine ⟨hfin, fun t => hrest.outside h ?_, fun q => ?_, hwritten.2 hterm⟩
  · refine Code.actions_returned hfin.scatter (fun m i => (hfin.workers m i).1) (fun m => ?_) t
    obtain ⟨g, hg, -⟩ := hfin.gathers m
    exact ⟨g, hg⟩
  · exact List.reverse_eq_nil_iff.mp (hfin.queues q)

/-- In each of two maps two workers share the queue of an image of four pixels. -/
theorem onDemand_onQueues_twoImages :
    ∃ s, SystemReachable (code twoImages 2 2 [0, 200, 49, 50] 2 2).program
        ⟨fun _ => List.replicate 12 100, []⟩ s ∧
      AtRest (code twoImages 2 2 [0, 200, 49, 50] 2 2).program s ∧
      (Code.written s.atomic).Perm [(0, [50, 100, 74, 100, 50, 100, 74, 100, 50, 100, 74, 100]),
        (1, [50, 100, 74, 100, 50, 100, 74, 100, 50, 100, 74, 100])] := by
  have hstart : SystemReachable (code twoImages 2 2 [0, 200, 49, 50] 2 2).program
      ⟨fun _ => List.replicate 12 100, []⟩ _ := ⟨0, 0, .refl⟩
  obtain ⟨-, -, ⟨s, hsteps, hrest⟩, -⟩ :=
    onDemand_onQueues twoImages [0, 200, 49, 50] 2 2 _ (by decide) (by decide) _ hstart
  have hs := hstart.steps hsteps
  obtain ⟨-, hend, -⟩ :=
    onDemand_onQueues twoImages [0, 200, 49, 50] 2 2 _ (by decide) (by decide) s hs
  exact ⟨s, hs, hrest, (hend hrest).2.2.2⟩

end WaterMark.OnDemand

namespace WaterMark.Map
open ChannelNetwork TaggedLog Pixels Gather Maps Queue

variable {st : ImageStream} {nw : ℕ} {ptrMark : Buffer} {markHeight markWidth : ℕ}
  {pixels : Ptr → Buffer}

theorem finished (hnw : 1 ≤ nw) {s : NetState Unit Task nw}
    (h : (code st nw ptrMark markHeight markWidth).program.Reachable ⟨pixels, []⟩ s)
    (hterm : (code st nw ptrMark markHeight markWidth).program.Terminal s) : Finished st s where
  scatter := Code.Feeds.scatter_finished hterm
  workers i := ((feeds st ptrMark markHeight markWidth hnw).worker_finished h hterm () i).1
  gather := ⟨_, ((feeds st ptrMark markHeight markWidth hnw).gather_finished h hterm ()).1, rfl⟩
  queues := (feeds st ptrMark markHeight markWidth hnw).queues_empty h hterm

/-- The map on its blocking queues: an image is deleted with the picture of the
sequential program; the threads come to rest, and at rest all have returned and
all images are deleted. -/
theorem map_onQueues (st : ImageStream) (ptrMark : Buffer) (markHeight markWidth : ℕ)
    (pixels : Ptr → Buffer) {nw : ℕ} (hnw : 1 ≤ nw)
    (s : SystemState (Thread Unit nw) (@Chan.Msg Unit Task) (Loc Task)
      (Memory (Thread Unit nw) Task))
    (h : SystemReachable (code st nw ptrMark markHeight markWidth).program ⟨pixels, []⟩ s) :
    (∀ s', SystemStep (code st nw ptrMark markHeight markWidth).program s s' → ∀ ptrImg,
      deletions s'.atomic = deletions s.atomic ++ [ptrImg] → ∃ j < st.size, ptrImg = st.img j ∧
        s.mem.pixels (st.pix j) = (Seq.stamped st ptrMark markHeight markWidth pixels j).2) ∧
    (AtRest (code st nw ptrMark markHeight markWidth).program s →
      Finished st s.atomic ∧ (∀ t, s.pc t = .outside) ∧ (∀ q, s.dQueue q = []) ∧
        deletions s.atomic = st.imgVector) ∧
    ComesToRest (code st nw ptrMark markHeight markWidth).program s := by
  have hF := feeds st ptrMark markHeight markWidth hnw
  refine ⟨fun s' hstep ptrImg hdel => ?_, fun hrest => ?_,
    h.comesToRest (Code.ranking _ hF.routed)⟩
  · rcases hstep.atomic h.calling with ⟨hmove, -⟩ | ⟨hsame, -⟩
    · exact pixels_of_deletes hnw h.atomic hmove hdel
    · rw [hsame] at hdel
      exact absurd (List.append_right_eq_self.mp hdel.symm) (List.cons_ne_nil _ _)
  have hterm := hrest.terminal h (Code.one_action _)
  have hfin := finished hnw h.atomic hterm
  refine ⟨hfin, fun t => hrest.outside h ?_, fun q => ?_, deletions_terminal hnw h.atomic hterm⟩
  · refine Code.actions_returned hfin.scatter (fun _ i => hfin.workers i) (fun _ => ?_) t
    obtain ⟨g, hg, -⟩ := hfin.gather
    exact ⟨g, hg⟩
  · exact List.reverse_eq_nil_iff.mp (hfin.queues q)

/-- Two workers stamp two images of four pixels, which are then deleted. -/
theorem map_onQueues_twoImages :
    ∃ s, SystemReachable (code twoImages 2 [0, 200, 49, 50] 2 2).program
        ⟨fun _ => List.replicate 12 100, []⟩ s ∧
      AtRest (code twoImages 2 [0, 200, 49, 50] 2 2).program s ∧ deletions s.atomic = [1, 3] := by
  have hstart : SystemReachable (code twoImages 2 [0, 200, 49, 50] 2 2).program
      ⟨fun _ => List.replicate 12 100, []⟩ _ := ⟨0, 0, .refl⟩
  obtain ⟨-, -, ⟨s, hsteps, hrest⟩, -⟩ :=
    map_onQueues twoImages [0, 200, 49, 50] 2 2 _ (by decide) _ hstart
  have hs := hstart.steps hsteps
  obtain ⟨-, hend, -⟩ := map_onQueues twoImages [0, 200, 49, 50] 2 2 _ (by decide) s hs
  exact ⟨s, hs, hrest, (hend hrest).2.2.2⟩

end WaterMark.Map

namespace WaterMark.Farm
open ChannelNetwork TaggedLog SharedQueue Pixels Maps Queue

variable {st : ImageStream} {markImg : Mark} {nw : ℕ} {pixels : Ptr → Buffer}

theorem one_action : Sequential (program st markImg nw) := by
  intro t x
  cases t with
  | emitter => exact length_scatterActions_le (emitter st nw) x
  | worker i =>
    cases x with
    | returned => exact Nat.zero_le 1
    | pop | stamp | save | release | deleteMark => exact le_rfl

theorem finished (hnw : 1 ≤ nw) {s : FarmState nw}
    (h : (program st markImg nw).Reachable ⟨pixels, []⟩ s)
    (hterm : (program st markImg nw).Terminal s) : Finished st s where
  emitter := emitter_finished hterm
  workers i := ⟨returned_of_terminal h hterm i, nulls_terminal h hterm i⟩
  queue := (taken_terminal hnw h hterm).2

/-- The farm on its blocking queue, where all workers sleep on one condition
variable: each picture written is the stamped one of its number, each number once
at most; the threads come to rest, and at rest all have returned, each worker
after one null, and all pictures are written. -/
theorem farm_onQueues (st : ImageStream) (markImg : Mark) (pixels : Ptr → Buffer) {nw : ℕ}
    (hnw : 1 ≤ nw)
    (s : SystemState (Thread nw) (@Chan.Msg Empty Msg) (Loc nw) (Memory (Thread nw) Task))
    (h : SystemReachable (program st markImg nw) ⟨pixels, []⟩ s) :
    (log Event.output s.atomic).Subperm (output st markImg pixels) ∧
    (AtRest (program st markImg nw) s →
      Finished st s.atomic ∧ (∀ t, s.pc t = .outside) ∧ s.dQueue workerQueue = [] ∧
        (log Event.output s.atomic).Perm (output st markImg pixels)) ∧
    ComesToRest (program st markImg nw) s := by
  refine ⟨written_subperm h.atomic, fun hrest => ?_, h.comesToRest (ranking st markImg)⟩
  have hterm := hrest.terminal h one_action
  have hfin := finished hnw h.atomic hterm
  refine ⟨hfin, fun t => hrest.outside h ?_, ?_, written_terminal hnw h.atomic hterm⟩
  · cases t with
    | emitter => exact scatterActions_finished hfin.emitter
    | worker i =>
      have hreturned : s.loc (.worker i) = .returned := (hfin.workers i).1
      rw [hreturned]
      rfl
  · exact List.reverse_eq_nil_iff.mp hfin.queue

/-- Two workers wait on one queue for two images of four pixels. -/
theorem farm_onQueues_twoImages :
    ∃ s, SystemReachable (program twoImages
        ⟨2, 2, 3, [0, 200, 49, 50, 0, 200, 49, 50, 0, 200, 49, 50], rfl⟩ 2)
        ⟨fun _ => List.replicate 12 100, []⟩ s ∧
      AtRest (program twoImages
        ⟨2, 2, 3, [0, 200, 49, 50, 0, 200, 49, 50, 0, 200, 49, 50], rfl⟩ 2) s ∧
      (log Event.output s.atomic).Perm
        [(0, [50, 100, 74, 100, 50, 100, 74, 100, 50, 100, 74, 100]),
          (1, [50, 100, 74, 100, 50, 100, 74, 100, 50, 100, 74, 100])] := by
  have hstart : SystemReachable (program twoImages
      ⟨2, 2, 3, [0, 200, 49, 50, 0, 200, 49, 50, 0, 200, 49, 50], rfl⟩ 2)
      ⟨fun _ => List.replicate 12 100, []⟩ _ := ⟨0, 0, .refl⟩
  obtain ⟨-, -, ⟨s, hsteps, hrest⟩, -⟩ := farm_onQueues twoImages _ _ (by decide) _ hstart
  have hs := hstart.steps hsteps
  obtain ⟨-, hend, -⟩ := farm_onQueues twoImages _ _ (by decide) s hs
  obtain ⟨-, -, -, hperm⟩ := hend hrest
  exact ⟨s, hs, hrest, hperm⟩

end WaterMark.Farm
