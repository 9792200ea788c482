import WaterMark.FarmMap.OnDemand
import WaterMark.Map
import WaterMark.Pictures.Maps

/-! # The map versions against the sequential program

The farms of maps write exactly the files of the sequential program, under any
number of maps and workers and in any schedule. The map writes no file, but the
pictures that it deletes are the sequential ones.
-/

namespace WaterMark.FarmMap
open ChannelNetwork TaggedLog Pixels Gather Maps

variable {st : ImageStream} {nmbMap nWorkerMap : ℕ} {ptrMark : Buffer} {markHeight markWidth : ℕ}

theorem quiet : (code st nmbMap nWorkerMap ptrMark markHeight markWidth).Quiet where
  worker := ⟨fun _ _ => List.not_mem_nil, fun _ => List.not_mem_nil⟩
  gather m := by
    refine ⟨fun r buffers job he => ?_, fun n job he => ?_⟩
    · cases he
    · cases List.mem_singleton.mp he

theorem deals : (code st nmbMap nWorkerMap ptrMark markHeight markWidth).Deals st (taskOf st)
    (fun m => images st nmbMap m) markHeight markWidth where
  quiet := quiet
  order_lt _ _ hj := ((mem_images st nmbMap).mp hj).1
  nodup m := (images_increasing st nmbMap m).nodup
  map_unique hj hj' :=
    Fin.ext (((mem_images st nmbMap).mp hj).2.symm.trans ((mem_images st nmbMap).mp hj').2)
  dataImg _ := rfl
  info _ _ _ := rfl
  results m := results_eq st ptrMark (images st nmbMap m)

theorem saves_code : (code st nmbMap nWorkerMap ptrMark markHeight markWidth).Saves st
    savePath where
  complete _ _ _ := rfl
  printed m n e he := by
    rw [List.mem_singleton.mp he]
    exact ⟨rfl, rfl⟩
  worker e he :=
    ⟨saved_worker he, he.hidden (fun _ => rfl) (by simp [code, worker]) (by simp [code, worker])⟩

theorem written_seq (hMap : 1 ≤ nmbMap) (hWorker : 1 ≤ nWorkerMap) {pixels : Ptr → Buffer}
    {s : NetState (Fin nmbMap) Task nWorkerMap}
    (h : (code st nmbMap nWorkerMap ptrMark markHeight markWidth).program.Reachable
      ⟨pixels, []⟩ s) :
    (Code.written s).Subperm (Seq.output st ptrMark markHeight markWidth pixels) ∧
      ((code st nmbMap nWorkerMap ptrMark markHeight markWidth).program.Terminal s →
        (Code.written s).Perm (Seq.output st ptrMark markHeight markWidth pixels)) := by
  have hF := feeds st ptrMark markHeight markWidth hMap hWorker
  exact (hF.paints deals pixels).writes_seq saves_code hF.one_le_gather
    (fun s hs hterm => saves_terminal hMap hWorker hs hterm)
    ((Code.ranking _ hF.routed).exists_terminal s) h

/-- In every run of the farm of maps the pictures written so far are pictures that
the sequential program writes under the same numbers, each once at most; a
complete run writes all of them; and every run can be completed. -/
theorem farmMap_writes_seq (st : ImageStream) (ptrMark : Buffer) (markHeight markWidth : ℕ)
    (pixels : Ptr → Buffer) {nmbMap nWorkerMap : ℕ} (hMap : 1 ≤ nmbMap) (hWorker : 1 ≤ nWorkerMap)
    (s : NetState (Fin nmbMap) Task nWorkerMap)
    (h : (code st nmbMap nWorkerMap ptrMark markHeight markWidth).program.Reachable
      ⟨pixels, []⟩ s) :
    (Code.written s).Subperm (Seq.output st ptrMark markHeight markWidth pixels) ∧
    ((code st nmbMap nWorkerMap ptrMark markHeight markWidth).program.Terminal s →
      (Code.written s).Perm (Seq.output st ptrMark markHeight markWidth pixels)) ∧
    ∃ s', Relation.ReflTransGen
      (code st nmbMap nWorkerMap ptrMark markHeight markWidth).program.Step s s' ∧
        (code st nmbMap nWorkerMap ptrMark markHeight markWidth).program.Terminal s' := by
  have hF := feeds st ptrMark markHeight markWidth hMap hWorker
  have hwrites := written_seq hMap hWorker h
  exact ⟨hwrites.1, hwrites.2, (Code.ranking _ hF.routed).exists_terminal s⟩

/-- Two maps of two workers write the pictures of two images in a complete run. -/
theorem farmMap_writes_seq_twoImages :
    ∃ s, (code twoImages 2 2 [0, 200, 49, 50] 2 2).program.Reachable
        ⟨fun _ => List.replicate 12 100, []⟩ s ∧
      (Code.written s).Perm [(0, [50, 100, 74, 100, 50, 100, 74, 100, 50, 100, 74, 100]),
        (1, [50, 100, 74, 100, 50, 100, 74, 100, 50, 100, 74, 100])] := by
  have hall := farmMap_writes_seq twoImages [0, 200, 49, 50] 2 2 (fun _ => List.replicate 12 100)
    (show 1 ≤ 2 by decide) (show 1 ≤ 2 by decide)
  obtain ⟨s, hs, hterm⟩ := (hall _ .refl).2.2
  exact ⟨s, hs, (hall s hs).2.1 hterm⟩

end WaterMark.FarmMap

namespace WaterMark.OnDemand
open ChannelNetwork TaggedLog Pixels Gather Maps
open FarmMap (images mem_images)

variable {st : ImageStream} {nmbMap nWorkerMap : ℕ} {ptrMark : Buffer} {markHeight markWidth : ℕ}

theorem quiet : (code st nmbMap nWorkerMap ptrMark markHeight markWidth).Quiet where
  worker := ⟨fun _ _ => List.not_mem_nil, fun _ => List.not_mem_nil⟩
  gather m := by
    refine ⟨fun r buffers job he => ?_, fun n job he => ?_⟩
    · cases he
    · cases List.mem_singleton.mp he

theorem splits : (code st nmbMap nWorkerMap ptrMark markHeight markWidth).Splits st (taskOf st)
    (fun m => images st nmbMap m) (fun m => chunksOf st nWorkerMap (images st nmbMap m))
    markHeight markWidth where
  quiet := quiet
  order_lt _ _ hj := ((mem_images st nmbMap).mp hj).1
  map_unique hj hj' :=
    Fin.ext (((mem_images st nmbMap).mp hj).2.symm.trans ((mem_images st nmbMap).mp hj').2)
  mem_tasks := mem_chunksOf st
  dataImg _ _ := rfl
  info _ _ _ _ := rfl
  chunk_inj he := (taskOf_inj st he).2
  result _ _ := rfl

theorem saves_code : (code st nmbMap nWorkerMap ptrMark markHeight markWidth).Saves st
    savePath where
  complete _ _ _ := rfl
  printed m n e he := by
    rw [List.mem_singleton.mp he]
    exact ⟨rfl, rfl⟩
  worker e he :=
    ⟨saved_worker he, he.hidden (fun _ => rfl) (by simp [code, worker]) (by simp [code, worker])⟩

theorem routed (st : ImageStream) (ptrMark : Buffer) (markHeight markWidth : ℕ)
    (hMap : 1 ≤ nmbMap) (hWorker : 1 ≤ nWorkerMap) :
    ∀ e ∈ (code st nmbMap nWorkerMap ptrMark markHeight markWidth).scatter,
      ∃ m i, e.1 = (code st nmbMap nWorkerMap ptrMark markHeight markWidth).queue m i := by
  intro e he
  obtain ⟨m, hm⟩ := (shares st ptrMark markHeight markWidth hMap hWorker).routed e he
  exact ⟨m, ⟨0, hWorker⟩, hm⟩

theorem written_seq (hMap : 1 ≤ nmbMap) (hWorker : 1 ≤ nWorkerMap) {pixels : Ptr → Buffer}
    {s : NetState (Fin nmbMap) (Task nWorkerMap) nWorkerMap}
    (h : (code st nmbMap nWorkerMap ptrMark markHeight markWidth).program.Reachable
      ⟨pixels, []⟩ s) :
    (Code.written s).Subperm (Seq.output st ptrMark markHeight markWidth pixels) ∧
      ((code st nmbMap nWorkerMap ptrMark markHeight markWidth).program.Terminal s →
        (Code.written s).Perm (Seq.output st ptrMark markHeight markWidth pixels)) := by
  have hS := shares st ptrMark markHeight markWidth hMap hWorker
  have hend := (Code.ranking _
    (routed st ptrMark markHeight markWidth hMap hWorker)).exists_terminal s
  exact (hS.paints splits (fun _ => rfl) pixels).writes_seq saves_code hS.one_le_gather
    (fun s hs hterm => saves_perm hMap hWorker hs hterm) hend h

/-- The same of the farm of maps with shared queues, where any worker of a map may
take any chunk. -/
theorem onDemand_writes_seq (st : ImageStream) (ptrMark : Buffer) (markHeight markWidth : ℕ)
    (pixels : Ptr → Buffer) {nmbMap nWorkerMap : ℕ} (hMap : 1 ≤ nmbMap) (hWorker : 1 ≤ nWorkerMap)
    (s : NetState (Fin nmbMap) (Task nWorkerMap) nWorkerMap)
    (h : (code st nmbMap nWorkerMap ptrMark markHeight markWidth).program.Reachable
      ⟨pixels, []⟩ s) :
    (Code.written s).Subperm (Seq.output st ptrMark markHeight markWidth pixels) ∧
    ((code st nmbMap nWorkerMap ptrMark markHeight markWidth).program.Terminal s →
      (Code.written s).Perm (Seq.output st ptrMark markHeight markWidth pixels)) ∧
    ∃ s', Relation.ReflTransGen
      (code st nmbMap nWorkerMap ptrMark markHeight markWidth).program.Step s s' ∧
        (code st nmbMap nWorkerMap ptrMark markHeight markWidth).program.Terminal s' := by
  have hwrites := written_seq hMap hWorker h
  have hR := Code.ranking _ (routed st ptrMark markHeight markWidth hMap hWorker)
  exact ⟨hwrites.1, hwrites.2, hR.exists_terminal s⟩

/-- The workers that share a queue write the pictures of two images in a complete run. -/
theorem onDemand_writes_seq_twoImages :
    ∃ s, (code twoImages 2 2 [0, 200, 49, 50] 2 2).program.Reachable
        ⟨fun _ => List.replicate 12 100, []⟩ s ∧
      (Code.written s).Perm [(0, [50, 100, 74, 100, 50, 100, 74, 100, 50, 100, 74, 100]),
        (1, [50, 100, 74, 100, 50, 100, 74, 100, 50, 100, 74, 100])] := by
  have hall := onDemand_writes_seq twoImages [0, 200, 49, 50] 2 2 (fun _ => List.replicate 12 100)
    (show 1 ≤ 2 by decide) (show 1 ≤ 2 by decide)
  obtain ⟨s, hs, hterm⟩ := (hall _ .refl).2.2
  exact ⟨s, hs, (hall s hs).2.1 hterm⟩

end WaterMark.OnDemand

namespace WaterMark.Map
open ChannelNetwork TaggedLog Pixels Gather Maps

variable {st : ImageStream} {nw : ℕ} {ptrMark : Buffer} {markHeight markWidth : ℕ}

theorem quiet : (code st nw ptrMark markHeight markWidth).Quiet where
  worker := ⟨fun _ _ => List.not_mem_nil, fun job he => by cases List.mem_singleton.mp he⟩
  gather _ := by
    refine ⟨fun r buffers job he => ?_, fun n job he => ?_⟩
    · cases he
    · cases he

theorem deals : (code st nw ptrMark markHeight markWidth).Deals st (taskOf st)
    (fun _ => List.range st.size) markHeight markWidth where
  quiet := quiet
  order_lt _ _ hj := List.mem_range.mp hj
  nodup _ := List.nodup_range
  map_unique _ _ := rfl
  dataImg _ := rfl
  info _ _ _ := rfl
  results _ := results_eq st ptrMark

section Run
variable {pixels : Ptr → Buffer} {s : NetState Unit Task nw}

theorem complete_of_deletes {s' : NetState Unit Task nw} (hnw : 1 ≤ nw)
    (h : (code st nw ptrMark markHeight markWidth).program.Reachable ⟨pixels, []⟩ s)
    (hstep : (code st nw ptrMark markHeight markWidth).program.Step s s') {ptrImg : Ptr}
    (hdel : deletions s' = deletions s ++ [ptrImg]) :
    ∃ r g, s.loc (.gather ()) = .complete r g ∧ ptrImg = r.2 := by
  have hne : deletions s' ≠ deletions s := by simp [hdel]
  have h' := h.tail hstep
  cases hstep with
  | pop t q next m rest ha hq => exact absurd rfl hne
  | push t q m next ha => exact absurd rfl hne
  | work t f ha =>
    cases t with
    | scatter => exact absurd ha send_work_none
    | worker m i =>
      refine absurd ?_ hne
      have hframe : (s.afterWork (.worker m i) (f s.mem)).mem.eventsOf (.gather ()) =
          s.mem.eventsOf (.gather ()) := WorkerCode.work_frame ha nofun
      rw [deletions_gather hnw h', deletions_gather hnw h, hframe]
    | gather m =>
      change .work f ∈ (gather nw).actions (.gather m) m (s.loc (.gather m)) at ha
      cases hloc : s.loc (.gather m) with
      | complete r g =>
        rw [hloc] at ha
        cases List.mem_singleton.mp ha
        refine ⟨r, g, rfl, ?_⟩
        have hnew : deletions s ++ [r.2] = deletions s ++ [ptrImg] := by
          rw [← hdel, deletions, deletions]
          simp [State.afterWork, Memory.record, gather, Event.deleted]
        exact (List.cons.inj (List.append_cancel_left hnew)).1.symm
      | finish g =>
        rw [hloc] at ha
        cases List.mem_singleton.mp ha
        refine absurd ?_ hne
        simp [deletions, State.afterWork, Memory.record, gather]
      | pop | returned =>
        rw [hloc] at ha
        simp [GatherCode.actions] at ha

/-- In the branch for a complete image its picture is the sequential one. -/
theorem pixels_of_complete (hnw : 1 ≤ nw)
    (h : (code st nw ptrMark markHeight markWidth).program.Reachable ⟨pixels, []⟩ s)
    {r : Result} {g : GatherVars} (hloc : s.loc (.gather ()) = .complete r g) :
    ∃ j < st.size, r = resultOf st j ∧
      s.mem.pixels (st.pix j) = (Seq.stamped st ptrMark markHeight markWidth pixels j).2 := by
  have hP := (feeds st ptrMark markHeight markWidth hnw).paints deals pixels
  rcases hP.full s h () r g hloc with ⟨j, hj, hr, hall⟩
  have hlt := List.mem_range.mp hj
  exact ⟨j, hlt, hr, hP.pixels_eq h hlt hall⟩

/-- The step that deletes an image finds the sequential picture in it. -/
theorem pixels_of_deletes {s' : NetState Unit Task nw} (hnw : 1 ≤ nw)
    (h : (code st nw ptrMark markHeight markWidth).program.Reachable ⟨pixels, []⟩ s)
    (hstep : (code st nw ptrMark markHeight markWidth).program.Step s s') {ptrImg : Ptr}
    (hdel : deletions s' = deletions s ++ [ptrImg]) :
    ∃ j < st.size, ptrImg = st.img j ∧
      s.mem.pixels (st.pix j) = (Seq.stamped st ptrMark markHeight markWidth pixels j).2 := by
  obtain ⟨r, g, hloc, rfl⟩ := complete_of_deletes hnw h hstep hdel
  obtain ⟨j, hj, rfl, hpixels⟩ := pixels_of_complete hnw h hloc
  exact ⟨j, hj, rfl, hpixels⟩

end Run

/-- In every run of the map each byte of a picture is the byte that was loaded or that of
the sequential program, until the image is deleted. When the gather is about to delete an
image, the whole picture is the one of the sequential program. At the end of a run all
images have been deleted so. -/
theorem map_pictures_seq (st : ImageStream) (ptrMark : Buffer) (markHeight markWidth : ℕ)
    (pixels : Ptr → Buffer) {nw : ℕ} (hnw : 1 ≤ nw) (s : NetState Unit Task nw)
    (h : (code st nw ptrMark markHeight markWidth).program.Reachable ⟨pixels, []⟩ s) :
    (∀ j < st.size, st.img j ∉ deletions s → ∀ p : ℕ,
      (s.mem.pixels (st.pix j))[p]? = (pixels (st.pix j))[p]? ∨
      (s.mem.pixels (st.pix j))[p]? =
        (Seq.stamped st ptrMark markHeight markWidth pixels j).2[p]?) ∧
    (∀ r g, s.loc (.gather ()) = .complete r g → ∃ j < st.size, r = resultOf st j ∧
      s.mem.pixels (st.pix j) = (Seq.stamped st ptrMark markHeight markWidth pixels j).2) ∧
    (∀ s', (code st nw ptrMark markHeight markWidth).program.Step s s' → ∀ ptrImg,
      deletions s' = deletions s ++ [ptrImg] → ∃ j < st.size, ptrImg = st.img j ∧
        s.mem.pixels (st.pix j) = (Seq.stamped st ptrMark markHeight markWidth pixels j).2) ∧
    ((code st nw ptrMark markHeight markWidth).program.Terminal s →
      deletions s = st.imgVector) := by
  have hP := (feeds st ptrMark markHeight markWidth hnw).paints deals pixels
  refine ⟨fun j hj _ p => ?_, fun r g hloc => pixels_of_complete hnw h hloc,
    fun s' hstep ptrImg hdel => pixels_of_deletes hnw h hstep hdel,
    fun hterm => deletions_terminal hnw h hterm⟩
  exact (Code.describes quiet _).byte_eq hP.cuts hP.alone hj h p

/-- Two workers have stamped their rows of the first of two images, and the gather is about
to delete it. -/
theorem map_pictures_seq_twoImages :
    ∃ s, (code twoImages 2 [0, 200, 49, 50] 2 2).program.Reachable
        ⟨fun _ => List.replicate 12 100, []⟩ s ∧
      s.loc (.gather ()) = .complete (0, twoImages.img 0) ⟨∅, 0, 0⟩ ∧
      s.mem.pixels (twoImages.pix 0) =
        [50, 100, 74, 100, 50, 100, 74, 100, 50, 100, 74, 100] := by
  have hrun : ((code twoImages 2 [0, 200, 49, 50] 2 2).program.exec
      ((code twoImages 2 [0, 200, 49, 50] 2 2).program.initial ⟨fun _ => List.replicate 12 100, []⟩)
      (List.replicate 2 (.scatter, 0) ++ List.replicate 7 (.worker () 0, 0) ++
        List.replicate 7 (.worker () 1, 0) ++ List.replicate 2 (.gather (), 0))).map
      (fun s => s.loc (.gather ())) =
        some (.complete (0, twoImages.img 0) ⟨∅, 0, 0⟩) := by rfl
  obtain ⟨s, hs, hloc⟩ := Program.exists_of_exec _ _ hrun
  obtain ⟨-, hcomplete, -, -⟩ := map_pictures_seq twoImages [0, 200, 49, 50] 2 2 _
    (show 1 ≤ 2 by decide) s hs
  obtain ⟨j, hj, hr, hpixels⟩ := hcomplete _ _ hloc
  obtain rfl : 0 = j := Int.natCast_inj.mp (congrArg Prod.fst hr)
  exact ⟨s, hs, hloc, hpixels⟩

end WaterMark.Map
