import WaterMark.Maps.Events

/-! # The farm of maps

`scatter` deals the images to the maps in turn and sends each image to all
workers of its map, every worker having its own queue. The gather of a map saves
an image once all workers of the map have sent their result of it.
-/

namespace WaterMark.FarmMap
open ChannelNetwork TaggedLog Pixels Gather Maps

structure Task where
  dataImg : Ptr
  image : Ptr
  number : ℤ
deriving DecidableEq

variable (st : ImageStream) (nmbMap nWorkerMap : ℕ)

/-- `make_tuple(dataImgVector[j],imgVector[j],j)`. -/
def taskOf (j : ℕ) : Task := ⟨st.pix j, st.img j, j⟩

def eofTask : Task := ⟨NULL, NULL, 0⟩

/-- The pushes of `scatter`, in the order of its loops. -/
def scatter : List (ℕ × Task) :=
  ((List.range st.size).flatMap fun j =>
    let mapIndex := j % nmbMap
    (List.range nWorkerMap).map fun i => (mapIndex * nWorkerMap + i, taskOf st j)) ++
  (List.range (nWorkerMap * nmbMap)).map fun i => (i, eofTask)

def worker (ptrMarker : Buffer) : WorkerCode Task where
  eof task := task.dataImg == NULL
  dataImg := Task.dataImg
  image := Task.image
  number task _ := task.number
  ptrMarker := ptrMarker
  onChunk _ := []
  onReturn := []

def savePath (imageId : ℤ) : String := "markedImageFarmMap/img_" ++ toString imageId ++ ".jpg"

def gather (mapID : ℕ) : GatherCode Task where
  nw := nWorkerMap
  onComplete workerResult pixels :=
    .save workerResult.1 (savePath workerResult.1) workerResult.2 (pixels (st.data workerResult.2))
  onReturn imgNumber :=
    [.printOut ("Map: " ++ toString mapID ++ "- Process: " ++ toString imgNumber ++ " images!")]

/-- The threads that `main` creates; `main` splits the rows of the mark anew for
each map, with the same result. -/
def code (ptrMark : Buffer) (markHeight markWidth : ℕ) :
    Code (Fin nmbMap) Task nWorkerMap where
  scatter := scatter st nmbMap nWorkerMap
  queue m i := i + nWorkerMap * m
  info _ i _ := infoVector markHeight markWidth nWorkerMap i
  worker := worker ptrMark
  gather m := gather st nWorkerMap m

/-! ## What `scatter` sends to a worker -/

/-- The images that `scatter` deals to a map. -/
def images (m : ℕ) : List ℕ := (List.range st.size).filter fun j => j % nmbMap = m

theorem mem_images {m j : ℕ} : j ∈ images st nmbMap m ↔ j < st.size ∧ j % nmbMap = m := by
  simp [images]

theorem images_increasing (m : ℕ) : (images st nmbMap m).Pairwise (· < ·) :=
  List.pairwise_lt_range.filter _

variable {nmbMap nWorkerMap}

/-- The two ways to compute the index of a queue agree. -/
theorem index_eq_iff {mapIndex m i k : ℕ} (hi : i < nWorkerMap) (hk : k < nWorkerMap) :
    mapIndex * nWorkerMap + i = k + nWorkerMap * m ↔ mapIndex = m ∧ i = k := by
  constructor
  · intro h
    have hdiv := congrArg (· / nWorkerMap) h
    simp only [Nat.add_mul_div_left _ _ (Nat.zero_lt_of_lt hi), Nat.div_eq_of_lt hk, Nat.zero_add,
      Nat.mul_comm mapIndex, Nat.mul_add_div (Nat.zero_lt_of_lt hi), Nat.div_eq_of_lt hi,
      Nat.add_zero] at hdiv
    subst hdiv
    rw [Nat.mul_comm] at h
    exact ⟨rfl, by omega⟩
  · rintro ⟨rfl, rfl⟩
    rw [Nat.mul_comm, Nat.add_comm]

theorem flatMap_ite {α : Type} (p : ℕ → Prop) [DecidablePred p] (f : ℕ → List α) (js : List ℕ) :
    (js.flatMap fun j => if p j then f j else []) = (js.filter p).flatMap f := by
  induction js with
  | nil => rfl
  | cons j js ih =>
    rw [List.flatMap_cons, ih, List.filter_cons]
    by_cases hj : p j <;> simp [hj]

theorem entries_scatter (m : Fin nmbMap) (i : Fin nWorkerMap) :
    entries ((i : ℕ) + nWorkerMap * m) (scatter st nmbMap nWorkerMap) =
      (images st nmbMap m).map (taskOf st) ++ [eofTask] := by
  have hlt : (i : ℕ) + nWorkerMap * m < nWorkerMap * nmbMap := by
    have hm := Nat.mul_le_mul_left nWorkerMap m.isLt
    have hi := i.isLt
    rw [Nat.mul_succ] at hm
    omega
  have himage (j : ℕ) : entries ((i : ℕ) + nWorkerMap * m) ((List.range nWorkerMap).map fun i' =>
      (j % nmbMap * nWorkerMap + i', taskOf st j)) =
        if j % nmbMap = m then [taskOf st j] else [] := by
    by_cases hj : j % nmbMap = m
    · have hround : ∀ i' < nWorkerMap, j % nmbMap * nWorkerMap + i' = i + nWorkerMap * m ↔ i' = i :=
        fun i' hi' => by simp only [index_eq_iff hi' i.isLt, hj, true_and]
      rw [entries_range nWorkerMap hround, if_pos i.isLt, if_pos hj]
    · rw [if_neg hj]
      apply entries_eq_nil
      intro e he
      rcases List.mem_map.mp he with ⟨i', hi', rfl⟩
      intro hc
      exact hj ((index_eq_iff (List.mem_range.mp hi') i.isLt).mp hc).1
  rw [scatter, entries_append, entries_flatMap, entries_range _ fun i' _ => Iff.rfl, if_pos hlt]
  simp only [himage]
  rw [flatMap_ite _ fun j => [taskOf st j], images, List.map_eq_flatMap]

theorem scatter_routed (hMap : 1 ≤ nmbMap) (hWorker : 1 ≤ nWorkerMap) :
    ∀ e ∈ scatter st nmbMap nWorkerMap, ∃ (m : Fin nmbMap) (i : Fin nWorkerMap),
      e.1 = i + nWorkerMap * m := by
  intro e he
  rcases List.mem_append.mp he with he | he
  · rcases List.mem_flatMap.mp he with ⟨j, -, he⟩
    rcases List.mem_map.mp he with ⟨i, hi, rfl⟩
    refine ⟨⟨j % nmbMap, Nat.mod_lt _ hMap⟩, ⟨i, List.mem_range.mp hi⟩, ?_⟩
    rw [Nat.mul_comm, Nat.add_comm]
  · rcases List.mem_map.mp he with ⟨k, hk, rfl⟩
    have hdiv : k / nWorkerMap < nmbMap := Nat.div_lt_of_lt_mul (List.mem_range.mp hk)
    exact ⟨⟨k / nWorkerMap, hdiv⟩, ⟨k % nWorkerMap, Nat.mod_lt _ hWorker⟩,
      (Nat.mod_add_div k nWorkerMap).symm⟩

theorem results_eq (ptrMark : Buffer) (js : List ℕ) :
    (worker ptrMark).results (js.map (taskOf st)) = js.map (resultOf st) := by
  apply List.ext_getElem
  · simp
  · intro k hk hk'
    simp [WorkerCode.results, worker, taskOf, resultOf]

theorem feeds (ptrMark : Buffer) (markHeight markWidth : ℕ) (hMap : 1 ≤ nmbMap)
    (hWorker : 1 ≤ nWorkerMap) :
    (code st nmbMap nWorkerMap ptrMark markHeight markWidth).Feeds
      (fun m => (images st nmbMap m).map (taskOf st)) eofTask where
  one_le := hWorker
  queue_inj m i m' i' h := by
    change (i : ℕ) + nWorkerMap * m = i' + nWorkerMap * m' at h
    rw [Nat.add_comm, Nat.mul_comm] at h
    rcases (index_eq_iff i.isLt i'.isLt).mp h with ⟨hm, hi⟩
    exact ⟨Fin.ext hm, Fin.ext hi⟩
  routed := scatter_routed st hMap hWorker
  feed := entries_scatter st
  proper m task htask := by
    rcases List.mem_map.mp htask with ⟨j, hj, rfl⟩
    exact beq_false_of_ne (st.pix_ne ((mem_images st nmbMap).mp hj).1)
  eof_last := rfl
  image_last := rfl
  results m := by
    change ResultStream ((worker ptrMark).results _)
    rw [results_eq]
    apply resultStream_map st (List.nodup_range.filter _)
    intro j hj
    exact ((mem_images st nmbMap).mp hj).1
  gather_nw m := rfl

/-! ## The protocol -/

section Protocol
variable {st} {ptrMark : Buffer} {markHeight markWidth : ℕ} {pixels : Ptr → Buffer}
  {s : NetState (Fin nmbMap) Task nWorkerMap}

def saveOf (st : ImageStream) (j : ℕ) : String × Ptr := (savePath j, st.img j)

def savesOf (s : NetState (Fin nmbMap) Task nWorkerMap) (m : Fin nmbMap) : List (String × Ptr) :=
  (s.mem.eventsOf (.gather m)).filterMap Event.saved

def saves (s : NetState (Fin nmbMap) Task nWorkerMap) : List (String × Ptr) :=
  (s.mem.events.map Prod.snd).filterMap Event.saved

theorem saved_worker {e : Event Task} (h : (worker ptrMark).Makes e) : e.saved = none :=
  h.hidden (fun _ => rfl) (by simp [worker]) (by simp [worker])

theorem saved_printed {nmb mapID : ℕ} {imgNumber : ℤ} {e : Event Task}
    (h : e ∈ (gather st nmb mapID).onReturn imgNumber) : e.saved = none := by
  rw [List.mem_singleton.mp h]
  rfl

theorem shows (st : ImageStream) (nWorkerMap m : ℕ) :
    (gather st nWorkerMap m).Shows Event.saved fun r => (savePath r.1, r.2) where
  complete _ _ := rfl
  printed _ := rfl

theorem savesOf_eq (hMap : 1 ≤ nmbMap) (hWorker : 1 ≤ nWorkerMap)
    (h : (code st nmbMap nWorkerMap ptrMark markHeight markWidth).program.Reachable ⟨pixels, []⟩ s)
    (m : Fin nmbMap) : ∃ n, savesOf s m = ((images st nmbMap m).take n).map (saveOf st) := by
  have hF := feeds st ptrMark markHeight markWidth hMap hWorker
  rcases hF.shown h (shows st nWorkerMap m) with ⟨n, hn⟩
  change savesOf s m = (((worker ptrMark).results _).take n).map _ at hn
  rw [results_eq, ← List.map_take, List.map_map] at hn
  exact ⟨n, hn⟩

theorem savesOf_terminal (hMap : 1 ≤ nmbMap) (hWorker : 1 ≤ nWorkerMap)
    (h : (code st nmbMap nWorkerMap ptrMark markHeight markWidth).program.Reachable ⟨pixels, []⟩ s)
    (hterm : (code st nmbMap nWorkerMap ptrMark markHeight markWidth).program.Terminal s)
    (m : Fin nmbMap) : savesOf s m = (images st nmbMap m).map (saveOf st) := by
  have hF := feeds st ptrMark markHeight markWidth hMap hWorker
  have hall := hF.shown_terminal h hterm (shows st nWorkerMap m)
  change savesOf s m = ((worker ptrMark).results _).map _ at hall
  rw [results_eq, List.map_map] at hall
  exact hall

theorem countP_images (hMap : 1 ≤ nmbMap) {α : Type} (f : ℕ → α) (p : α → Bool) :
    ((List.range st.size).map f).countP p =
      ∑ m : Fin nmbMap, ((images st nmbMap m).map f).countP p := by
  have hdealt := countP_eq_sum Finset.univ p (l := (List.range st.size).map fun j =>
    ((⟨j % nmbMap, Nat.mod_lt _ hMap⟩ : Fin nmbMap), f j)) fun e _ => Finset.mem_univ e.1
  rw [List.map_map] at hdealt
  refine hdealt.trans (Finset.sum_congr rfl fun m _ => ?_)
  rw [entries_map (fun j => (⟨j % nmbMap, Nat.mod_lt _ hMap⟩ : Fin nmbMap)) f, images]
  simp only [Fin.ext_iff]

theorem saves_terminal (hMap : 1 ≤ nmbMap) (hWorker : 1 ≤ nWorkerMap)
    (h : (code st nmbMap nWorkerMap ptrMark markHeight markWidth).program.Reachable ⟨pixels, []⟩ s)
    (hterm : (code st nmbMap nWorkerMap ptrMark markHeight markWidth).program.Terminal s) :
    (saves s).Perm ((List.range st.size).map (saveOf st)) := by
  have hF := feeds st ptrMark markHeight markWidth hMap hWorker
  apply List.perm_iff_count.mpr
  intro a
  have hsum : (saves s).count a = ∑ m, (savesOf s m).count a :=
    Code.count_shown hF.one_le_gather h (fun _ he => saved_worker he) a
  rw [hsum, List.count, countP_images hMap]
  apply Finset.sum_congr rfl
  intro m _
  rw [savesOf_terminal hMap hWorker h hterm m]

/-- A save is made by the gather of the image's map, after all workers of the
map have finished their chunk. -/
theorem save_caused (hMap : 1 ≤ nmbMap) (hWorker : 1 ≤ nWorkerMap)
    (h : (code st nmbMap nWorkerMap ptrMark markHeight markWidth).program.Reachable ⟨pixels, []⟩ s)
    {before after : List (Thread (Fin nmbMap) nWorkerMap × Event Task)}
    {t : Thread (Fin nmbMap) nWorkerMap} {imageId : ℤ} {path : String} {ptrImg : Ptr}
    {picture : Buffer}
    (hsplit : s.mem.events = before ++ (t, .save imageId path ptrImg picture) :: after) :
    ∃ j < st.size, ∃ m : Fin nmbMap, t = .gather m ∧ j % nmbMap = m ∧ imageId = j ∧
      path = savePath j ∧ ptrImg = st.img j ∧
      ∀ i, (.worker m i, .chunkDone (taskOf st j)) ∈ before := by
  have hF := feeds st ptrMark markHeight markWidth hMap hWorker
  have hmem : .save imageId path ptrImg picture ∈ s.mem.eventsOf t :=
    mem_entries.mpr (by simp [hsplit])
  rcases Code.gather_or_makes hF.one_le_gather h hmem with ⟨m, rfl⟩ | hmakes
  · rcases hF.caused h before _ after hsplit m rfl with ⟨k, hk, ⟨pix, he⟩, hdone⟩ | ⟨n, he⟩
    · rw [List.length_map] at hk
      simp only [List.getElem_map] at he hdone
      cases he
      rcases (mem_images st nmbMap).mp (List.getElem_mem hk) with ⟨hj, hjm⟩
      exact ⟨_, hj, m, rfl, hjm, rfl, rfl, rfl, hdone⟩
    · cases saved_printed he
  · cases saved_worker hmakes

end Protocol

/-- All threads have returned; nothing is left in a queue or in a pool. -/
structure Finished (st : ImageStream) {nmbMap nWorkerMap : ℕ}
    (s : NetState (Fin nmbMap) Task nWorkerMap) : Prop where
  scatter : (scatter st nmbMap nWorkerMap).length ≤ s.loc .scatter
  workers : ∀ m i, s.loc (.worker m i) = .returned
  gathers : ∀ m, ∃ g, s.loc (.gather m) = .returned g ∧ g.pool = ∅
  queues : ∀ q, s.queue q = []

/-- The protocol of the farm of maps: a gather saves an image of its map under
the image's number and only when the image is fully stamped; it saves in
increasing order; and every run comes to an end, with all images saved once. -/
theorem farmMap_protocol (st : ImageStream) (ptrMark : Buffer) (markHeight markWidth : ℕ)
    (pixels : Ptr → Buffer) {nmbMap nWorkerMap : ℕ} (hMap : 1 ≤ nmbMap) (hWorker : 1 ≤ nWorkerMap)
    (s : NetState (Fin nmbMap) Task nWorkerMap)
    (h : (code st nmbMap nWorkerMap ptrMark markHeight markWidth).program.Reachable
      ⟨pixels, []⟩ s) :
    (∀ before t (imageId : ℤ) path ptrImg picture after,
      s.mem.events = before ++ (t, .save imageId path ptrImg picture) :: after →
        ∃ j < st.size, ∃ m : Fin nmbMap, t = .gather m ∧ j % nmbMap = m ∧ imageId = j ∧
          path = savePath j ∧ ptrImg = st.img j ∧
          ∀ i, (.worker m i, .chunkDone (taskOf st j)) ∈ before) ∧
    (∀ m, ∃ js : List ℕ, js.Pairwise (· < ·) ∧ savesOf s m = js.map (saveOf st)) ∧
    ((code st nmbMap nWorkerMap ptrMark markHeight markWidth).program.Terminal s →
      Finished st s ∧ (saves s).Perm ((List.range st.size).map (saveOf st))) ∧
    ∃ s', Relation.ReflTransGen
      (code st nmbMap nWorkerMap ptrMark markHeight markWidth).program.Step s s' ∧
        (code st nmbMap nWorkerMap ptrMark markHeight markWidth).program.Terminal s' := by
  have hF := feeds st ptrMark markHeight markWidth hMap hWorker
  refine ⟨?_, ?_, ?_, ?_⟩
  · intro before t imageId path ptrImg picture after hsplit
    exact save_caused hMap hWorker h hsplit
  · intro m
    rcases savesOf_eq hMap hWorker h m with ⟨n, hn⟩
    exact ⟨_, (images_increasing st nmbMap m).sublist (List.take_sublist n _), hn⟩
  · intro hterm
    refine ⟨⟨Code.Feeds.scatter_finished hterm, ?_, ?_, hF.queues_empty h hterm⟩,
      saves_terminal hMap hWorker h hterm⟩
    · intro m i
      exact (hF.worker_finished h hterm m i).1
    · intro m
      exact ⟨_, (hF.gather_finished h hterm m).1, rfl⟩
  · exact (Code.ranking _ hF.routed).exists_terminal s

/-- Two maps of two workers stamp two images of four pixels, and a complete run saves both. -/
theorem farmMap_protocol_twoImages :
    ∃ s, (code twoImages 2 2 [0, 200, 49, 50] 2 2).program.Reachable
        ⟨fun _ => List.replicate 12 100, []⟩ s ∧
      (code twoImages 2 2 [0, 200, 49, 50] 2 2).program.Terminal s ∧
      (saves s).Perm [(savePath 0, 1), (savePath 1, 3)] := by
  have hall := farmMap_protocol twoImages [0, 200, 49, 50] 2 2 (fun _ => List.replicate 12 100)
    (show 1 ≤ 2 by decide) (show 1 ≤ 2 by decide)
  obtain ⟨s, hs, hterm⟩ := (hall _ .refl).2.2.2
  exact ⟨s, hs, hterm, ((hall s hs).2.2.1 hterm).2⟩

end WaterMark.FarmMap
