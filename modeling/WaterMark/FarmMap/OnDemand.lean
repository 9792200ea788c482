import WaterMark.FarmMap
import WaterMark.Maps.SharedEnd

/-! # The farm of maps with one queue for each map

In `test/farm_map.cpp` the workers of a map share one queue. `scatter` pushes the
chunks of an image on the queue of its map, and whichever worker comes first
takes the next chunk. After the images it pushes one end of the stream for each
worker.
-/

namespace WaterMark.OnDemand
open ChannelNetwork TaggedLog Pixels Gather Maps
open FarmMap (images mem_images images_increasing flatMap_ite countP_images)

/-- The message of a map's queue, where `infoChunk` points to an entry of `infoVector`. -/
structure Task (nWorkerMap : ℕ) where
  dataImg : Ptr
  infoChunk : Option (Fin nWorkerMap)
  image : Ptr
  number : ℤ
deriving DecidableEq

variable (st : ImageStream) (nmbMap nWorkerMap : ℕ)

/-- `make_tuple(dataImgVector[j],infoChunk[i],imgVector[j],j)`. -/
def taskOf {nWorkerMap : ℕ} (j : ℕ) (i : Fin nWorkerMap) : Task nWorkerMap :=
  ⟨st.pix j, some i, st.img j, j⟩

/-- `make_tuple(eofData,eofChunk,eofImage,0)`. -/
def eofTask : Task nWorkerMap := ⟨NULL, none, NULL, 0⟩

/-- The pushes of `scatter`, in the order of its loops. -/
def scatter : List (ℕ × Task nWorkerMap) :=
  ((List.range st.size).flatMap fun j =>
    let mapIndex := j % nmbMap
    (List.finRange nWorkerMap).map fun i => (mapIndex, taskOf st j i)) ++
  (List.range nmbMap).flatMap fun i =>
    (List.range nWorkerMap).map fun _ => (i, eofTask nWorkerMap)

def worker (ptrMarker : Buffer) : WorkerCode (Task nWorkerMap) where
  eof task := task.dataImg == NULL
  dataImg := Task.dataImg
  image := Task.image
  number task _ := task.number
  ptrMarker := ptrMarker
  onChunk _ := []
  onReturn := []

def savePath (imageId : ℤ) : String := "markedImageMap/img_" ++ toString imageId ++ ".jpg"

def gather (mapID : ℕ) : GatherCode (Task nWorkerMap) where
  nw := nWorkerMap
  onComplete workerResult pixels :=
    .save workerResult.1 (savePath workerResult.1) workerResult.2 (pixels (st.data workerResult.2))
  onReturn imgNumber :=
    [.printOut ("Map: " ++ toString mapID ++ "- Process: " ++ toString imgNumber ++ " images!")]

/-- The threads that `main` creates: for each map `m` one gather and `nWorkerMap`
workers with `m` as their `mapID`. A worker returns before it would read a null
`infoChunk`. -/
def code (ptrMark : Buffer) (markHeight markWidth : ℕ) :
    Code (Fin nmbMap) (Task nWorkerMap) nWorkerMap where
  scatter := scatter st nmbMap nWorkerMap
  queue m _ := m
  info _ i task := infoVector markHeight markWidth nWorkerMap (task.infoChunk.getD i)
  worker := worker nWorkerMap ptrMark
  gather m := gather st nWorkerMap m

/-! ## What `scatter` sends to a map -/

def chunksOf (js : List ℕ) : List (Task nWorkerMap) :=
  js.flatMap fun j => (List.finRange nWorkerMap).map (taskOf st j)

variable {nmbMap nWorkerMap}

theorem mem_chunksOf {js : List ℕ} {task : Task nWorkerMap} :
    task ∈ chunksOf st nWorkerMap js ↔ ∃ j ∈ js, ∃ c, task = taskOf st j c := by
  simp [chunksOf, eq_comm]

theorem taskOf_inj {j k : ℕ} {c d : Fin nWorkerMap} (h : taskOf st j c = taskOf st k d) :
    j = k ∧ c = d := by
  simp only [taskOf, Task.mk.injEq, Option.some.injEq, Int.natCast_inj] at h
  exact ⟨h.2.2.2, h.2.1⟩

theorem chunksOf_nodup {js : List ℕ} (hjs : js.Nodup) : (chunksOf st nWorkerMap js).Nodup := by
  rw [chunksOf, List.nodup_flatMap]
  constructor
  · intro j _
    exact (List.nodup_finRange nWorkerMap).map fun c d h => (taskOf_inj st h).2
  · refine hjs.imp fun {j k} hne => ?_
    rw [Function.onFun, List.disjoint_left]
    intro task hj hk
    obtain ⟨c, -, rfl⟩ := List.mem_map.mp hj
    obtain ⟨d, -, h⟩ := List.mem_map.mp hk
    exact hne (taskOf_inj st h).1.symm

theorem resultCount_chunksOf (ptrMark : Buffer) {js : List ℕ}
    (hjs : ∀ j ∈ js, j < st.size) (k : ℕ) :
    resultCount k ((chunksOf st nWorkerMap js).map (worker nWorkerMap ptrMark).result) =
      js.count k * nWorkerMap := by
  have hround (j : ℕ) (hj : j < st.size) :
      ((List.finRange nWorkerMap).map (taskOf st j)).countP
        (isResultOf k ∘ (worker nWorkerMap ptrMark).result) = if j = k then nWorkerMap else 0 := by
    have hresult (c : Fin nWorkerMap) :
        isResultOf k ((worker nWorkerMap ptrMark).result (taskOf st j c)) = decide (j = k) := by
      simp [WorkerCode.result, worker, taskOf, isResultOf, st.img_ne hj]
    rw [List.countP_map]
    by_cases hjk : j = k
    · have hall : ∀ c ∈ List.finRange nWorkerMap,
          ((isResultOf k ∘ (worker nWorkerMap ptrMark).result) ∘ taskOf st j) c = true :=
        fun c _ => (hresult c).trans (decide_eq_true hjk)
      rw [if_pos hjk, List.countP_eq_length.mpr hall, List.length_finRange]
    · rw [if_neg hjk]
      exact List.countP_eq_zero.mpr fun c _ => by simp [hresult, hjk]
  rw [resultCount, List.countP_map, chunksOf, List.countP_flatMap]
  have hmap : js.map (List.countP (isResultOf k ∘ (worker nWorkerMap ptrMark).result) ∘ fun j =>
      (List.finRange nWorkerMap).map (taskOf st j)) =
        js.map fun j => if j = k then nWorkerMap else 0 :=
    List.map_congr_left fun j hj => hround j (hjs j hj)
  rw [hmap, List.sum_map_eq_nsmul_single k _ fun j hj _ => if_neg hj, if_pos rfl, smul_eq_mul]

theorem entries_tagged {β : Type} (m tag : ℕ) (value : β → Task nWorkerMap) (bs : List β) :
    entries m (bs.map fun b => (tag, value b)) = if tag = m then bs.map value else [] := by
  rw [entries_map (fun _ => tag) value]
  by_cases hm : tag = m <;> simp [hm]

theorem entries_dealt (m : ℕ) : entries m ((List.range st.size).flatMap fun j =>
    (List.finRange nWorkerMap).map fun i => (j % nmbMap, taskOf st j i)) =
      chunksOf st nWorkerMap (images st nmbMap m) := by
  rw [entries_flatMap]
  simp only [entries_tagged]
  rw [flatMap_ite fun j => j % nmbMap = m]
  rfl

theorem entries_scatter (m : Fin nmbMap) : entries (m : ℕ) (scatter st nmbMap nWorkerMap) =
    chunksOf st nWorkerMap (images st nmbMap m) ++
      List.replicate nWorkerMap (eofTask nWorkerMap) := by
  have hlast : (List.range nmbMap).filter (fun i => i = (m : ℕ)) = [(m : ℕ)] := by
    rw [List.filter_eq, List.count_eq_one_of_mem List.nodup_range (List.mem_range.mpr m.isLt)]
    rfl
  rw [scatter, entries_append, entries_dealt, entries_flatMap]
  simp only [entries_tagged]
  rw [flatMap_ite fun i => i = (m : ℕ), hlast]
  simp

theorem count_chunksOf (hMap : 1 ≤ nmbMap) (task : Task nWorkerMap) :
    (chunksOf st nWorkerMap (List.range st.size)).count task =
      ∑ m : Fin nmbMap, (chunksOf st nWorkerMap (images st nmbMap m)).count task := by
  have hdealt : ((List.range st.size).flatMap fun j =>
      (List.finRange nWorkerMap).map fun i => (j % nmbMap, taskOf st j i)).map Prod.snd =
        chunksOf st nWorkerMap (List.range st.size) := by
    simp [chunksOf, List.map_flatMap, Function.comp_def]
  rw [← hdealt, List.count, countP_eq_sum (Finset.range nmbMap)]
  · simp only [entries_dealt]
    exact (Fin.sum_univ_eq_sum_range (fun m =>
      (chunksOf st nWorkerMap (images st nmbMap m)).count task) nmbMap).symm
  · intro e he
    obtain ⟨j, -, he⟩ := List.mem_flatMap.mp he
    obtain ⟨i, -, rfl⟩ := List.mem_map.mp he
    exact Finset.mem_range.mpr (Nat.mod_lt j hMap)

theorem shares (ptrMark : Buffer) (markHeight markWidth : ℕ) (hMap : 1 ≤ nmbMap)
    (hWorker : 1 ≤ nWorkerMap) :
    (code st nmbMap nWorkerMap ptrMark markHeight markWidth).Shares (fun m => m)
      (fun m => chunksOf st nWorkerMap (images st nmbMap m)) (eofTask nWorkerMap)
      (fun m => (images st nmbMap m).map (resultOf st)) where
  one_le := hWorker
  queue_eq m i := rfl
  index_inj m m' h := Fin.ext h
  routed e he := by
    rcases List.mem_append.mp he with he | he
    · rcases List.mem_flatMap.mp he with ⟨j, -, he⟩
      rcases List.mem_map.mp he with ⟨i, -, rfl⟩
      exact ⟨⟨j % nmbMap, Nat.mod_lt _ hMap⟩, rfl⟩
    · rcases List.mem_flatMap.mp he with ⟨i, hi, he⟩
      rcases List.mem_map.mp he with ⟨_, -, rfl⟩
      exact ⟨⟨i, List.mem_range.mp hi⟩, rfl⟩
  feed := entries_scatter st
  proper m task htask := by
    rcases (mem_chunksOf st).mp htask with ⟨j, hj, c, rfl⟩
    exact beq_false_of_ne (st.pix_ne ((mem_images st nmbMap).mp hj).1)
  nodup m := chunksOf_nodup st (images_increasing st nmbMap m).nodup
  eof_last := rfl
  image_last := rfl
  plain := ⟨fun _ _ => rfl, fun _ => rfl, rfl⟩
  resultStream m := by
    apply resultStream_map st (List.nodup_range.filter _)
    intro j hj
    exact ((mem_images st nmbMap).mp hj).1
  result_mem m task htask := by
    rcases (mem_chunksOf st).mp htask with ⟨j, hj, c, rfl⟩
    exact List.mem_map_of_mem (f := resultOf st) hj
  chunks m r hr := by
    rcases List.mem_map.mp hr with ⟨j, hj, rfl⟩
    change resultCount (j : ℤ) (_ : List Result) = nWorkerMap
    have hcount := List.count_eq_one_of_mem (images_increasing st nmbMap m).nodup hj
    have hall : resultCount j ((chunksOf st nWorkerMap (images st nmbMap m)).map _) = _ :=
      resultCount_chunksOf st ptrMark (fun k hk => ((mem_images st nmbMap).mp hk).1) j
    rwa [hcount, Nat.one_mul] at hall
  gather_nw m := rfl

/-! ## The protocol -/

section Protocol
variable {st} {ptrMark : Buffer} {markHeight markWidth : ℕ} {pixels : Ptr → Buffer}
  {s : NetState (Fin nmbMap) (Task nWorkerMap) nWorkerMap}

def stamped (s : NetState (Fin nmbMap) (Task nWorkerMap) nWorkerMap) : List (Task nWorkerMap) :=
  stampedOf (s.mem.events.map Prod.snd)

def saveOf (st : ImageStream) (j : ℕ) : String × Ptr := (savePath j, st.img j)

def saves (s : NetState (Fin nmbMap) (Task nWorkerMap) nWorkerMap) : List (String × Ptr) :=
  (s.mem.events.map Prod.snd).filterMap Event.saved

theorem shows (st : ImageStream) (nWorkerMap m : ℕ) :
    (gather st nWorkerMap m).Shows Event.saved fun r => (savePath r.1, r.2) where
  complete _ _ := rfl
  printed _ := rfl

theorem saved_worker {e : Event (Task nWorkerMap)} (h : (worker nWorkerMap ptrMark).Makes e) :
    e.saved = none :=
  h.hidden (fun _ => rfl) (by simp [worker]) (by simp [worker])

theorem stampedOf_gather (hMap : 1 ≤ nmbMap) (hWorker : 1 ≤ nWorkerMap)
    (h : (code st nmbMap nWorkerMap ptrMark markHeight markWidth).program.Reachable ⟨pixels, []⟩ s)
    (m : Fin nmbMap) : stampedOf (s.mem.eventsOf (.gather m)) = [] := by
  have hS := shares st ptrMark markHeight markWidth hMap hWorker
  rcases hS.gather_events h m with ⟨complete, completions, printed, hsplit, -, hev, hprinted⟩
  rw [hsplit, stampedOf, List.filterMap_append, hev.filterMap_none fun _ _ => rfl]
  rcases hprinted with rfl | rfl
  · rfl
  · rfl

theorem count_stamped (hMap : 1 ≤ nmbMap) (hWorker : 1 ≤ nWorkerMap)
    (h : (code st nmbMap nWorkerMap ptrMark markHeight markWidth).program.Reachable ⟨pixels, []⟩ s)
    (task : Task nWorkerMap) : (stamped s).count task = ∑ m, (stampedBy s m).count task :=
  Code.count_stamped (shares st ptrMark markHeight markWidth hMap hWorker).one_le_gather h
    (stampedOf_gather hMap hWorker h) task

/-- Each chunk is stamped once at most. -/
theorem stamped_subperm (hMap : 1 ≤ nmbMap) (hWorker : 1 ≤ nWorkerMap)
    (h : (code st nmbMap nWorkerMap ptrMark markHeight markWidth).program.Reachable
      ⟨pixels, []⟩ s) :
    (stamped s).Subperm (chunksOf st nWorkerMap (List.range st.size)) := by
  have hS := shares st ptrMark markHeight markWidth hMap hWorker
  apply List.subperm_ext_iff.mpr
  intro task _
  rw [count_stamped hMap hWorker h, count_chunksOf st hMap]
  exact Finset.sum_le_sum fun m _ => (hS.stampedBy_subperm h m).count_le task

theorem stamped_perm (hMap : 1 ≤ nmbMap) (hWorker : 1 ≤ nWorkerMap)
    (h : (code st nmbMap nWorkerMap ptrMark markHeight markWidth).program.Reachable ⟨pixels, []⟩ s)
    (hterm : (code st nmbMap nWorkerMap ptrMark markHeight markWidth).program.Terminal s) :
    (stamped s).Perm (chunksOf st nWorkerMap (List.range st.size)) := by
  have hS := shares st ptrMark markHeight markWidth hMap hWorker
  apply List.perm_iff_count.mpr
  intro task
  rw [count_stamped hMap hWorker h, count_chunksOf st hMap]
  exact Finset.sum_congr rfl fun m _ => (hS.stampedBy_perm h hterm m).count_eq task

theorem map_unique {m m' : Fin nmbMap} {task : Task nWorkerMap}
    (h : task ∈ chunksOf st nWorkerMap (images st nmbMap m))
    (h' : task ∈ chunksOf st nWorkerMap (images st nmbMap m')) : m' = m := by
  rcases (mem_chunksOf st).mp h with ⟨j, hj, c, rfl⟩
  rcases (mem_chunksOf st).mp h' with ⟨k, hk, d, he⟩
  obtain rfl := (taskOf_inj st he).1
  exact Fin.ext (((mem_images st nmbMap).mp hk).2.symm.trans ((mem_images st nmbMap).mp hj).2)

/-- The chunk that a worker is stamping is stamped by nobody else. -/
theorem stamping (hMap : 1 ≤ nmbMap) (hWorker : 1 ≤ nWorkerMap)
    (h : (code st nmbMap nWorkerMap ptrMark markHeight markWidth).program.Reachable ⟨pixels, []⟩ s)
    {m : Fin nmbMap} {i : Fin nWorkerMap} {task : Task nWorkerMap} {loop : LoopState} {n : ℕ}
    (hloc : s.loc (.worker m i) = .stamp task loop n) :
    (∃ j < st.size, j % nmbMap = m ∧ ∃ c, task = taskOf st j c) ∧ task ∉ stamped s ∧
      ∀ m' i' loop' n', s.loc (.worker m' i') = .stamp task loop' n' → m' = m ∧ i' = i := by
  have hS := shares st ptrMark markHeight markWidth hMap hWorker
  obtain ⟨hmem, hnot, hunique⟩ := hS.stamping h hloc
  refine ⟨?_, ?_, ?_⟩
  · rcases (mem_chunksOf st).mp hmem with ⟨j, hj, c, rfl⟩
    rcases (mem_images st nmbMap).mp hj with ⟨hj, hjm⟩
    exact ⟨j, hj, hjm, c, rfl⟩
  · intro hstamped
    have hpos := List.count_pos_iff.mpr hstamped
    rw [count_stamped hMap hWorker h] at hpos
    obtain ⟨m', -, hm'⟩ := Finset.exists_ne_zero_of_sum_ne_zero hpos.ne'
    have hmem' := List.count_pos_iff.mp (Nat.pos_of_ne_zero hm')
    obtain rfl := map_unique hmem ((hS.stampedBy_subperm h m').subset hmem')
    exact hnot hmem'
  · intro m' i' loop' n' hloc'
    obtain rfl := map_unique hmem (hS.stamping h hloc').1
    exact ⟨rfl, hunique i' loop' n' hloc'⟩

theorem savesOf_subperm (hMap : 1 ≤ nmbMap) (hWorker : 1 ≤ nWorkerMap)
    (h : (code st nmbMap nWorkerMap ptrMark markHeight markWidth).program.Reachable ⟨pixels, []⟩ s)
    (m : Fin nmbMap) : ((s.mem.eventsOf (.gather m)).filterMap Event.saved).Subperm
      ((images st nmbMap m).map (saveOf st)) := by
  have hS := shares st ptrMark markHeight markWidth hMap hWorker
  have hsaved := hS.shown_subperm h (shows st nWorkerMap m)
  rwa [List.map_map] at hsaved

theorem savesOf_perm (hMap : 1 ≤ nmbMap) (hWorker : 1 ≤ nWorkerMap)
    (h : (code st nmbMap nWorkerMap ptrMark markHeight markWidth).program.Reachable ⟨pixels, []⟩ s)
    (hterm : (code st nmbMap nWorkerMap ptrMark markHeight markWidth).program.Terminal s)
    (m : Fin nmbMap) : ((s.mem.eventsOf (.gather m)).filterMap Event.saved).Perm
      ((images st nmbMap m).map (saveOf st)) := by
  have hS := shares st ptrMark markHeight markWidth hMap hWorker
  have hsaved := hS.shown_perm h hterm (shows st nWorkerMap m)
  rwa [List.map_map] at hsaved

theorem count_saves (hMap : 1 ≤ nmbMap) (hWorker : 1 ≤ nWorkerMap)
    (h : (code st nmbMap nWorkerMap ptrMark markHeight markWidth).program.Reachable ⟨pixels, []⟩ s)
    (a : String × Ptr) : (saves s).count a =
      ∑ m, ((s.mem.eventsOf (.gather m)).filterMap Event.saved).count a :=
  Code.count_shown (shares st ptrMark markHeight markWidth hMap hWorker).one_le_gather h
    (fun _ he => saved_worker he) a

theorem saves_subperm (hMap : 1 ≤ nmbMap) (hWorker : 1 ≤ nWorkerMap)
    (h : (code st nmbMap nWorkerMap ptrMark markHeight markWidth).program.Reachable
      ⟨pixels, []⟩ s) : (saves s).Subperm ((List.range st.size).map (saveOf st)) := by
  apply List.subperm_ext_iff.mpr
  intro a _
  rw [count_saves hMap hWorker h, List.count, countP_images hMap]
  exact Finset.sum_le_sum fun m _ => (savesOf_subperm hMap hWorker h m).count_le a

theorem saves_perm (hMap : 1 ≤ nmbMap) (hWorker : 1 ≤ nWorkerMap)
    (h : (code st nmbMap nWorkerMap ptrMark markHeight markWidth).program.Reachable ⟨pixels, []⟩ s)
    (hterm : (code st nmbMap nWorkerMap ptrMark markHeight markWidth).program.Terminal s) :
    (saves s).Perm ((List.range st.size).map (saveOf st)) := by
  apply List.perm_iff_count.mpr
  intro a
  rw [count_saves hMap hWorker h, List.count, countP_images hMap]
  exact Finset.sum_congr rfl fun m _ => (savesOf_perm hMap hWorker h hterm m).count_eq a

/-- A save is made by the gather of the image's map, after all chunks of the image
are finished. -/
theorem save_caused (hMap : 1 ≤ nmbMap) (hWorker : 1 ≤ nWorkerMap)
    (h : (code st nmbMap nWorkerMap ptrMark markHeight markWidth).program.Reachable ⟨pixels, []⟩ s)
    {before after : List (Thread (Fin nmbMap) nWorkerMap × Event (Task nWorkerMap))}
    {t : Thread (Fin nmbMap) nWorkerMap} {imageId : ℤ} {path : String} {ptrImg : Ptr}
    {picture : Buffer}
    (hsplit : s.mem.events = before ++ (t, .save imageId path ptrImg picture) :: after) :
    ∃ j < st.size, ∃ m : Fin nmbMap, t = .gather m ∧ j % nmbMap = m ∧ imageId = j ∧
      path = savePath j ∧ ptrImg = st.img j ∧
      ∀ c, ∃ i, (.worker m i, .chunkDone (taskOf st j c)) ∈ before := by
  have hS := shares st ptrMark markHeight markWidth hMap hWorker
  have hmem : .save imageId path ptrImg picture ∈ s.mem.eventsOf t :=
    mem_entries.mpr (by simp [hsplit])
  rcases Code.gather_or_makes hS.one_le_gather h hmem with ⟨m, rfl⟩ | hmakes
  · rcases hS.caused h before _ after hsplit m rfl with ⟨r, ⟨hr, hdone⟩, pix, he⟩ | ⟨n, he⟩
    · rcases List.mem_map.mp hr with ⟨j, hj, rfl⟩
      cases he
      rcases (mem_images st nmbMap).mp hj with ⟨hlt, hjm⟩
      refine ⟨j, hlt, m, rfl, hjm, rfl, rfl, rfl, fun c => ?_⟩
      exact hdone _ ((mem_chunksOf st).mpr ⟨j, hj, c, rfl⟩) rfl
    · cases List.mem_singleton.mp he
  · cases saved_worker hmakes

end Protocol

/-- All threads have returned, each worker after one end of the stream; nothing is
left in a queue or in a pool. -/
structure Finished (st : ImageStream) {nmbMap nWorkerMap : ℕ}
    (s : NetState (Fin nmbMap) (Task nWorkerMap) nWorkerMap) : Prop where
  scatter : (scatter st nmbMap nWorkerMap).length ≤ s.loc .scatter
  workers : ∀ m i, s.loc (.worker m i) = .returned ∧
    (s.ins (.worker m i) (.workerQueue m)).count (eofTask nWorkerMap) = 1
  gathers : ∀ m, ∃ g, s.loc (.gather m) = .returned g ∧ g.pool = ∅
  queues : ∀ q, s.queue q = []

theorem finished (hMap : 1 ≤ nmbMap) (hWorker : 1 ≤ nWorkerMap) {ptrMark : Buffer}
    {markHeight markWidth : ℕ} {pixels : Ptr → Buffer}
    {s : NetState (Fin nmbMap) (Task nWorkerMap) nWorkerMap}
    (h : (code st nmbMap nWorkerMap ptrMark markHeight markWidth).program.Reachable ⟨pixels, []⟩ s)
    (hterm : (code st nmbMap nWorkerMap ptrMark markHeight markWidth).program.Terminal s) :
    Finished st s where
  scatter := Code.Feeds.scatter_finished hterm
  workers m i := by
    have hS := shares st ptrMark markHeight markWidth hMap hWorker
    have hmarker := hS.marker_eq h hterm m _ (Code.Feeds.mem_workers.mpr ⟨i, rfl⟩)
    exact ⟨hS.worker_returned h hterm m i, hmarker⟩
  gathers m := by
    have hS := shares st ptrMark markHeight markWidth hMap hWorker
    exact ⟨_, (hS.gather_finished h hterm m).1, rfl⟩
  queues := (shares st ptrMark markHeight markWidth hMap hWorker).queues_empty h hterm

/-- The protocol of the farm of maps with shared queues: each chunk is stamped once
at most, by one worker; a gather saves an image of its map under the image's
number, once at most and only when the image is fully stamped; no worker takes
two ends of the stream; and every run comes to an end, with all chunks stamped
and all images saved. -/
theorem onDemand_protocol (st : ImageStream) (ptrMark : Buffer) (markHeight markWidth : ℕ)
    (pixels : Ptr → Buffer) {nmbMap nWorkerMap : ℕ} (hMap : 1 ≤ nmbMap) (hWorker : 1 ≤ nWorkerMap)
    (s : NetState (Fin nmbMap) (Task nWorkerMap) nWorkerMap)
    (h : (code st nmbMap nWorkerMap ptrMark markHeight markWidth).program.Reachable
      ⟨pixels, []⟩ s) :
    ((stamped s).Subperm (chunksOf st nWorkerMap (List.range st.size)) ∧
      ∀ m i task loop n, s.loc (.worker m i) = .stamp task loop n →
        (∃ j < st.size, j % nmbMap = m ∧ ∃ c, task = taskOf st j c) ∧ task ∉ stamped s ∧
          ∀ m' i' loop' n', s.loc (.worker m' i') = .stamp task loop' n' → m' = m ∧ i' = i) ∧
    ((saves s).Subperm ((List.range st.size).map (saveOf st)) ∧
      ∀ before t (imageId : ℤ) path ptrImg picture after,
        s.mem.events = before ++ (t, .save imageId path ptrImg picture) :: after →
          ∃ j < st.size, ∃ m : Fin nmbMap, t = .gather m ∧ j % nmbMap = m ∧ imageId = j ∧
            path = savePath j ∧ ptrImg = st.img j ∧
            ∀ c, ∃ i, (.worker m i, .chunkDone (taskOf st j c)) ∈ before) ∧
    (∀ m i, (s.ins (.worker m i) (.workerQueue m)).count (eofTask nWorkerMap) ≤ 1) ∧
    ((code st nmbMap nWorkerMap ptrMark markHeight markWidth).program.Terminal s →
      Finished st s ∧ (stamped s).Perm (chunksOf st nWorkerMap (List.range st.size)) ∧
        (saves s).Perm ((List.range st.size).map (saveOf st))) ∧
    ∃ s', Relation.ReflTransGen
      (code st nmbMap nWorkerMap ptrMark markHeight markWidth).program.Step s s' ∧
        (code st nmbMap nWorkerMap ptrMark markHeight markWidth).program.Terminal s' := by
  have hS := shares st ptrMark markHeight markWidth hMap hWorker
  refine ⟨⟨stamped_subperm hMap hWorker h, ?_⟩, ⟨saves_subperm hMap hWorker h, ?_⟩, ?_, ?_, ?_⟩
  · intro m i task loop n hloc
    exact stamping hMap hWorker h hloc
  · intro before t imageId path ptrImg picture after hsplit
    exact save_caused hMap hWorker h hsplit
  · intro m i
    exact hS.marker_le h m _ (Code.Feeds.mem_workers.mpr ⟨i, rfl⟩)
  · intro hterm
    exact ⟨finished st hMap hWorker h hterm, stamped_perm hMap hWorker h hterm,
      saves_perm hMap hWorker h hterm⟩
  · apply (Code.ranking _ _).exists_terminal s
    intro e he
    obtain ⟨m, hm⟩ := hS.routed e he
    exact ⟨m, ⟨0, hWorker⟩, hm⟩

/-- One of two workers stamps both chunks of the first of two images, and its gather saves
it before the second one is sent. -/
theorem onDemand_protocol_twoImages :
    ∃ s, (code twoImages 2 2 [0, 200, 49, 50] 2 2).program.Reachable
        ⟨fun _ => List.replicate 12 100, []⟩ s ∧
      stampedOf (s.mem.eventsOf (.worker 0 1)) = [taskOf twoImages 0 0, taskOf twoImages 0 1] ∧
      saves s = [(savePath 0, 1)] ∧ (saves s).Subperm ((List.range 2).map (saveOf twoImages)) := by
  have hrun : ((code twoImages 2 2 [0, 200, 49, 50] 2 2).program.exec
      ((code twoImages 2 2 [0, 200, 49, 50] 2 2).program.initial
        ⟨fun _ => List.replicate 12 100, []⟩)
      (List.replicate 2 (.scatter, 0) ++ List.replicate 14 (.worker 0 1, 0) ++
        List.replicate 3 (.gather 0, 0))).map
      (fun s => (stampedOf (s.mem.eventsOf (.worker 0 1)), saves s)) =
        some ([taskOf twoImages 0 0, taskOf twoImages 0 1], [(savePath 0, 1)]) := by rfl
  rcases Program.exists_of_exec _ _ hrun with ⟨s, hs, hall⟩
  obtain ⟨hstamped, hsaves⟩ := Prod.mk.inj hall
  exact ⟨s, hs, hstamped, hsaves, (onDemand_protocol twoImages [0, 200, 49, 50] 2 2 _ (by decide)
    (by decide) s hs).2.1.1⟩

end WaterMark.OnDemand
