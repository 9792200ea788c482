import WaterMark.FastFlow.Flow

/-! # The FastFlow map

The emitter sends one record for each image, once for each worker, and FastFlow
delivers the sends in round robin. Every worker deletes the record after its
chunk, and numbers the images by a counter that it increments before use.
-/

namespace WaterMark.FastFlow.Map
open ChannelNetwork TaggedLog Pixels Maps Gather

/-- A pointer to a `taskWorker` record: the number of its allocation, with the fields that
the record was allocated with. `Records` reads the fields from memory, where a deleted
record has them no more. -/
structure Task where
  record : ℕ
  ptrDataImage : Ptr
  ptrImage : Ptr
deriving DecidableEq

variable (st : ImageStream) (nw : ℕ)

/-- `new taskWorker {imgDataStream[i],imgStream[i]}`. -/
def taskOf (j : ℕ) : Task := ⟨j, st.pix j, st.img j⟩

/-- The sends of `Scatter_Map`, in the order of its loops. -/
def scatterMap : List Task :=
  (List.range st.size).flatMap fun j => (List.range nw).map fun _ => taskOf st j

/-- `Worker_map`, where `svc` increments `imageCounter` before it uses it. -/
def workerMap (ptrMarker : Buffer) : WorkerCode Task where
  eof _ := false
  dataImg := Task.ptrDataImage
  image := Task.ptrImage
  number _ imageCounter := imageCounter + 1
  ptrMarker := ptrMarker
  onChunk imageInfo := [.deleteTask imageInfo.record]
  onReturn := []

/-- `Gather_Map` with the vector `pool(imageNumber,0)`. -/
def gatherMap : GatherMap where
  full := nw
  inPool imageId := decide (0 ≤ imageId ∧ imageId < st.size)
  data := st.data

def code (ptrMark : Buffer) (markHeight markWidth : ℕ) : Code Task nw where
  sends := scatterMap st nw
  targets t := [t % nw]
  info _ i := infoVector markHeight markWidth nw i
  worker := workerMap ptrMark
  gather := gatherMap st nw

def tasks : List Task := (List.range st.size).map (taskOf st)

variable {st nw}

theorem delivers (ptrMark : Buffer) (markHeight markWidth : ℕ) (hnw : 1 ≤ nw) :
    (code st nw ptrMark markHeight markWidth).Delivers where
  targets_ne t := List.cons_ne_nil _ _
  targets_lt t index hindex := by
    rw [List.mem_singleton.mp hindex]
    exact Nat.mod_lt t hnw
  eof task := rfl

/-! ## Round robin -/

theorem sent_eq_take {sends : List Task} {n : ℕ} {sent : List (ℕ × Task)}
    (h : Sent sends (fun t => [t % nw]) n sent) :
    sent = (sends.mapIdx fun t task => (t % nw, task)).take n := by
  rcases h with ⟨hmap, htargets⟩
  apply List.ext_getElem?
  intro k
  have hsnd : (sent[k]?).map Prod.snd = (sends.take n)[k]? := by rw [← hmap, List.getElem?_map]
  have htake : ((sends.mapIdx fun t task => (t % nw, task)).take n)[k]? =
      ((sends.take n)[k]?).map fun task => (k % nw, task) := by
    simp only [List.getElem?_take, List.getElem?_mapIdx]
    split_ifs <;> rfl
  rw [htake, ← hsnd]
  cases hk : sent[k]? with
  | none => rfl
  | some e =>
    rcases e with ⟨index, task⟩
    have htag : index = k % nw := List.mem_singleton.mp (htargets k _ hk)
    subst htag
    rfl

theorem roundRobin_eq (m : ℕ) (f : ℕ → Task) :
    ((List.range m).flatMap fun j => (List.range nw).map fun _ => f j).mapIdx
        (fun t task => (t % nw, task)) =
      (List.range m).flatMap fun j => (List.range nw).map fun i => (i, f j) := by
  induction m with
  | zero => rfl
  | succ m ih =>
    have hlen : ((List.range m).flatMap fun j => (List.range nw).map fun _ => f j).length =
        m * nw := by
      simp [List.length_flatMap]
    have hround : ((List.range nw).map fun _ => f m).mapIdx
        (fun t task => ((t + m * nw) % nw, task)) = (List.range nw).map fun i => (i, f m) := by
      apply List.ext_getElem
      · simp
      · intro i hi hi'
        have hlt : i < nw := by simpa using hi'
        simp [Nat.mod_eq_of_lt hlt]
    rw [List.range_succ, List.flatMap_append, List.flatMap_append, List.mapIdx_append, ih, hlen]
    simp only [List.flatMap_singleton]
    rw [hround]

theorem entries_sent_le {n : ℕ} {sent : List (ℕ × Task)}
    (h : Sent (scatterMap st nw) (fun t => [t % nw]) n sent) (i : Fin nw) :
    entries (i : ℕ) sent <+: tasks st := by
  have hall := entries_broadcast i.isLt (tasks st)
  rw [tasks, List.flatMap_map, ← roundRobin_eq st.size (taskOf st), ← tasks] at hall
  rw [sent_eq_take h, ← hall]
  exact entries_mono _ (List.take_prefix n _)

theorem entries_sent_all {n : ℕ} {sent : List (ℕ × Task)}
    (h : Sent (scatterMap st nw) (fun t => [t % nw]) n sent)
    (hall : sent.map Prod.snd = scatterMap st nw) (i : Fin nw) :
    entries (i : ℕ) sent = tasks st := by
  have hlen := congrArg List.length hall
  rw [List.length_map, sent_eq_take h, List.length_take, List.length_mapIdx] at hlen
  have hfeed := entries_broadcast i.isLt (tasks st)
  rw [tasks, List.flatMap_map, ← roundRobin_eq st.size (taskOf st), ← tasks] at hfeed
  rw [sent_eq_take h, List.take_of_length_le (by rw [List.length_mapIdx]; omega)]
  exact hfeed

theorem results_eq (ptrMark : Buffer) :
    (workerMap ptrMark).results (tasks st) = (List.range st.size).map (resultOf st) := by
  apply List.ext_getElem
  · simp [tasks]
  · intro k hk hk'
    simp [WorkerCode.results, workerMap, tasks, taskOf, resultOf]

section Run
variable {ptrMark : Buffer} {markHeight markWidth : ℕ} {pixels : Ptr → Buffer}
  {s : FarmState Task nw} {sent : List (ℕ × Task)} {log : List (Fin nw × Result)}

theorem numbered (hF : (code st nw ptrMark markHeight markWidth).Flow s sent log) :
    (code st nw ptrMark markHeight markWidth).Numbered st sent := by
  intro i
  rw [← results_eq ptrMark]
  exact (workerMap ptrMark).results_mono (entries_sent_le hF.sends i)

/-! ## The numbers of the images -/

def accesses (s : FarmState Task nw) : List ℤ :=
  (s.mem.events.map Prod.snd).filterMap Event.accessed

/-- The identifier that a worker attaches to the image number `k` is `k`. -/
def NumbersMatch (st : ImageStream) (s : FarmState Task nw) : Prop :=
  ∀ i, ∀ r ∈ s.outs (.worker i) (.gatherQueue i), ∀ k < st.size, r.2 = st.img k → r.1 = k

/-- Every access is inside the vector of `imageNumber` counters. -/
def AccessesInside (st : ImageStream) (s : FarmState Task nw) : Prop :=
  ∀ imageId ∈ accesses s, 0 ≤ imageId ∧ imageId < st.size

/-- The image number `k` is saved under the file number `k`. -/
def SavesMatch (st : ImageStream) (s : FarmState Task nw) : Prop :=
  ∀ k < st.size, ∃ t picture, (t, .save k (savePath k) (st.img k) picture) ∈ s.mem.events

theorem makes_worker {e : Event Task} (h : (workerMap ptrMark).Makes e) :
    (∃ task, e = .chunkDone task) ∨ ∃ record, e = .deleteTask record := by
  rcases h with ⟨task, he | he | he⟩
  · exact Or.inl ⟨task, he⟩
  · exact Or.inr ⟨_, List.mem_singleton.mp he⟩
  · cases he

theorem accesses_eq (hF : (code st nw ptrMark markHeight markWidth).Flow s sent log) :
    accesses s = (s.mem.eventsOf .collector).filterMap Event.accessed := by
  apply hF.filterMap_collector
  intro e he
  rcases makes_worker he with ⟨task, rfl⟩ | ⟨record, rfl⟩ <;> rfl

/-- Every save is that of an image `k`, under the number `k + 1`. -/
theorem number_of_save (hnw : 1 ≤ nw)
    (hF : (code st nw ptrMark markHeight markWidth).Flow s sent log) {t : Thread nw} {imageId : ℤ}
    {path : String} {ptrImg : Ptr} {picture : Buffer}
    (hsave : (t, .save imageId path ptrImg picture) ∈ s.mem.events) :
    ∃ k < st.size, imageId = k + 1 ∧ ptrImg = st.img k := by
  by_cases ht : t = .collector
  · subst ht
    rcases hF.exists_handled with ⟨msgs, hmsgs, hhandled⟩
    have hmem := hmsgs.subset (hhandled.mem_save (mem_entries.mpr hsave)).1
    rcases hF.mem_log (delivers ptrMark markHeight markWidth hnw) (numbered hF) hmem with
      ⟨k, hk, he⟩
    cases he
    exact ⟨k, hk, rfl, rfl⟩
  · rcases makes_worker (hF.makes ht hsave) with ⟨task, he⟩ | ⟨record, he⟩ <;> cases he

theorem result_taken (hnw : 1 ≤ nw)
    (hF : (code st nw ptrMark markHeight markWidth).Flow s sent log)
    (hterm : (code st nw ptrMark markHeight markWidth).program.Terminal s) (i : Fin nw) {k : ℕ}
    (hk : k < st.size) :
    resultOf st k ∈ s.outs (.worker i) (.gatherQueue i) ∧ resultOf st k ∈ entries i log := by
  have hend := hF.finished (delivers ptrMark markHeight markWidth hnw) hterm
  have hresults : (workerMap ptrMark).results (entries (i : ℕ) sent) =
      (List.range st.size).map (resultOf st) := by
    rw [entries_sent_all hF.sends hend.sends, results_eq ptrMark]
  have hmem : resultOf st k ∈ (workerMap ptrMark).results (entries (i : ℕ) sent) := by
    rw [hresults]
    exact List.mem_map_of_mem (List.mem_range.mpr hk)
  constructor
  · rw [hend.outs]
    exact hmem
  · rw [hend.taken]
    exact hmem

theorem not_numbersMatch (hst : 1 ≤ st.size) (hnw : 1 ≤ nw)
    (hF : (code st nw ptrMark markHeight markWidth).Flow s sent log)
    (hterm : (code st nw ptrMark markHeight markWidth).program.Terminal s) :
    ¬ NumbersMatch st s := by
  intro hmatch
  have hfirst := (result_taken hnw hF hterm ⟨0, hnw⟩ hst).1
  cases hmatch _ _ hfirst 0 hst rfl

/-- The number of the last image is the length of the vector. -/
theorem not_accessesInside (hst : 1 ≤ st.size) (hnw : 1 ≤ nw)
    (hF : (code st nw ptrMark markHeight markWidth).Flow s sent log)
    (hterm : (code st nw ptrMark markHeight markWidth).program.Terminal s) :
    ¬ AccessesInside st s := by
  intro hinside
  have hend := hF.finished (delivers ptrMark markHeight markWidth hnw) hterm
  have hlast : resultOf st (st.size - 1) ∈ entries (⟨0, hnw⟩ : Fin nw) log :=
    (result_taken hnw hF hterm ⟨0, hnw⟩ (by omega)).2
  have haccess : ((st.size - 1 : ℕ) : ℤ) + 1 ∈ accesses s := by
    rw [accesses_eq hF, hend.collector.accessed]
    exact List.mem_map_of_mem (List.mem_map_of_mem (mem_entries.mp hlast))
  have := (hinside _ haccess).2
  omega

theorem not_savesMatch (hst : 1 ≤ st.size) (hnw : 1 ≤ nw)
    (hF : (code st nw ptrMark markHeight markWidth).Flow s sent log) : ¬ SavesMatch st s := by
  intro hsaves
  rcases hsaves 0 hst with ⟨t, picture, hsave⟩
  rcases number_of_save hnw hF hsave with ⟨k, -, hk, -⟩
  omega

end Run

/-- The numbers of the FastFlow map are never right: there are complete runs, and
in each of them the workers attach other numbers than those of the images, an
access to `pool` is outside of the vector, and no image is saved under its number. -/
theorem map_numbers_wrong (st : ImageStream) (ptrMark : Buffer) (markHeight markWidth : ℕ)
    (pixels : Ptr → Buffer) (hst : 1 ≤ st.size) {nw : ℕ} (hnw : 1 ≤ nw) :
    (∃ s, (code st nw ptrMark markHeight markWidth).program.Reachable ⟨pixels, []⟩ s ∧
      (code st nw ptrMark markHeight markWidth).program.Terminal s) ∧
    ∀ s, (code st nw ptrMark markHeight markWidth).program.Reachable ⟨pixels, []⟩ s →
      (code st nw ptrMark markHeight markWidth).program.Terminal s →
      ¬ NumbersMatch st s ∧ ¬ AccessesInside st s ∧ ¬ SavesMatch st s := by
  constructor
  · exact (Code.ranking (delivers ptrMark markHeight markWidth hnw)).exists_terminal _
  · intro s h hterm
    rcases Code.exists_flow h with ⟨sent, log, hF⟩
    exact ⟨not_numbersMatch hst hnw hF hterm, not_accessesInside hst hnw hF hterm,
      not_savesMatch hst hnw hF⟩

/-- One image of one pixel and one worker. -/
theorem map_numbers_wrong_pixel :
    (∃ s, (code oneImage 1 [0] 1 1).program.Reachable ⟨fun _ => [10, 20, 30], []⟩ s ∧
      (code oneImage 1 [0] 1 1).program.Terminal s) ∧
    ∀ s, (code oneImage 1 [0] 1 1).program.Reachable ⟨fun _ => [10, 20, 30], []⟩ s →
      (code oneImage 1 [0] 1 1).program.Terminal s →
      ¬ NumbersMatch oneImage s ∧ ¬ AccessesInside oneImage s ∧ ¬ SavesMatch oneImage s :=
  map_numbers_wrong oneImage [0] 1 1 (fun _ => [10, 20, 30]) (le_refl 1) (le_refl 1)

/-- There the only image gets the number 1, and the collector accesses counter 1
of a vector of one counter. -/
theorem map_accesses_outside :
    ∃ s, (code oneImage 1 [0] 1 1).program.Reachable ⟨fun _ => [10, 20, 30], []⟩ s ∧
      s.outs (.worker 0) (.gatherQueue 0) = [(1, oneImage.img 0)] ∧ accesses s = [1] ∧
      ¬ NumbersMatch oneImage s ∧ ¬ AccessesInside oneImage s := by
  have hrun : ((code oneImage 1 [0] 1 1).program.exec
      ((code oneImage 1 [0] 1 1).program.initial ⟨fun _ => [10, 20, 30], []⟩)
      [(.emitter, 0), (.worker 0, 0), (.worker 0, 0), (.worker 0, 0), (.worker 0, 0),
        (.worker 0, 0), (.worker 0, 0), (.collector, 0), (.collector, 0)]).map
      (fun s => (s.outs (.worker 0) (.gatherQueue 0), accesses s)) =
        some ([(1, oneImage.img 0)], [1]) := by rfl
  rcases Program.exists_of_exec _ _ hrun with ⟨s, hs, hshow⟩
  rcases Prod.mk.inj hshow with ⟨houts, haccesses⟩
  refine ⟨s, hs, houts, haccesses, ?_, ?_⟩
  · intro hmatch
    cases hmatch 0 (1, oneImage.img 0) (houts ▸ List.mem_singleton_self _) 0 (by decide) rfl
  · intro hinside
    have := (hinside 1 (haccesses ▸ List.mem_singleton_self _)).2
    simp [oneImage, ImageStream.size] at this

/-! ## The release of the records -/

section Run
variable {ptrMark : Buffer} {markHeight markWidth : ℕ} {pixels : Ptr → Buffer}
  {s : FarmState Task nw} {sent : List (ℕ × Task)} {log : List (Fin nw × Result)}

def releases (s : FarmState Task nw) : List ℕ :=
  (s.mem.events.map Prod.snd).filterMap Event.released

/-- A record is queued for a worker, or handled by it. -/
def Holds (s : FarmState Task nw) (i : Fin nw) (imageInfo : Task) : Prop :=
  imageInfo ∈ s.queue (.workerQueue i) ∨
    ∃ loop imageCounter, s.loc (.worker i) = .stamp imageInfo loop imageCounter

theorem released_chunkEvents (done : List Task) :
    ((workerMap ptrMark).chunkEvents done).filterMap Event.released = done.map Task.record := by
  induction done with
  | nil => rfl
  | cons task done ih =>
    rw [WorkerCode.chunkEvents, List.flatMap_cons, List.filterMap_append]
    exact congrArg (task.record :: ·) ih

/-- A worker holds what comes after the records that it has deleted. -/
theorem exists_held (hF : (code st nw ptrMark markHeight markWidth).Flow s sent log) (i : Fin nw) :
    ∃ done held, done ++ held = entries (i : ℕ) sent ∧
      (s.mem.eventsOf (.worker i)).filterMap Event.released = done.map Task.record ∧
      ∀ imageInfo, Holds s i imageInfo → imageInfo ∈ held := by
  have hplace : (workerMap ptrMark).HasAnswered _ _ _ _ := hF.worker i
  have hgot := hF.received i
  unfold Holds
  generalize s.loc (.worker i) = x at hplace ⊢
  generalize s.ins (.worker i) (.workerQueue i) = got at hplace hgot
  generalize s.outs (.worker i) (.gatherQueue i) = out at hplace
  generalize s.mem.eventsOf (.worker i) = events at hplace ⊢
  cases hplace with
  | pop h =>
    refine ⟨_, _, hgot, released_chunkEvents _, fun imageInfo hholds => ?_⟩
    rcases hholds with hq | ⟨loop, imageCounter, hx⟩
    · exact hq
    · cases hx
  | @stamp done task loop h =>
    rw [List.append_assoc] at hgot
    refine ⟨_, _, hgot, released_chunkEvents _, fun imageInfo hholds => ?_⟩
    rcases hholds with hq | ⟨loop, imageCounter, hx⟩
    · exact List.mem_cons_of_mem _ hq
    · cases hx
      exact List.mem_cons_self
  | propagate h =>
    refine ⟨_, _, hgot, released_chunkEvents _, fun imageInfo hholds => ?_⟩
    rcases hholds with hq | ⟨loop, imageCounter, hx⟩
    · exact hq
    · cases hx
  | propagateEos _ heof | finish _ heof | returned _ heof => cases heof

theorem nodup_record (st : ImageStream) : ((tasks st).map Task.record).Nodup := by
  have hrecords : (tasks st).map Task.record = List.range st.size := by
    rw [tasks, List.map_map]
    exact List.map_id _
  rw [hrecords]
  exact List.nodup_range

theorem not_released_of_holds (hF : (code st nw ptrMark markHeight markWidth).Flow s sent log)
    {i : Fin nw} {imageInfo : Task} (hholds : Holds s i imageInfo) :
    imageInfo.record ∉ (s.mem.eventsOf (.worker i)).filterMap Event.released := by
  rcases exists_held hF i with ⟨done, held, hsplit, hreleased, hheld⟩
  have hnodup : ((done ++ held).map Task.record).Nodup := by
    rw [hsplit]
    exact (nodup_record st).sublist ((entries_sent_le hF.sends i).sublist.map _)
  rw [List.map_append] at hnodup
  rw [hreleased]
  intro hmem
  exact hnodup.disjoint hmem (List.mem_map_of_mem (hheld imageInfo hholds))

theorem worker_of_released (hF : (code st nw ptrMark markHeight markWidth).Flow s sent log)
    {t : Thread nw} {e : Event Task} {record : ℕ} (he : (t, e) ∈ s.mem.events)
    (hrel : e.released = some record) : ∃ i, t = .worker i := by
  have hmine : record ∈ (s.mem.eventsOf t).filterMap Event.released :=
    List.mem_filterMap.mpr ⟨e, mem_entries.mpr he, hrel⟩
  cases t with
  | emitter =>
    rw [hF.emitter] at hmine
    cases hmine
  | worker i => exact ⟨i, rfl⟩
  | collector =>
    rcases hF.exists_handled with ⟨msgs, -, hhandled⟩
    rw [hhandled.released] at hmine
    cases hmine

theorem exists_releaser (hF : (code st nw ptrMark markHeight markWidth).Flow s sent log)
    {record : ℕ}
    (hrel : record ∈ releases s) :
    ∃ i, record ∈ (s.mem.eventsOf (.worker i)).filterMap Event.released := by
  rcases List.mem_filterMap.mp hrel with ⟨e, he, hrecord⟩
  rcases List.mem_map.mp he with ⟨⟨t, e⟩, hte, rfl⟩
  rcases worker_of_released hF hte hrecord with ⟨i, rfl⟩
  exact ⟨i, List.mem_filterMap.mpr ⟨e, mem_entries.mpr hte, hrecord⟩⟩

theorem count_releases (hnw : 1 ≤ nw)
    (hF : (code st nw ptrMark markHeight markWidth).Flow s sent log)
    (hterm : (code st nw ptrMark markHeight markWidth).program.Terminal s) (record : ℕ) :
    (releases s).count record = nw * (List.range st.size).count record := by
  have hend := hF.finished (delivers ptrMark markHeight markWidth hnw) hterm
  have hworker (i : Fin nw) : (s.mem.eventsOf (.worker i)).filterMap Event.released =
      List.range st.size := by
    rw [hend.worker, entries_sent_all hF.sends hend.sends]
    rw [show (code st nw ptrMark markHeight markWidth).worker = workerMap ptrMark from rfl,
      released_chunkEvents, tasks, List.map_map]
    exact List.map_id _
  rw [releases, count_filterMap_eq_sum Finset.univ _ fun e _ => Finset.mem_univ e.1,
    ← Finset.sum_subset (Finset.subset_univ (Finset.univ.image Thread.worker)) ?_,
    Finset.sum_image fun i _ i' _ he => Thread.worker.inj he]
  · calc ∑ i, ((s.mem.eventsOf (.worker i)).filterMap Event.released).count record
      _ = ∑ _i : Fin nw, (List.range st.size).count record := by simp only [hworker]
      _ = nw * (List.range st.size).count record := by simp
  · intro t _ ht
    rw [List.count_eq_zero]
    intro hmem
    change record ∈ (s.mem.eventsOf t).filterMap Event.released at hmem
    cases t with
    | emitter =>
      rw [hF.emitter] at hmem
      cases hmem
    | worker i => exact ht (Finset.mem_image_of_mem _ (Finset.mem_univ i))
    | collector =>
      rw [hend.collector.released] at hmem
      cases hmem

/-- With one worker, or without images, what is held has not been deleted. -/
theorem held_not_released (hcond : nw = 1 ∨ st.size = 0)
    (hF : (code st nw ptrMark markHeight markWidth).Flow s sent log) {i : Fin nw}
    {imageInfo : Task} (hholds : Holds s i imageInfo) : imageInfo.record ∉ releases s := by
  intro hrel
  rcases exists_releaser hF hrel with ⟨i', hrel⟩
  rcases hcond with rfl | hst
  · exact not_released_of_holds hF hholds (Subsingleton.elim i' i ▸ hrel)
  · -- no record is sent at all
    rcases exists_held hF i with ⟨done, held, hsplit, -, hheld⟩
    have hle := entries_sent_le hF.sends i
    rw [← hsplit, tasks, hst] at hle
    have hmem := hle.subset (List.mem_append_right done (hheld imageInfo hholds))
    cases hmem

/-- A complete run deletes every record once only in these two cases. -/
theorem releases_perm_iff (hnw : 1 ≤ nw)
    (hF : (code st nw ptrMark markHeight markWidth).Flow s sent log)
    (hterm : (code st nw ptrMark markHeight markWidth).program.Terminal s) :
    (releases s).Perm (List.range st.size) ↔ nw = 1 ∨ st.size = 0 := by
  constructor
  · intro hperm
    by_cases hst : st.size = 0
    · exact Or.inr hst
    · have hcount := count_releases hnw hF hterm 0
      rw [hperm.count_eq, List.count_eq_one_of_mem List.nodup_range
        (List.mem_range.mpr (Nat.pos_of_ne_zero hst))] at hcount
      exact Or.inl (by omega)
  · intro hcond
    apply List.perm_iff_count.mpr
    intro record
    rw [count_releases hnw hF hterm record]
    rcases hcond with rfl | hst
    · exact Nat.one_mul _
    · rw [hst]
      rfl

end Run

/-- The records of the FastFlow map are used properly, in all runs, only with one
worker or without images: no record that is queued or handled is deleted, and a
complete run deletes every record once. -/
theorem map_records_iff (st : ImageStream) (ptrMark : Buffer) (markHeight markWidth : ℕ)
    (pixels : Ptr → Buffer) {nw : ℕ} (hnw : 1 ≤ nw) :
    (∀ s, (code st nw ptrMark markHeight markWidth).program.Reachable ⟨pixels, []⟩ s →
      (∀ i imageInfo, Holds s i imageInfo → imageInfo.record ∉ releases s) ∧
      ((code st nw ptrMark markHeight markWidth).program.Terminal s →
        (releases s).Perm (List.range st.size))) ↔ nw = 1 ∨ st.size = 0 := by
  constructor
  · intro hall
    have hD : (code st nw ptrMark markHeight markWidth).Delivers :=
      delivers ptrMark markHeight markWidth hnw
    rcases (Code.ranking hD).exists_terminal
      ((code st nw ptrMark markHeight markWidth).program.initial ⟨pixels, []⟩) with ⟨s, h, hterm⟩
    rcases Code.exists_flow h with ⟨sent, log, hF⟩
    exact (releases_perm_iff hnw hF hterm).mp ((hall s h).2 hterm)
  · intro hcond s h
    rcases Code.exists_flow h with ⟨sent, log, hF⟩
    constructor
    · intro i imageInfo hholds
      exact held_not_released hcond hF hholds
    · intro hterm
      exact (releases_perm_iff hnw hF hterm).mpr hcond

/-- One worker owns its records. -/
theorem map_records_iff_pixel :
    (∀ s, (code oneImage 1 [0] 1 1).program.Reachable ⟨fun _ => [10, 20, 30], []⟩ s →
      (∀ i imageInfo, Holds s i imageInfo → imageInfo.record ∉ releases s) ∧
      ((code oneImage 1 [0] 1 1).program.Terminal s →
        (releases s).Perm (List.range oneImage.size))) ↔ 1 = 1 ∨ oneImage.size = 0 :=
  map_records_iff oneImage [0] 1 1 (fun _ => [10, 20, 30]) (le_refl 1)

/-- Of two workers the one without rows deletes the record that is still queued
for the other. -/
theorem map_deletes_queued :
    ∃ s, (code oneImage 2 [0] 1 1).program.Reachable ⟨fun _ => [10, 20, 30], []⟩ s ∧
      Holds s 0 (taskOf oneImage 0) ∧ (taskOf oneImage 0).record ∈ releases s := by
  have hrun : ((code oneImage 2 [0] 1 1).program.exec
      ((code oneImage 2 [0] 1 1).program.initial ⟨fun _ => [10, 20, 30], []⟩)
      [(.emitter, 0), (.emitter, 0), (.worker 1, 0), (.worker 1, 0)]).map
      (fun s => (s.queue (.workerQueue 0), releases s)) = some ([taskOf oneImage 0], [0]) := by rfl
  rcases Program.exists_of_exec _ _ hrun with ⟨s, hs, hshow⟩
  rcases Prod.mk.inj hshow with ⟨hqueue, hreleases⟩
  refine ⟨s, hs, Or.inl ?_, ?_⟩
  · change taskOf oneImage 0 ∈ s.queue (.workerQueue 0)
    rw [hqueue]
    exact List.mem_singleton_self _
  · rw [hreleases]
    exact List.mem_singleton_self _

end WaterMark.FastFlow.Map
