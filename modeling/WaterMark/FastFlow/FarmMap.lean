import Mathlib.Combinatorics.Enumerative.DoubleCounting
import WaterMark.FastFlow.Flow

/-! # The FastFlow farm of maps

The emitter sends one record for each chunk of each image, and the on-demand
scheduling may deliver it to any worker. A worker numbers its results by its own
count of tasks, which is not a number of the image: the collector counts the
chunks of an image correctly as long as the image number `j` goes to workers that
have received `j` tasks before.
-/

namespace WaterMark.FastFlow.FarmMap
open ChannelNetwork TaggedLog Pixels Maps Gather

/-- A `taskWorker` record, where `infoChunk` points to an entry of `infoVector`. -/
structure Task (nWorkerMap : ℕ) where
  ptrDataImage : Ptr
  ptrImage : Ptr
  infoChunk : Fin nWorkerMap
deriving DecidableEq

variable (st : ImageStream) (nw nWorkerMap : ℕ)

/-- `new taskWorker {imgDataStream[i],imgStream[i],infoChunk[j]}`. -/
def taskOf {nWorkerMap : ℕ} (j : ℕ) (c : Fin nWorkerMap) : Task nWorkerMap :=
  ⟨st.pix j, st.img j, c⟩

/-- The sends of `Scatter_Map`, in the order of its loops. -/
def scatterMap : List (Task nWorkerMap) :=
  (List.range st.size).flatMap fun j => (List.finRange nWorkerMap).map (taskOf st j)

/-- `Worker_map`, where `svc` increments `imageCounter` before it uses it. -/
def workerMap (ptrMark : Buffer) : WorkerCode (Task nWorkerMap) where
  eof _ := false
  dataImg := Task.ptrDataImage
  image := Task.ptrImage
  number _ imageCounter := imageCounter + 1
  ptrMarker := ptrMark
  onChunk _ := []
  onReturn := []

/-- `Gather_Map` with a `pool` that is large enough: it has a counter for every identifier,
while the vector of `main` has `imageNumber` counters. -/
def gatherMap : GatherMap where
  full := nWorkerMap
  inPool _ := true
  data := st.data

/-- The farm that `main` runs, with `set_scheduling_ondemand`. The workers have
copies of one mark. -/
def code (ptrMark : Buffer) (markHeight markWidth : ℕ) : Code (Task nWorkerMap) nw where
  sends := scatterMap st nWorkerMap
  targets _ := List.range nw
  info imageInfo _ := infoVector markHeight markWidth nWorkerMap imageInfo.infoChunk
  worker := workerMap nWorkerMap ptrMark
  gather := gatherMap st nWorkerMap

variable {st nw nWorkerMap}

/-- A step delivers a chunk of the image number `j` only to a worker that has been
sent `j` tasks before. -/
def InTurn (st : ImageStream) (s s' : FarmState (Task nWorkerMap) nw) : Prop :=
  ∀ index, ∀ j < st.size, ∀ c, s'.pushed (.workerQueue index) =
    s.pushed (.workerQueue index) ++ [(.emitter, taskOf st j c)] →
      (s.pushed (.workerQueue index)).length = j

/-- The states of the runs whose steps all deliver in turn. -/
def ReachableInTurn (st : ImageStream) (nw nWorkerMap : ℕ) (ptrMark : Buffer)
    (markHeight markWidth : ℕ) (pixels : Ptr → Buffer) :
    FarmState (Task nWorkerMap) nw → Prop :=
  Relation.ReflTransGen
    (fun s s' => (code st nw nWorkerMap ptrMark markHeight markWidth).program.Step s s' ∧
      InTurn st s s')
    ((code st nw nWorkerMap ptrMark markHeight markWidth).program.initial ⟨pixels, []⟩)

theorem delivers (st : ImageStream) (nWorkerMap : ℕ) (ptrMark : Buffer) (markHeight markWidth : ℕ)
    (hnw : 1 ≤ nw) : (code st nw nWorkerMap ptrMark markHeight markWidth).Delivers where
  targets_ne _ := by
    change List.range nw ≠ []
    rw [ne_eq, List.range_eq_nil]
    omega
  targets_lt _ _ hindex := List.mem_range.mp hindex
  eof _ := rfl

/-! ## The tasks -/

theorem taskOf_inj {j k : ℕ} (hj : j < st.size) (hk : k < st.size) {c d : Fin nWorkerMap}
    (h : taskOf st j c = taskOf st k d) : j = k ∧ c = d :=
  ⟨(st.img_inj hj hk).mp (congrArg Task.ptrImage h), congrArg Task.infoChunk h⟩

theorem mem_scatterMap {task : Task nWorkerMap} :
    task ∈ scatterMap st nWorkerMap ↔ ∃ j < st.size, ∃ c, task = taskOf st j c := by
  simp [scatterMap, eq_comm]

theorem nodup_scatterMap (st : ImageStream) (nWorkerMap : ℕ) :
    (scatterMap st nWorkerMap).Nodup := by
  apply List.nodup_flatMap.mpr
  constructor
  · intro j _
    exact (List.nodup_finRange nWorkerMap).map fun c d he => congrArg Task.infoChunk he
  · apply List.nodup_range.imp_of_mem
    intro j k hj hk hne
    rw [Function.onFun, List.disjoint_left]
    intro task htask htask'
    rcases List.mem_map.mp htask with ⟨c, -, rfl⟩
    rcases List.mem_map.mp htask' with ⟨d, -, he⟩
    exact hne (taskOf_inj (List.mem_range.mp hj) (List.mem_range.mp hk) he.symm).1

section Run
variable {ptrMark : Buffer} {markHeight markWidth : ℕ} {pixels : Ptr → Buffer}
  {s : FarmState (Task nWorkerMap) nw}

theorem ReachableInTurn.reachable
    (h : ReachableInTurn st nw nWorkerMap ptrMark markHeight markWidth pixels s) :
    (code st nw nWorkerMap ptrMark markHeight markWidth).program.Reachable ⟨pixels, []⟩ s :=
  Relation.ReflTransGen.mono (fun _ _ hstep => hstep.1) _ _ h

/-- The `k`-th task that a worker is sent in turn is a chunk of image `k`. -/
theorem ReachableInTurn.pushed
    (h : ReachableInTurn st nw nWorkerMap ptrMark markHeight markWidth pixels s) (index : ℕ) :
    ∃ cs : List (Fin nWorkerMap), cs.length ≤ st.size ∧
      (s.pushed (.workerQueue index)).map Prod.snd = cs.mapIdx (taskOf st) := by
  induction h with
  | refl => exact ⟨[], Nat.zero_le _, rfl⟩
  | @tail s s' _ hstep ih =>
    rcases hstep with ⟨hstep, hturn⟩
    cases hstep with
    | pop t q next m rest ha hq => exact ih
    | work t f ha => exact ih
    | push t q m next ha =>
      cases t with
      | worker i =>
        have hne : @Chan.workerQueue (Fin nw) index ≠ q := by
          rw [WorkerCode.push_queue ha]
          exact fun hc => by cases hc
        simpa [State.afterPush, hne] using ih
      | collector => exact absurd ha GatherMap.push_none
      | emitter =>
        rcases emitter_push ha with ⟨k, -, task, hget, he⟩
        cases he
        by_cases hk : index = k
        · subst hk
          rcases mem_scatterMap.mp (List.mem_of_getElem? hget) with ⟨j, hj, c, rfl⟩
          have hlen := hturn index j hj c (by simp [State.afterPush])
          rcases ih with ⟨cs, -, hcs⟩
          have hcslen : cs.length = j := by
            rw [← hlen, ← List.length_map Prod.snd, hcs, List.length_mapIdx]
          refine ⟨cs ++ [c], by simp; omega, ?_⟩
          simp [State.afterPush, hcs, List.mapIdx_append, hcslen]
        · have hne : @Chan.workerQueue (Fin nw) index ≠ .workerQueue k := fun hc =>
            hk (Chan.workerQueue.inj hc)
          simpa [State.afterPush, hne] using ih

/-! ## The numbers that the workers attach -/

variable {sent : List (ℕ × Task nWorkerMap)} {log : List (Fin nw × Result)}

/-- No identifier is larger than the number of all chunks. -/
theorem number_le (hnw : 1 ≤ nw)
    (h : (code st nw nWorkerMap ptrMark markHeight markWidth).program.Reachable ⟨pixels, []⟩ s)
    {i : Fin nw} {r : Result} (hr : r ∈ s.outs (.worker i) (.gatherQueue i)) :
    1 ≤ r.1 ∧ r.1 ≤ (st.size * nWorkerMap : ℕ) := by
  rcases Code.exists_flow h with ⟨sent, log, hF⟩
  have hD := delivers st nWorkerMap ptrMark markHeight markWidth hnw
  rcases hF.exists_done hD i with ⟨done, hdone, hout, -⟩
  rw [hout, WorkerCode.results, List.mem_mapIdx] at hr
  rcases hr with ⟨k, hk, rfl⟩
  have hsent : sent.length ≤ st.size * nWorkerMap := by
    have hlen := congrArg List.length hF.sends.1
    rw [List.length_map, List.length_take] at hlen
    have hall : (scatterMap st nWorkerMap).length = st.size * nWorkerMap := by
      simp [scatterMap, List.length_flatMap]
    change sent.length = min _ (scatterMap st nWorkerMap).length at hlen
    omega
  have hle := hdone.length_le.trans (List.length_filterMap_le _ sent)
  change 1 ≤ (k : ℤ) + 1 ∧ (k : ℤ) + 1 ≤ _
  omega

/-- Every worker gets a chunk of image `k` as its `k`-th task. -/
def SentInTurn (st : ImageStream) (sent : List (ℕ × Task nWorkerMap)) : Prop :=
  ∀ index, ∃ cs : List (Fin nWorkerMap), cs.length ≤ st.size ∧
    entries index sent = cs.mapIdx (taskOf st)

theorem ReachableInTurn.sentInTurn
    (h : ReachableInTurn st nw nWorkerMap ptrMark markHeight markWidth pixels s)
    (hF : (code st nw nWorkerMap ptrMark markHeight markWidth).Flow s sent log) :
    SentInTurn st sent := by
  intro index
  rw [← hF.pushed index]
  exact h.pushed index

theorem SentInTurn.getElem? (hturn : SentInTurn st sent) {index k : ℕ} {task : Task nWorkerMap}
    (hk : (entries index sent)[k]? = some task) : k < st.size ∧ ∃ c, task = taskOf st k c := by
  rcases hturn index with ⟨cs, hle, hcs⟩
  rw [hcs, List.getElem?_mapIdx] at hk
  rcases Option.map_eq_some_iff.mp hk with ⟨c, hc, rfl⟩
  exact ⟨(List.getElem?_eq_some_iff.mp hc).1.trans_le hle, c, rfl⟩

theorem SentInTurn.numbered (hturn : SentInTurn st sent) :
    (code st nw nWorkerMap ptrMark markHeight markWidth).Numbered st sent := by
  intro i
  rcases hturn i with ⟨cs, hle, hcs⟩
  have hresults : (workerMap nWorkerMap ptrMark).results (entries (i : ℕ) sent) =
      (List.range cs.length).map (resultOf st) := by
    rw [hcs]
    apply List.ext_getElem
    · simp
    · intro k hk hk'
      simp [WorkerCode.results, workerMap, taskOf, resultOf]
  change (workerMap nWorkerMap ptrMark).results (entries (i : ℕ) sent) <+: _
  rw [hresults, ← Nat.min_eq_left hle, ← List.take_range]
  exact (List.take_prefix _ _).map _

/-! ## The chunks of one image -/

def Gets (st : ImageStream) (sent : List (ℕ × Task nWorkerMap)) (j : ℕ) (i : Fin nw)
    (c : Fin nWorkerMap) : Prop :=
  (entries (i : ℕ) sent)[j]? = some (taskOf st j c)

theorem Gets.chunk_unique {j : ℕ} {i : Fin nw} {c d : Fin nWorkerMap} (hc : Gets st sent j i c)
    (hd : Gets st sent j i d) : c = d := by
  rw [Gets, hc] at hd
  exact congrArg Task.infoChunk (Option.some.inj hd)

theorem Gets.worker_unique
    (hF : (code st nw nWorkerMap ptrMark markHeight markWidth).Flow s sent log) {j : ℕ}
    {i i' : Fin nw} {c : Fin nWorkerMap} (hi : Gets st sent j i c) (hi' : Gets st sent j i' c) :
    i = i' := by
  have hnodup : (sent.map Prod.snd).Nodup := by
    rw [hF.sends.1]
    exact (nodup_scatterMap st nWorkerMap).sublist (List.take_sublist _ _)
  apply Fin.ext
  exact tag_unique (List.nodup_iff_count_le_one.mp hnodup (taskOf st j c))
    (mem_entries.mp (List.mem_of_getElem? hi)) (mem_entries.mp (List.mem_of_getElem? hi'))

/-- The workers that have passed image `j` have stamped different chunks of it. -/
theorem card_passed_le (hnw : 1 ≤ nw)
    (hF : (code st nw nWorkerMap ptrMark markHeight markWidth).Flow s sent log)
    (hturn : SentInTurn st sent) {j : ℕ} {chunks : Finset (Fin nWorkerMap)}
    (hchunks : ∀ i c, .chunkDone (taskOf st j c) ∈ s.mem.eventsOf (.worker i) → c ∈ chunks) :
    (Finset.univ.filter fun i => j < progress log i).card ≤ chunks.card := by
  apply Finset.card_le_card_of_forall_subsingleton (Gets st sent j)
  · intro i hi
    rcases hF.chunkDone (delivers st nWorkerMap ptrMark markHeight markWidth hnw)
      (Finset.mem_filter.mp hi).2 with ⟨task, hget, hdone⟩
    rcases (hturn.getElem? hget).2 with ⟨c, rfl⟩
    exact ⟨c, hchunks i c hdone, hget⟩
  · intro c _ i hi i' hi'
    exact Gets.worker_unique hF hi.2 hi'.2

/-- When the counter of an image is full, all its chunks are stamped. -/
theorem all_stamped (hnw : 1 ≤ nw)
    (hF : (code st nw nWorkerMap ptrMark markHeight markWidth).Flow s sent log)
    (hturn : SentInTurn st sent) {j : ℕ} (hj : j < st.size)
    (hfull : GatherMap.counts (log.map Prod.snd) (j + 1) = nWorkerMap) (c : Fin nWorkerMap) :
    ∃ i, .chunkDone (taskOf st j c) ∈ s.mem.eventsOf (.worker i) := by
  classical
  let stamped := Finset.univ.filter fun c => ∃ i,
    .chunkDone (taskOf st j c) ∈ s.mem.eventsOf (.worker i)
  have hle : (Finset.univ.filter fun i => j < progress log i).card ≤ stamped.card :=
    card_passed_le hnw hF hturn fun i c hdone =>
      Finset.mem_filter.mpr ⟨Finset.mem_univ c, i, hdone⟩
  rw [← hF.counts_eq (delivers st nWorkerMap ptrMark markHeight markWidth hnw) hturn.numbered hj,
    hfull] at hle
  have hall : stamped = Finset.univ := by
    apply Finset.eq_univ_of_card
    rw [Fintype.card_fin]
    exact le_antisymm (by simpa using Finset.card_le_univ stamped) hle
  have hc : c ∈ stamped := hall ▸ Finset.mem_univ c
  exact (Finset.mem_filter.mp hc).2

theorem counts_finished (hnw : 1 ≤ nw)
    (hF : (code st nw nWorkerMap ptrMark markHeight markWidth).Flow s sent log)
    (hturn : SentInTurn st sent)
    (hterm : (code st nw nWorkerMap ptrMark markHeight markWidth).program.Terminal s) {j : ℕ}
    (hj : j < st.size) : GatherMap.counts (log.map Prod.snd) (j + 1) = nWorkerMap := by
  have hD := delivers st nWorkerMap ptrMark markHeight markWidth hnw
  have hend := hF.finished hD hterm
  rw [hF.counts_eq hD hturn.numbered hj]
  apply le_antisymm
  · have hle := card_passed_le hnw hF hturn (j := j) fun i c _ => Finset.mem_univ c
    rwa [Finset.card_univ, Fintype.card_fin] at hle
  · have hle : (Finset.univ : Finset (Fin nWorkerMap)).card ≤
        (Finset.univ.filter fun i => j < progress log i).card := by
      apply Finset.card_le_card_of_forall_subsingleton fun c i => Gets st sent j i c
      · intro c _
        -- the chunk has been sent to some worker, as its task number `j`
        have hmem : taskOf st j c ∈ sent.map Prod.snd := by
          rw [hend.sends]
          exact mem_scatterMap.mpr ⟨j, hj, c, rfl⟩
        rcases List.mem_map.mp hmem with ⟨⟨index, task⟩, he, rfl⟩
        rcases List.mem_iff_getElem?.mp he with ⟨n, hn⟩
        have hindex : index < nw := hD.targets_lt n index (hF.sends.2 n _ hn)
        rcases List.mem_iff_getElem?.mp (mem_entries.mpr he) with ⟨k, hk⟩
        rcases hturn.getElem? hk with ⟨hkst, d, hd⟩
        have hjk := (taskOf_inj hj hkst hd).1
        subst hjk
        refine ⟨⟨index, hindex⟩, Finset.mem_filter.mpr ⟨Finset.mem_univ _, ?_⟩, hk⟩
        rw [progress, hend.taken, WorkerCode.length_results]
        exact (List.getElem?_eq_some_iff.mp hk).1
      · intro i _ c hc d hd
        exact Gets.chunk_unique hc.2 hd.2
    rwa [Finset.card_univ, Fintype.card_fin] at hle

/-! ## The saves -/

def savedImages (s : FarmState (Task nWorkerMap) nw) : List Ptr :=
  ((s.mem.events.map Prod.snd).filterMap Event.saved).map Prod.snd

theorem makes_worker {e : Event (Task nWorkerMap)} (h : (workerMap nWorkerMap ptrMark).Makes e) :
    ∃ task, e = .chunkDone task := by
  rcases h with ⟨task, he | he | he⟩
  · exact ⟨task, he⟩
  · cases he
  · cases he

/-- The collector saves an image whose chunks have all been stamped before. -/
def Caused (st : ImageStream) (nWorkerMap : ℕ)
    (before : List (Thread nw × Event (Task nWorkerMap)))
    (e : Thread nw × Event (Task nWorkerMap)) : Prop :=
  ∀ imageId path ptrImg picture, e = (.collector, .save imageId path ptrImg picture) →
    ∃ j < st.size, ptrImg = st.img j ∧
      ∀ c : Fin nWorkerMap, ∃ i, (.worker i, .chunkDone (taskOf st j c)) ∈ before

theorem stamped_of_full (hnw : 1 ≤ nw)
    (hF : (code st nw nWorkerMap ptrMark markHeight markWidth).Flow s sent log)
    (hturn : SentInTurn st sent) {r : Result} {pool : ℤ → ℕ}
    (hloc : s.loc .collector = .svc r pool)
    (hfull : true ∈ (gatherMap st nWorkerMap).outcomes (increment pool r.1) r.1) :
    ∃ j < st.size, r.2 = st.img j ∧
      ∀ c : Fin nWorkerMap, ∃ i, .chunkDone (taskOf st j c) ∈ s.mem.eventsOf (.worker i) := by
  have hplace : (gatherMap st nWorkerMap).HasCounted _ _ _ := hF.collector
  have hmem : r ∈ log.map Prod.snd ∧ GatherMap.counts (log.map Prod.snd) r.1 = nWorkerMap := by
    rw [hloc] at hplace
    generalize log.map Prod.snd = msgs at hplace ⊢
    cases hplace with
    | svc h =>
      rw [← GatherMap.counts_snoc] at hfull
      exact ⟨List.mem_append_right _ (List.mem_singleton_self r),
        of_decide_eq_true (List.mem_singleton.mp hfull).symm⟩
  have hD := delivers st nWorkerMap ptrMark markHeight markWidth hnw
  rcases hF.mem_log hD hturn.numbered hmem.1 with ⟨j, hj, rfl⟩
  exact ⟨j, hj, rfl, all_stamped hnw hF hturn hj hmem.2⟩

theorem caused (hnw : 1 ≤ nw)
    (h : ReachableInTurn st nw nWorkerMap ptrMark markHeight markWidth pixels s) :
    Justified (Caused st nWorkerMap) s.mem.events := by
  have hsaves := Code.saves_caused (fun _ _ hstep => hstep.1) h
    (C := fun before r => ∃ j < st.size, r.2 = st.img j ∧
      ∀ c : Fin nWorkerMap, ∃ i, (.worker i, .chunkDone (taskOf st j c)) ∈ before) ?_ ?_
  · intro before e after hsplit imageId path ptrImg picture he
    exact (hsaves before e after hsplit imageId path ptrImg picture he).2
  · rintro before new r ⟨j, hj, hptr, hdone⟩
    refine ⟨j, hj, hptr, fun c => ?_⟩
    rcases hdone c with ⟨i, hi⟩
    exact ⟨i, List.mem_append_left _ hi⟩
  · intro s hs r pool hloc hfull
    rcases Code.exists_flow (ReachableInTurn.reachable hs) with ⟨sent, log, hF⟩
    rcases stamped_of_full hnw hF (ReachableInTurn.sentInTurn hs hF) hloc hfull with
      ⟨j, hj, hptr, hdone⟩
    refine ⟨j, hj, hptr, fun c => ?_⟩
    rcases hdone c with ⟨i, hi⟩
    exact ⟨i, mem_entries.mp hi⟩

theorem savedImages_finished (hn : 1 ≤ nWorkerMap) (hnw : 1 ≤ nw)
    (h : ReachableInTurn st nw nWorkerMap ptrMark markHeight markWidth pixels s)
    (hterm : (code st nw nWorkerMap ptrMark markHeight markWidth).program.Terminal s) :
    (savedImages s).Perm st.imgVector := by
  rcases Code.exists_flow h.reachable with ⟨sent, log, hF⟩
  have hD := delivers st nWorkerMap ptrMark markHeight markWidth hnw
  have hturn := h.sentInTurn hF
  have hend : (gatherMap st nWorkerMap).Handled _ _ := (hF.finished hD hterm).collector
  rcases hend.exists_completed hn with ⟨completed, hsub, hsaved, hcount⟩
  have hcollector := hF.filterMap_collector (f := Event.saved) fun e he => by
    rcases makes_worker he with ⟨task, rfl⟩
    rfl
  rw [savedImages, hcollector,
    hsaved (g := fun r => (savePath r.1, r.2)) ⟨fun _ _ => rfl, fun _ _ => rfl⟩, List.map_map]
  apply map_snd_perm
  · intro r hr
    exact hF.mem_log hD hturn.numbered (hsub.subset hr)
  · intro k hk
    rw [hcount _ rfl, counts_finished hnw hF hturn hterm hk]
    exact if_pos (le_refl nWorkerMap)

end Run

/-- The farm of maps saves no unfinished image as long as image `j` is delivered
to workers that have been sent `j` tasks before: an image is saved after all its
chunks are stamped, and a complete run saves every image once. -/
theorem farmMap_saves_inTurn (st : ImageStream) (ptrMark : Buffer) (markHeight markWidth : ℕ)
    (pixels : Ptr → Buffer) {nw nWorkerMap : ℕ} (hnw : 1 ≤ nw) (hn : 1 ≤ nWorkerMap)
    (s : FarmState (Task nWorkerMap) nw)
    (h : ReachableInTurn st nw nWorkerMap ptrMark markHeight markWidth pixels s) :
    (∀ before t imageId path ptrImg picture after,
      s.mem.events = before ++ (t, .save imageId path ptrImg picture) :: after →
        ∃ j < st.size, ptrImg = st.img j ∧
          ∀ c : Fin nWorkerMap, ∃ i, (.worker i, .chunkDone (taskOf st j c)) ∈ before) ∧
    ((code st nw nWorkerMap ptrMark markHeight markWidth).program.Terminal s →
      (savedImages s).Perm st.imgVector) := by
  constructor
  · intro before t imageId path ptrImg picture after hsplit
    by_cases ht : t = .collector
    · subst ht
      exact caused hnw h before _ after hsplit imageId path ptrImg picture rfl
    · rcases Code.exists_flow h.reachable with ⟨sent, log, hF⟩
      have hmem : (t, .save imageId path ptrImg picture) ∈ s.mem.events := by
        rw [hsplit]
        exact List.mem_append_right _ List.mem_cons_self
      rcases makes_worker (hF.makes ht hmem) with ⟨task, he⟩
      cases he
  · exact savedImages_finished hn hnw h

theorem index_lt {ptrMark : Buffer} {markHeight markWidth : ℕ} {pixels : Ptr → Buffer}
    {s : FarmState (Task nWorkerMap) nw}
    (h : (code st nw nWorkerMap ptrMark markHeight markWidth).program.Reachable ⟨pixels, []⟩ s)
    {index : ℕ} {e : Thread nw × Task nWorkerMap} (he : e ∈ s.pushed (.workerQueue index)) :
    index < nw := by
  rcases Code.exists_flow h with ⟨sent, log, hF⟩
  have hmem : e.2 ∈ entries index sent := hF.pushed index ▸ List.mem_map_of_mem he
  rcases List.mem_iff_getElem?.mp (mem_entries.mp hmem) with ⟨n, hn⟩
  exact List.mem_range.mp (hF.sends.2 n _ hn)

/-- A run has delivered in turn when each queue has been sent chunks of the images in
stream order, without a gap. -/
theorem reachableInTurn_of_pushed {ptrMark : Buffer} {markHeight markWidth : ℕ}
    {pixels : Ptr → Buffer} {s : FarmState (Task nWorkerMap) nw}
    (h : (code st nw nWorkerMap ptrMark markHeight markWidth).program.Reachable ⟨pixels, []⟩ s)
    (hturn : ∀ index < nw, ∀ k, ∀ j < st.size, ∀ c,
      (s.pushed (.workerQueue index))[k]? = some (.emitter, taskOf st j c) → k = j) :
    ReachableInTurn st nw nWorkerMap ptrMark markHeight markWidth pixels s := by
  induction h with
  | refl => exact .refl
  | @tail s s' hs hstep ih =>
    refine (ih fun index hindex k j hj c hk => hturn index hindex k j hj c ?_).tail
      ⟨hstep, fun index j hj c hpushed => ?_⟩
    · obtain ⟨new, hnew⟩ := hstep.pushed_prefix (.workerQueue index)
      rw [← hnew, List.getElem?_append_left (List.getElem?_eq_some_iff.mp hk).1, hk]
    · have hlast : (s'.pushed (.workerQueue index))[(s.pushed (.workerQueue index)).length]? =
          some (.emitter, taskOf st j c) := by
        rw [hpushed]
        exact List.getElem?_concat_length
      have hs' : (code st nw nWorkerMap ptrMark markHeight markWidth).program.Reachable
        ⟨pixels, []⟩ s' := hs.tail hstep
      exact hturn index (index_lt hs' (List.mem_of_getElem? hlast)) _ j hj c hlast

/-- With one worker and whole images every run delivers in turn. -/
theorem reachableInTurn_of_one {ptrMark : Buffer} {markHeight markWidth : ℕ}
    {pixels : Ptr → Buffer} {s : FarmState (Task 1) 1}
    (h : (code st 1 1 ptrMark markHeight markWidth).program.Reachable ⟨pixels, []⟩ s) :
    ReachableInTurn st 1 1 ptrMark markHeight markWidth pixels s := by
  refine reachableInTurn_of_pushed h fun index _ k j hj c hpushed => ?_
  rcases Code.exists_flow h with ⟨sent, log, hF⟩
  have hzero : ∀ e ∈ sent, e.1 = 0 := fun e he => by
    rcases List.mem_iff_getElem?.mp he with ⟨n, hn⟩
    exact List.mem_singleton.mp (hF.sends.2 n e hn)
  have htask : (entries index sent)[k]? = some (taskOf st j c) := by
    rw [← hF.pushed index, List.getElem?_map, hpushed]
    rfl
  have hindex : 0 = index := (hzero _ (mem_entries.mp (List.mem_of_getElem? htask))).symm
  subst hindex
  have hsends : scatterMap st 1 = (List.range st.size).map fun j => taskOf st j 0 :=
    (List.map_eq_flatMap).symm
  rw [entries_eq_map hzero, hF.sends.1] at htask
  change ((scatterMap st 1).take _)[_]? = _ at htask
  rw [hsends, ← List.map_take, List.take_range, List.getElem?_map] at htask
  rcases Option.map_eq_some_iff.mp htask with ⟨k', hk, he⟩
  rcases List.getElem?_eq_some_iff.mp hk with ⟨hlt, hk⟩
  rw [List.length_range] at hlt
  rw [List.getElem_range] at hk
  rw [hk]
  exact (taskOf_inj (by omega) hj he).1

/-- Two workers with a chunk each of two images, and the first image is saved. -/
theorem farmMap_saves_inTurn_twoImages :
    ∃ s, ReachableInTurn twoImages 2 2 [0, 200, 49, 50] 2 2 (fun _ => List.replicate 12 100) s ∧
      savedImages s = [twoImages.img 0] ∧
      ((code twoImages 2 2 [0, 200, 49, 50] 2 2).program.Terminal s →
        (savedImages s).Perm twoImages.imgVector) := by
  have hrun : ((code twoImages 2 2 [0, 200, 49, 50] 2 2).program.exec
      ((code twoImages 2 2 [0, 200, 49, 50] 2 2).program.initial
        ⟨fun _ => List.replicate 12 100, []⟩)
      ([(.emitter, 0), (.emitter, 1)] ++ List.replicate 7 (.worker 0, 0) ++
        List.replicate 7 (.worker 1, 0) ++ [(.collector, 0), (.collector, 0), (.collector, 1),
          (.collector, 0), (.emitter, 1), (.emitter, 0)])).map
      (fun s => (savedImages s, s.pushed (.workerQueue 0), s.pushed (.workerQueue 1))) =
        some ([twoImages.img 0],
          [(.emitter, taskOf twoImages 0 0), (.emitter, taskOf twoImages 1 1)],
          [(.emitter, taskOf twoImages 0 1), (.emitter, taskOf twoImages 1 0)]) := by rfl
  rcases Program.exists_of_exec _ _ hrun with ⟨s, hs, hshow⟩
  rcases Prod.mk.inj hshow with ⟨hsaved, hpushed⟩
  rcases Prod.mk.inj hpushed with ⟨hfirst, hsecond⟩
  have hqueue (index : ℕ) (hindex : index < 2) : ∃ cs : List (Fin 2), cs.length = 2 ∧
      s.pushed (.workerQueue index) =
        cs.mapIdx fun j c => (.emitter, taskOf twoImages j c) := by
    interval_cases index
    · exact ⟨[0, 1], rfl, hfirst⟩
    · exact ⟨[1, 0], rfl, hsecond⟩
  have hturn := reachableInTurn_of_pushed hs fun index hindex k j hj c hk => by
    rcases hqueue index hindex with ⟨cs, hcs, hpushed⟩
    rw [hpushed, List.getElem?_mapIdx] at hk
    rcases Option.map_eq_some_iff.mp hk with ⟨c', hc', he⟩
    have hlt : k < 2 := hcs ▸ (List.getElem?_eq_some_iff.mp hc').1
    exact (taskOf_inj hlt hj (congrArg Prod.snd he)).1
  exact ⟨s, hturn, hsaved, (farmMap_saves_inTurn twoImages [0, 200, 49, 50] 2 2 _ (by decide)
    (by decide) s hturn).2⟩

/-- One worker gets both chunks of the first image, the other one a chunk of the
second. The collector counts two results number 1, of different images, and saves
the second image, whose lower half is not even sent. -/
theorem farmMap_saves_unfinished :
    ∃ s, (code twoImages 2 2 [0, 0] 2 1).program.Reachable
        ⟨fun _ => [10, 20, 30, 40, 50, 60], []⟩ s ∧
      savedImages s = [twoImages.img 1] ∧
      ∀ t, (t, .chunkDone (taskOf twoImages 1 1)) ∉ s.mem.events := by
  have hrun : ((code twoImages 2 2 [0, 0] 2 1).program.exec
      ((code twoImages 2 2 [0, 0] 2 1).program.initial ⟨fun _ => [10, 20, 30, 40, 50, 60], []⟩)
      [(.emitter, 0), (.emitter, 0), (.emitter, 1), (.worker 0, 0), (.worker 0, 0),
        (.worker 0, 0), (.worker 0, 0), (.worker 0, 0), (.worker 0, 0), (.worker 1, 0),
        (.worker 1, 0), (.worker 1, 0), (.worker 1, 0), (.worker 1, 0), (.worker 1, 0),
        (.collector, 0), (.collector, 0), (.collector, 1), (.collector, 0)]).map
      (fun s => (savedImages s, (s.mem.events.map Prod.snd).filterMap Event.stamped)) =
        some ([twoImages.img 1], [taskOf twoImages 0 0, taskOf twoImages 1 0]) := by rfl
  rcases Program.exists_of_exec _ _ hrun with ⟨s, hs, hshow⟩
  rcases Prod.mk.inj hshow with ⟨hsaved, hstamped⟩
  refine ⟨s, hs, hsaved, fun t hmem => ?_⟩
  have hdone : taskOf twoImages 1 1 ∈ (s.mem.events.map Prod.snd).filterMap Event.stamped :=
    List.mem_filterMap.mpr ⟨_, List.mem_map_of_mem hmem, rfl⟩
  rw [hstamped] at hdone
  exact absurd hdone (by decide)

end WaterMark.FastFlow.FarmMap
