import Mathlib.Data.Int.CardIntervalMod
import WaterMark.FarmMap
import WaterMark.FarmMap.Configuration

/-! # Routing in the farm of maps

`scatter` computes a queue as `mapIndex*nWorkerMap+i`, the loop that creates the
threads as `j+nWorkerMap*i`, and `main` allocates `nw` queues. For the numbers
that `main` chooses the three agree.
-/

namespace WaterMark.FarmMap
open CheckedInt

/-! ## The queues of the threads -/

variable {nmbMap nWorkerMap : ℕ}

theorem mem_workerThreads {t : WorkerThread} : t ∈ workerThreads nmbMap nWorkerMap ↔
    ∃ i < nmbMap, ∃ j < nWorkerMap, t = ⟨j + nWorkerMap * i, i, j, i⟩ := by
  simp only [workerThreads, List.mem_flatMap, List.mem_range, List.mem_map, eq_comm]

/-- A thread's queue tells its map and its chunk. -/
theorem index_of_mem {t : WorkerThread} (ht : t ∈ workerThreads nmbMap nWorkerMap) :
    t.index < nmbMap * nWorkerMap ∧ t.mapID = t.index / nWorkerMap ∧
      t.map = t.index / nWorkerMap ∧ t.chunk = t.index % nWorkerMap := by
  obtain ⟨i, hi, j, hj, rfl⟩ := mem_workerThreads.mp ht
  have hpos : 0 < nWorkerMap := Nat.zero_lt_of_lt hj
  have hdiv : (j + nWorkerMap * i) / nWorkerMap = i := by
    rw [Nat.add_mul_div_left _ _ hpos, Nat.div_eq_of_lt hj, Nat.zero_add]
  have hmod : (j + nWorkerMap * i) % nWorkerMap = j := by
    rw [Nat.add_mul_mod_self_left, Nat.mod_eq_of_lt hj]
  have hle : nWorkerMap * (i + 1) ≤ nWorkerMap * nmbMap := Nat.mul_le_mul_left _ hi
  rw [Nat.mul_succ, Nat.mul_comm nWorkerMap nmbMap] at hle
  exact ⟨by simp only; omega, hdiv.symm, hdiv.symm, hmod.symm⟩

theorem existsUnique_thread {q : ℕ} (hq : q < nmbMap * nWorkerMap) :
    ∃! t, t ∈ workerThreads nmbMap nWorkerMap ∧ t.index = q := by
  have hpos : 0 < nWorkerMap := Nat.pos_of_mul_pos_left (Nat.zero_lt_of_lt hq)
  have hmap : q / nWorkerMap < nmbMap := Nat.div_lt_of_lt_mul (Nat.mul_comm _ _ ▸ hq)
  refine ⟨⟨q, q / nWorkerMap, q % nWorkerMap, q / nWorkerMap⟩, ⟨?_, rfl⟩, ?_⟩
  · apply mem_workerThreads.mpr
    exact ⟨_, hmap, _, Nat.mod_lt q hpos, by rw [Nat.mod_add_div]⟩
  · rintro t ⟨ht, rfl⟩
    obtain ⟨-, hID, hmap, hchunk⟩ := index_of_mem ht
    rw [← hID, ← hchunk]
    cases t
    simp_all

/-! ## The queues of `scatter` -/

variable (st : ImageStream)

theorem mem_scatter {q : ℕ} {task : Task} : (q, task) ∈ scatter st nmbMap nWorkerMap ↔
    (∃ j < st.size, ∃ i < nWorkerMap, q = j % nmbMap * nWorkerMap + i ∧ task = taskOf st j) ∨
      q < nWorkerMap * nmbMap ∧ task = eofTask := by
  simp only [scatter, List.mem_append, List.mem_flatMap, List.mem_range, List.mem_map,
    Prod.mk.injEq]
  constructor
  · rintro (⟨j, hj, i, hi, rfl, rfl⟩ | ⟨k, hk, rfl, rfl⟩)
    · exact Or.inl ⟨j, hj, i, hi, rfl, rfl⟩
    · exact Or.inr ⟨hk, rfl⟩
  · rintro (⟨j, hj, i, hi, rfl, rfl⟩ | ⟨hq, rfl⟩)
    · exact Or.inl ⟨j, hj, i, hi, rfl, rfl⟩
    · exact Or.inr ⟨q, hq, rfl, rfl⟩

/-- `scatter` pushes on the first `nmbMap*nWorkerMap` queues. -/
theorem exists_push_iff (hMap : 1 ≤ nmbMap) {q : ℕ} :
    (∃ task, (q, task) ∈ scatter st nmbMap nWorkerMap) ↔ q < nmbMap * nWorkerMap := by
  rw [Nat.mul_comm]
  constructor
  · rintro ⟨task, htask⟩
    obtain ⟨j, -, i, hi, rfl, -⟩ | ⟨hq, -⟩ := (mem_scatter st).mp htask
    · have hle := Nat.mul_le_mul_left nWorkerMap (Nat.succ_le_of_lt (Nat.mod_lt j hMap))
      rw [Nat.mul_succ, Nat.mul_comm nWorkerMap (j % nmbMap)] at hle
      omega
    · exact hq
  · intro hq
    exact ⟨eofTask, (mem_scatter st).mpr (Or.inr ⟨hq, rfl⟩)⟩

theorem image_pushed_iff (hMap : 1 ≤ nmbMap) {q j : ℕ} (hj : j < st.size) :
    (q, taskOf st j) ∈ scatter st nmbMap nWorkerMap ↔
      q < nmbMap * nWorkerMap ∧ q / nWorkerMap = j % nmbMap := by
  constructor
  · intro hpush
    refine ⟨(exists_push_iff st hMap).mp ⟨_, hpush⟩, ?_⟩
    obtain ⟨j', hj', i, hi, rfl, htask⟩ | ⟨-, htask⟩ := (mem_scatter st).mp hpush
    · obtain rfl : j = j' := (st.pix_inj hj hj').mp (congrArg Task.dataImg htask)
      rw [Nat.mul_comm, Nat.mul_add_div (Nat.zero_lt_of_lt hi), Nat.div_eq_of_lt hi, Nat.add_zero]
    · exact absurd (congrArg Task.dataImg htask) (st.pix_ne hj)
  · rintro ⟨hq, hmap⟩
    have hpos : 0 < nWorkerMap := Nat.pos_of_mul_pos_left (Nat.zero_lt_of_lt hq)
    refine (mem_scatter st).mpr (Or.inl ⟨j, hj, q % nWorkerMap, Nat.mod_lt q hpos, ?_, rfl⟩)
    rw [← hmap, Nat.mul_comm, Nat.div_add_mod]

/-- The round robin deals as evenly as possible. -/
theorem length_images (hMap : 1 ≤ nmbMap) {m : ℕ} (hm : m < nmbMap) :
    (images st nmbMap m).length = st.size / nmbMap + if m < st.size % nmbMap then 1 else 0 := by
  have hcount := Nat.count_modEq_card st.size hMap m
  rw [Nat.mod_eq_of_lt hm] at hcount
  rw [← hcount, images, ← List.countP_eq_length_filter, Nat.count]
  apply List.countP_congr
  intro j _
  simp [Nat.ModEq, Nat.mod_eq_of_lt hm]

/-! ## The three computations agree -/

/-- What the numbers of maps and workers have to satisfy for `nw` queues and the
images of the stream. -/
structure Routing (nw nmbMap nWorkerMap : ℕ) : Prop where
  product : nmbMap * nWorkerMap ≤ nw
  pushes : ∀ e ∈ scatter st nmbMap nWorkerMap, e.1 < nw
  pops : ∀ t ∈ workerThreads nmbMap nWorkerMap, t.index < nw
  same : ∀ q, (∃ task, (q, task) ∈ scatter st nmbMap nWorkerMap) ↔
    ∃ t ∈ workerThreads nmbMap nWorkerMap, t.index = q
  consumer : ∀ q task, (q, task) ∈ scatter st nmbMap nWorkerMap →
    ∃! t, t ∈ workerThreads nmbMap nWorkerMap ∧ t.index = q
  owner : ∀ t ∈ workerThreads nmbMap nWorkerMap, t.mapID = t.index / nWorkerMap ∧
    t.map = t.index / nWorkerMap ∧ t.chunk = t.index % nWorkerMap
  image : ∀ q, ∀ j < st.size, (q, taskOf st j) ∈ scatter st nmbMap nWorkerMap ↔
    q < nmbMap * nWorkerMap ∧ q / nWorkerMap = j % nmbMap
  load : ∀ m < nmbMap, 2 ≤ (images st nmbMap m).length
  balanced : ∀ m < nmbMap, ∀ m' < nmbMap,
    (images st nmbMap m).length ≤ (images st nmbMap m').length + 1

/-- Positive numbers whose product is within `nw` route, given two images for
each map. -/
theorem routing_of_le {nw : ℕ} (hMap : 1 ≤ nmbMap) (hproduct : nmbMap * nWorkerMap ≤ nw)
    (hload : nmbMap * 2 ≤ st.size) : Routing st nw nmbMap nWorkerMap where
  product := hproduct
  pushes e he := ((exists_push_iff st hMap).mp ⟨e.2, he⟩).trans_le hproduct
  pops t ht := (index_of_mem ht).1.trans_le hproduct
  same q := by
    rw [exists_push_iff st hMap]
    constructor
    · intro hq
      obtain ⟨t, ⟨ht, rfl⟩, -⟩ := existsUnique_thread hq
      exact ⟨t, ht, rfl⟩
    · rintro ⟨t, ht, rfl⟩
      exact (index_of_mem ht).1
  consumer q task htask := existsUnique_thread ((exists_push_iff st hMap).mp ⟨task, htask⟩)
  owner t ht := (index_of_mem ht).2
  image q j hj := image_pushed_iff st hMap hj
  load m hm := by
    have htwo : 2 ≤ st.size / nmbMap := (Nat.le_div_iff_mul_le hMap).mpr (by omega)
    rw [length_images st hMap hm]
    omega
  balanced m hm m' hm' := by
    rw [length_images st hMap hm, length_images st hMap hm']
    split_ifs <;> omega

/-- For every number of workers and at least two images, the numbers that `main`
chooses are positive and route: the pushes of `scatter` and the pops of the
workers use the same queues, all allocated, each has one consumer, and every map
gets two images. -/
theorem farmMap_routing (nw imageNumber : ℤ) (hnw : 1 ≤ nw) (hnwInt : intRange.Has nw)
    (hn : 2 ≤ imageNumber) (hst : st.size = loadedImages imageNumber) :
    ∃ fuel c, chooseMaps Version.farmMap.limit nw imageNumber fuel = some c ∧
      1 ≤ c.nmbMap ∧ 1 ≤ c.nWorkerMap ∧
      Routing st nw.toNat c.nmbMap.toNat c.nWorkerMap.toNat := by
  lift nw to ℕ using by omega
  have hlimit := Version.farmMap.limit_ge
  obtain ⟨fuel, t, hchoice, hrounds, hend⟩ := exists_rounds hlimit (has_intRange.mp hnwInt) hn
  have hworkers : 1 ≤ workersOfMap Version.farmMap.limit nw * 2 ^ t :=
    Nat.mul_pos (workersOfMap_pos (by omega) (by omega)) (Nat.two_pow_pos t)
  refine ⟨fuel, _, hchoice, Int.ofNat_le.mpr hrounds.pos, Int.ofNat_le.mpr hworkers, ?_⟩
  simp only [halved, Int.toNat_natCast]
  apply routing_of_le st hrounds.pos
  · calc _ = maps _ nw / 2 ^ t * 2 ^ t * workersOfMap _ nw := by ring
      _ ≤ maps _ nw * workersOfMap _ nw := Nat.mul_le_mul_right _ (Nat.div_mul_le_self _ _)
      _ ≤ nw := maps_mul_le
  · rw [hst, loadedImages]
    omega

/-- Three maps of eight workers for six images. -/
theorem farmMap_routing_sixImages :
    ∃ fuel c, chooseMaps Version.farmMap.limit 24 6 fuel = some c ∧
      1 ≤ c.nmbMap ∧ 1 ≤ c.nWorkerMap ∧
      Routing sixImages 24 c.nmbMap.toNat c.nWorkerMap.toNat :=
  farmMap_routing sixImages 24 6 (by decide) (by decide) (by decide) (by decide)

end WaterMark.FarmMap
