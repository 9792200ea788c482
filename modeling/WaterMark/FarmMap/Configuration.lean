import Mathlib.Algebra.Order.Ring.Nat
import Mathlib.Data.Nat.Cast.Order.Basic
import Mathlib.Tactic.Ring
import WaterMark.Library.CheckedInt

/-! # Choosing the maps

`main` of the two farms of maps first makes maps of 8 or 16 workers and then, as
long as the images are too few for them, puts two maps together into one. With
at least two images this ends in a usable choice.
-/

namespace WaterMark.FarmMap
open CheckedInt

abbrev intRange : Range := .signed 32

/-- The two programs that choose their maps. -/
inductive Version where
  | farmMap
  | ffFarmMap
deriving DecidableEq

/-- The workers that a map has at first when there are more than this. -/
def Version.limit : Version → ℕ
  | .farmMap => 8
  | .ffFarmMap => 16

structure Config where
  nmbMap : ℤ
  nWorkerMap : ℤ
deriving DecidableEq

/-- Before the loop. -/
def share (limit nw : ℤ) : Option Config :=
  if limit < nw then do
    let quotient ← intRange.div nw limit
    let nmbMap ← intRange.mul 1 quotient
    pure ⟨nmbMap, limit⟩
  else pure ⟨1, nw⟩

/-- The body of the loop. -/
def halve (c : Config) : Option Config := do
  let nWorkerMap ← intRange.mul c.nWorkerMap 2
  let nmbMap ← intRange.div c.nmbMap 2
  pure ⟨nmbMap, nWorkerMap⟩

/-- `nmbMap*2 > imageNumber`. -/
def tooMany (imageNumber : ℤ) (c : Config) : Option Bool := do
  let twice ← intRange.mul c.nmbMap 2
  pure (decide (imageNumber < twice))

/-- The choice of `main`, with at most `fuel` rounds of the loop. -/
def chooseMaps (limit nw imageNumber : ℤ) (fuel : ℕ) : Option Config := do
  let c ← share limit nw
  let again ← tooMany imageNumber c
  if again then doWhile halve (tooMany imageNumber) fuel c else pure c

/-- The images in `imgVector`: `main` loads one and then copies it. -/
def loadedImages (imageNumber : ℤ) : ℕ := 1 + (imageNumber - 1).toNat

/-- The numbers fit their later uses: there is a map and a worker, and neither
`j % nmbMap` in `scatter` nor the split of the rows divides by zero. -/
structure Usable (imageNumber : ℤ) (c : Config) : Prop where
  maps : 1 ≤ c.nmbMap
  workers : 1 ≤ c.nWorkerMap
  routes : ∀ j < loadedImages imageNumber, (intRange.mod j c.nmbMap).isSome
  splits : ∀ markHeight, 0 ≤ markHeight → intRange.Has markHeight →
    (intRange.div markHeight c.nWorkerMap).isSome ∧ (intRange.mod markHeight c.nWorkerMap).isSome

/-! ## The rounds of the loop -/

theorem has_intRange {n : ℕ} : intRange.Has n ↔ n ≤ 2 ^ 31 - 1 := by
  simp only [Range.Has, Range.signed]
  omega

theorem intRange_min : intRange.min ≤ 0 := by decide

def maps (limit nw : ℕ) : ℕ := if limit < nw then nw / limit else 1

def workersOfMap (limit nw : ℕ) : ℕ := if limit < nw then limit else nw

def halved (m w t : ℕ) : Config := ⟨(m / 2 ^ t : ℕ), (w * 2 ^ t : ℕ)⟩

theorem halved_zero (m w : ℕ) : halved m w 0 = ⟨m, w⟩ := by simp [halved]

theorem div_pow_succ (m t : ℕ) : m / 2 ^ (t + 1) = m / 2 ^ t / 2 := by
  rw [pow_succ, Nat.div_div_eq_div_mul]

section
variable {limit nw : ℕ}

theorem maps_pos (hlimit : 1 ≤ limit) : 1 ≤ maps limit nw := by
  unfold maps
  split_ifs with h
  · exact Nat.div_pos h.le hlimit
  · exact le_rfl

theorem workersOfMap_pos (hlimit : 1 ≤ limit) (hnw : 1 ≤ nw) : 1 ≤ workersOfMap limit nw := by
  unfold workersOfMap
  split_ifs <;> assumption

theorem maps_mul_le : maps limit nw * workersOfMap limit nw ≤ nw := by
  unfold maps workersOfMap
  split_ifs
  · exact Nat.div_mul_le_self nw limit
  · exact (Nat.one_mul nw).le

theorem maps_mul_two_le (hlimit : 2 ≤ limit) (hmax : nw ≤ 2 ^ 31 - 1) :
    maps limit nw * 2 ≤ 2 ^ 31 - 1 := by
  unfold maps
  split_ifs
  · calc nw / limit * 2 ≤ nw / limit * limit := Nat.mul_le_mul_left _ hlimit
      _ ≤ nw := Nat.div_mul_le_self nw limit
      _ ≤ 2 ^ 31 - 1 := hmax
  · decide

theorem share_eq (hlimit : 1 ≤ limit) (hmax : nw ≤ 2 ^ 31 - 1) :
    share limit nw = some (halved (maps limit nw) (workersOfMap limit nw) 0) := by
  rw [halved_zero, share, maps, workersOfMap]
  by_cases h : limit < nw
  · have hquot : intRange.Has (nw / limit : ℕ) :=
      has_intRange.mpr ((Nat.div_le_self nw limit).trans hmax)
    have hlt : (limit : ℤ) < nw := by exact_mod_cast h
    rw [if_pos hlt, if_pos h, if_pos h,
      Range.div_natCast hlimit intRange_min (has_intRange.mpr hmax)]
    simp only [Option.bind_eq_bind, Option.bind_some, Range.mul, one_mul, Range.fit_eq hquot]
    rfl
  · have hle : ¬ (limit : ℤ) < nw := by exact_mod_cast h
    rw [if_neg hle, if_neg h, if_neg h]
    rfl

theorem halve_halved {m w t : ℕ} (hm : m ≤ 2 ^ 31 - 1) (hw : w * 2 ^ (t + 1) ≤ 2 ^ 31 - 1) :
    halve (halved m w t) = some (halved m w (t + 1)) := by
  have hmul : ((w * 2 ^ t : ℕ) : ℤ) * 2 = (w * 2 ^ (t + 1) : ℕ) := by push_cast; ring
  have hmaps : m / 2 ^ t ≤ 2 ^ 31 - 1 := (Nat.div_le_self _ _).trans hm
  have hdiv : intRange.div (m / 2 ^ t : ℕ) 2 = some ((m / 2 ^ (t + 1) : ℕ) : ℤ) := by
    rw [div_pow_succ]
    exact Range.div_natCast two_pos intRange_min (has_intRange.mpr hmaps)
  simp only [halve, halved]
  rw [Range.mul_eq (hmul ▸ has_intRange.mpr hw), hdiv, hmul]
  rfl

theorem tooMany_halved {m w t : ℕ} (hm : m * 2 ≤ 2 ^ 31 - 1) (imageNumber : ℤ) :
    tooMany imageNumber (halved m w t) = some (decide (imageNumber < (m / 2 ^ t * 2 : ℕ))) := by
  have hle : m / 2 ^ t * 2 ≤ 2 ^ 31 - 1 :=
    (Nat.mul_le_mul_right 2 (Nat.div_le_self m _)).trans hm
  have hmul : ((m / 2 ^ t : ℕ) : ℤ) * 2 = (m / 2 ^ t * 2 : ℕ) := by push_cast; rfl
  simp only [tooMany, halved]
  rw [Range.mul_eq (hmul ▸ has_intRange.mpr hle), hmul]
  rfl

/-- Halving down to one map at least keeps the workers within those asked for. -/
theorem workersOfMap_mul_pow_le {t : ℕ} (ht : 1 ≤ maps limit nw / 2 ^ t) :
    workersOfMap limit nw * 2 ^ t ≤ nw := by
  have hpow : 2 ^ t ≤ maps limit nw := by
    by_contra hlt
    rw [Nat.div_eq_of_lt (Nat.lt_of_not_le hlt)] at ht
    omega
  calc workersOfMap limit nw * 2 ^ t ≤ workersOfMap limit nw * maps limit nw :=
        Nat.mul_le_mul_left _ hpow
    _ = maps limit nw * workersOfMap limit nw := Nat.mul_comm ..
    _ ≤ nw := maps_mul_le

/-- The choice after `t` rounds, which are as many as needed. -/
structure Rounds (limit nw : ℕ) (imageNumber : ℤ) (t : ℕ) : Prop where
  pos : 1 ≤ maps limit nw / 2 ^ t
  before : ∀ u < t, imageNumber < (maps limit nw / 2 ^ u * 2 : ℕ)

variable {imageNumber : ℤ}

/-- With two images at least, a round that the loop still makes halves two maps
or more. -/
theorem Rounds.next {t : ℕ} (h : Rounds limit nw imageNumber t) (hn : 2 ≤ imageNumber)
    (hmore : imageNumber < (maps limit nw / 2 ^ t * 2 : ℕ)) :
    Rounds limit nw imageNumber (t + 1) where
  pos := by
    rw [div_pow_succ]
    omega
  before u hu := by
    by_cases hut : u = t
    · rw [hut]
      exact hmore
    · exact h.before u (by omega)

theorem Rounds.halve {t : ℕ} (h : Rounds limit nw imageNumber t) (hlimit : 2 ≤ limit)
    (hmax : nw ≤ 2 ^ 31 - 1) (hn : 2 ≤ imageNumber)
    (hmore : imageNumber < (maps limit nw / 2 ^ t * 2 : ℕ)) :
    halve (halved (maps limit nw) (workersOfMap limit nw) t) =
        some (halved (maps limit nw) (workersOfMap limit nw) (t + 1)) ∧
      Rounds limit nw imageNumber (t + 1) ∧
      maps limit nw / 2 ^ (t + 1) < maps limit nw / 2 ^ t := by
  have htwice := maps_mul_two_le hlimit hmax
  have hnext := h.next hn hmore
  have hpos := h.pos
  have hworkers := (workersOfMap_mul_pow_le hnext.pos).trans hmax
  refine ⟨halve_halved (by omega) hworkers, hnext, ?_⟩
  rw [div_pow_succ]
  omega

/-- The choice for two images at least: it ends after the fewest rounds that
leave two images for each map. -/
theorem exists_rounds (hlimit : 2 ≤ limit) (hmax : nw ≤ 2 ^ 31 - 1)
    (hn : 2 ≤ imageNumber) :
    ∃ fuel t, chooseMaps limit nw imageNumber fuel =
        some (halved (maps limit nw) (workersOfMap limit nw) t) ∧
      Rounds limit nw imageNumber t ∧ (maps limit nw / 2 ^ t * 2 : ℕ) ≤ imageNumber := by
  have htwice := maps_mul_two_le hlimit hmax
  have hstart : Rounds limit nw imageNumber 0 :=
    ⟨by simpa using maps_pos (by omega), fun u hu => absurd hu (by omega)⟩
  have hchoose (fuel : ℕ) : chooseMaps limit nw imageNumber fuel =
      if imageNumber < (maps limit nw * 2 : ℕ) then
        doWhile halve (tooMany imageNumber) fuel
          (halved (maps limit nw) (workersOfMap limit nw) 0)
      else some (halved (maps limit nw) (workersOfMap limit nw) 0) := by
    simp [chooseMaps, share_eq (by omega : 1 ≤ limit) hmax, tooMany_halved htwice]
  by_cases hmore : imageNumber < (maps limit nw * 2 : ℕ)
  · -- the loop, by the number of maps
    have hloop : ∃ fuel c, doWhile halve (tooMany imageNumber) fuel
        (halved (maps limit nw) (workersOfMap limit nw) 0) = some c ∧
        ∃ t, c = halved (maps limit nw) (workersOfMap limit nw) t ∧
          Rounds limit nw imageNumber t ∧ (maps limit nw / 2 ^ t * 2 : ℕ) ≤ imageNumber := by
      apply exists_doWhile (I := fun c => ∃ t,
        c = halved (maps limit nw) (workersOfMap limit nw) t ∧
          Rounds limit nw imageNumber t ∧ imageNumber < (maps limit nw / 2 ^ t * 2 : ℕ))
        (fun c => c.nmbMap.toNat) _ ⟨0, rfl, hstart, by simpa using hmore⟩
      rintro c ⟨t, rfl, ht, hlt⟩
      obtain ⟨hhalve, hnext, hdecreases⟩ := ht.halve hlimit hmax hn hlt
      refine ⟨_, hhalve, ?_⟩
      rw [tooMany_halved htwice]
      by_cases hagain : imageNumber < (maps limit nw / 2 ^ (t + 1) * 2 : ℕ)
      · refine Or.inl ⟨by rw [decide_eq_true hagain], ⟨t + 1, rfl, hnext, hagain⟩, ?_⟩
        simpa only [halved, Int.toNat_natCast] using hdecreases
      · exact Or.inr ⟨by rw [decide_eq_false hagain], t + 1, rfl, hnext, by omega⟩
    obtain ⟨fuel, c, hc, t, rfl, ht⟩ := hloop
    exact ⟨fuel, t, by rw [hchoose, if_pos hmore, hc], ht⟩
  · refine ⟨0, 0, by rw [hchoose, if_neg hmore], hstart, ?_⟩
    simpa using hmore

end

/-! ## The images that main accepts -/

theorem Version.limit_ge (version : Version) : 2 ≤ version.limit := by
  cases version <;> decide

theorem usable_of_pos {imageNumber : ℤ} {m w : ℕ} (hm : 1 ≤ m) (hw : 1 ≤ w)
    (hint : intRange.Has imageNumber) : Usable imageNumber ⟨m, w⟩ where
  maps := Int.ofNat_le.mpr hm
  workers := Int.ofNat_le.mpr hw
  routes j hj := by
    have hmax : j ≤ 2 ^ 31 - 1 := by
      simp only [loadedImages, Range.Has, Range.signed] at hj hint
      omega
    rw [Range.mod_natCast hm intRange_min (has_intRange.mpr hmax)]
    rfl
  splits markHeight h0 hheight := by
    lift markHeight to ℕ using h0
    rw [Range.div_natCast hw intRange_min hheight, Range.mod_natCast hw intRange_min hheight]
    exact ⟨rfl, rfl⟩

theorem tooMany_of_chooseMaps {limit nw imageNumber : ℤ} {fuel : ℕ} {c : Config}
    (h : chooseMaps limit nw imageNumber fuel = some c) : c.nmbMap * 2 ≤ imageNumber := by
  have hcond : tooMany imageNumber c = some false := by
    simp only [chooseMaps, Option.bind_eq_bind, Option.bind_eq_some_iff] at h
    obtain ⟨c₀, -, again, hagain, h⟩ := h
    cases again with
    | true => exact cond_of_doWhile (by simpa using h)
    | false =>
      obtain rfl : c₀ = c := by simpa using h
      exact hagain
  simp only [tooMany, Range.mul, Option.bind_eq_bind, Option.bind_eq_some_iff,
    Range.fit_eq_some] at hcond
  obtain ⟨twice, ⟨-, rfl⟩, hlt⟩ := hcond
  simpa using hlt

theorem nmbMap_nonneg_of_halve {c c' : Config} (hc : 0 ≤ c.nmbMap) (h : halve c = some c') :
    0 ≤ c'.nmbMap := by
  simp only [halve, Option.bind_eq_bind, Option.bind_eq_some_iff, Range.div_eq_some] at h
  obtain ⟨w, -, m, ⟨-, -, rfl⟩, h⟩ := h
  obtain rfl := Option.some.inj h
  exact Int.tdiv_nonneg hc (by decide)

/-- Without images only the choice of no map at all ends the loop, and for a
negative number of images nothing does. -/
theorem chooseMaps_of_nonpos {limit nw : ℕ} {imageNumber : ℤ} {fuel : ℕ} {c : Config}
    (hlimit : 1 ≤ limit) (hmax : nw ≤ 2 ^ 31 - 1) (hn : imageNumber ≤ 0)
    (h : chooseMaps limit nw imageNumber fuel = some c) : imageNumber = 0 ∧ c.nmbMap = 0 := by
  have htwice := tooMany_of_chooseMaps h
  have hnonneg : 0 ≤ c.nmbMap := by
    simp only [chooseMaps, share_eq hlimit hmax, Option.bind_eq_bind, Option.bind_some,
      Option.bind_eq_some_iff] at h
    obtain ⟨again, -, h⟩ := h
    have hstart : 0 ≤ (halved (maps limit nw) (workersOfMap limit nw) 0).nmbMap :=
      Int.natCast_nonneg _
    cases again with
    | true =>
      exact invariant_of_doWhile (I := fun c => 0 ≤ c.nmbMap)
        (fun _ _ hc hround => nmbMap_nonneg_of_halve hc hround) hstart (by simpa using h)
    | false => exact Option.some.inj h ▸ hstart
  omega

/-- The image numbers from 2 on, and no others, lead to a choice that can be
used, in both programs and for any number of workers. Of the others `main`
rejects only 1. -/
theorem chooseMaps_usable_iff (version : Version) (nw imageNumber : ℤ) (hnw : 1 ≤ nw)
    (hnwInt : intRange.Has nw) (hint : intRange.Has imageNumber) :
    (∃ fuel c, chooseMaps version.limit nw imageNumber fuel = some c ∧ Usable imageNumber c) ↔
      2 ≤ imageNumber := by
  constructor
  · rintro ⟨fuel, c, hc, husable⟩
    have htwice := tooMany_of_chooseMaps hc
    have hmaps := husable.maps
    omega
  · intro hn
    lift nw to ℕ using by omega
    have hlimit := version.limit_ge
    obtain ⟨fuel, t, hchoice, hrounds, -⟩ := exists_rounds hlimit (has_intRange.mp hnwInt) hn
    have hworkers : 1 ≤ workersOfMap version.limit nw * 2 ^ t :=
      Nat.mul_pos (workersOfMap_pos (by omega) (by omega)) (Nat.two_pow_pos t)
    exact ⟨fuel, _, hchoice, usable_of_pos hrounds.pos hworkers hint⟩

/-- A run with one worker and two images keeps its one map. -/
theorem chooseMaps_usable_twoImages :
    ∃ fuel c, chooseMaps Version.farmMap.limit 1 2 fuel = some c ∧ Usable 2 c :=
  (chooseMaps_usable_iff .farmMap 1 2 (by decide) (by decide) (by decide)).mpr (by decide)

/-- The image number 0 is accepted. One worker is doubled and its only map halved
to none, and the number of the image that is loaded all the same would be
divided by the number of maps. -/
theorem chooseMaps_noImage :
    chooseMaps Version.farmMap.limit 1 0 1 = some ⟨0, 2⟩ ∧ loadedImages 0 = 1 ∧
      intRange.mod 0 0 = none ∧
      ¬ ∃ fuel c, chooseMaps Version.farmMap.limit 1 0 fuel = some c ∧ Usable 0 c := by
  refine ⟨by decide, by decide, by decide, ?_⟩
  rintro ⟨fuel, c, hc, husable⟩
  have htwice := tooMany_of_chooseMaps hc
  have hmaps := husable.maps
  omega

/-! ## The threads that the farm of maps creates and joins -/

/-- A worker thread: its queue, its chunk `infoVector[map][chunk]` and its `mapID`. -/
structure WorkerThread where
  index : ℕ
  map : ℕ
  chunk : ℕ
  mapID : ℕ
deriving DecidableEq

/-- `workers` after the loops that create the threads. -/
def workerThreads (nmbMap nWorkerMap : ℕ) : List WorkerThread :=
  (List.range nmbMap).flatMap fun i =>
    (List.range nWorkerMap).map fun j => ⟨j + nWorkerMap * i, i, j, i⟩

def Config.threads (c : Config) : List WorkerThread :=
  workerThreads c.nmbMap.toNat c.nWorkerMap.toNat

/-- What the loop that joins `workers[0]` to `workers[nw-1]` finds. -/
def joined (nw : ℕ) (threads : List WorkerThread) : List (Option WorkerThread) :=
  (List.range nw).map fun i => threads[i]?

/-- All workers asked for are there, and the loop joins these threads and
indexes no other. -/
structure JoinsAll (nw : ℕ) (c : Config) : Prop where
  product : c.nmbMap * c.nWorkerMap = nw
  inside : ∀ i < nw, i < c.threads.length
  exact : joined nw c.threads = c.threads.map some

theorem length_workerThreads (nmbMap nWorkerMap : ℕ) :
    (workerThreads nmbMap nWorkerMap).length = nmbMap * nWorkerMap := by
  simp [workerThreads, List.length_flatMap, List.map_const']

theorem joined_length (threads : List WorkerThread) :
    joined threads.length threads = threads.map some := by
  apply List.ext_getElem
  · simp [joined]
  · intro i hi hi'
    have hlt : i < threads.length := by simpa using hi'
    simp [joined, hlt]

theorem joinsAll_iff {nw m w : ℕ} : JoinsAll nw ⟨m, w⟩ ↔ m * w = nw := by
  have hlength : (Config.threads ⟨m, w⟩).length = m * w := length_workerThreads m w
  constructor
  · intro h
    have hproduct : (m : ℤ) * w = nw := h.product
    exact_mod_cast hproduct
  · rintro rfl
    refine ⟨by push_cast; rfl, fun i hi => by rwa [hlength], ?_⟩
    rw [← hlength, joined_length]

theorem chooseMaps_unique {limit nw imageNumber : ℤ} {fuel fuel' : ℕ} {c c' : Config}
    (h : chooseMaps limit nw imageNumber fuel = some c)
    (h' : chooseMaps limit nw imageNumber fuel' = some c') : c = c' := by
  simp only [chooseMaps, Option.bind_eq_bind, Option.bind_eq_some_iff] at h h'
  obtain ⟨c₀, hshare, again, hagain, h⟩ := h
  obtain ⟨c₁, hshare', again', hagain', h'⟩ := h'
  obtain rfl : c₀ = c₁ := Option.some.inj (hshare.symm.trans hshare')
  obtain rfl : again = again' := Option.some.inj (hagain.symm.trans hagain')
  cases again with
  | true => exact doWhile_unique (by simpa using h) (by simpa using h')
  | false => exact Option.some.inj (h.symm.trans h')

theorem Rounds.eq_zero {nw t : ℕ} (h : Rounds 8 nw imageNumber t) (hnw : nw ≤ 8) : t = 0 := by
  have hmaps : maps 8 nw = 1 := if_neg (by omega)
  have hpos := h.pos
  by_contra hne
  have : 2 ≤ 2 ^ t := Nat.le_self_pow hne 2
  rw [hmaps, Nat.div_eq_of_lt (by omega)] at hpos
  omega

/-- The loop stops at the latest when a factor `2 ^ k` that leaves few enough
maps is used up. -/
theorem Rounds.le_of_factor {nw t k d : ℕ} (h : Rounds 8 nw imageNumber t)
    (hquot : maps 8 nw = 2 ^ k * d) (hd : 2 * d ≤ imageNumber) : t ≤ k := by
  by_contra hlt
  have hk := h.before k (by omega)
  rw [hquot, Nat.mul_div_cancel_left _ (Nat.two_pow_pos k)] at hk
  push_cast at hk
  omega

/-- The rounds lose no worker when nothing is lost in the division by the limit
and the halvings. -/
theorem rounds_product_iff {nw t : ℕ} {imageNumber : ℤ} (h : Rounds 8 nw imageNumber t)
    (hend : (maps 8 nw / 2 ^ t * 2 : ℕ) ≤ imageNumber) :
    maps 8 nw / 2 ^ t * (workersOfMap 8 nw * 2 ^ t) = nw ↔
      nw ≤ 8 ∨ ∃ k d : ℕ, nw = 8 * 2 ^ k * d ∧ 2 * d ≤ imageNumber := by
  by_cases hnw : 8 < nw
  · have hmaps : maps 8 nw = nw / 8 := if_pos hnw
    have hworkers : workersOfMap 8 nw = 8 := if_pos hnw
    rw [hmaps] at hend
    rw [hmaps, hworkers]
    constructor
    · intro hproduct
      refine Or.inr ⟨t, nw / 8 / 2 ^ t, ?_, by push_cast at hend ⊢; omega⟩
      rw [Nat.mul_comm, hproduct]
    · rintro (hle | ⟨k, d, hnwk, hd⟩)
      · omega
      · have hquot : nw / 8 = 2 ^ k * d := by
          rw [hnwk, Nat.mul_assoc, Nat.mul_div_cancel_left _ (by decide)]
        have htk : t ≤ k := h.le_of_factor (hmaps.trans hquot) hd
        obtain ⟨u, rfl⟩ := Nat.exists_eq_add_of_le htk
        rw [hquot, Nat.pow_add, Nat.mul_assoc,
          Nat.mul_div_cancel_left _ (Nat.two_pow_pos t), hnwk, Nat.pow_add]
        ring
  · have hmaps : maps 8 nw = 1 := if_neg hnw
    have hworkers : workersOfMap 8 nw = nw := if_neg hnw
    have ht : t = 0 := h.eq_zero (by omega)
    subst ht
    simp [hmaps, hworkers, Nat.le_of_not_lt hnw]

/-- The threads of the farm of maps are `nw` workers, all of them joined and no
other index used, exactly when there are at most 8 workers or 8 divides their
number and doubling a map's workers uses up no more than a power of two of it. -/
theorem joins_created_iff (nw : ℕ) (imageNumber : ℤ) (hmax : nw ≤ 2 ^ 31 - 1)
    (hn : 2 ≤ imageNumber) :
    (∃ fuel c, chooseMaps Version.farmMap.limit nw imageNumber fuel = some c ∧ JoinsAll nw c) ↔
      nw ≤ 8 ∨ ∃ k d : ℕ, nw = 8 * 2 ^ k * d ∧ 2 * d ≤ imageNumber := by
  obtain ⟨fuel, t, hchoice, hrounds, hend⟩ :=
    exists_rounds (show 2 ≤ Version.farmMap.limit by decide) hmax hn
  rw [← rounds_product_iff hrounds hend, ← joinsAll_iff]
  constructor
  · rintro ⟨fuel', c, hc, hjoins⟩
    rw [chooseMaps_unique hc hchoice] at hjoins
    exact hjoins
  · intro hjoins
    exact ⟨fuel, _, hchoice, hjoins⟩

theorem joins_created_sixteen :
    ∃ fuel c, chooseMaps Version.farmMap.limit 16 2 fuel = some c ∧ JoinsAll 16 c :=
  (joins_created_iff 16 2 (by decide) (by decide)).mpr (Or.inr ⟨1, 1, by decide⟩)

/-- Nine workers and two images: eight threads are created, and the ninth is
joined. -/
theorem joins_ninth :
    chooseMaps Version.farmMap.limit 9 2 0 = some ⟨1, 8⟩ ∧
      none ∈ joined 9 (Config.threads ⟨1, 8⟩) ∧
      ¬ ∃ fuel c, chooseMaps Version.farmMap.limit 9 2 fuel = some c ∧ JoinsAll 9 c := by
  refine ⟨by decide, by decide, ?_⟩
  rintro ⟨fuel, c, hc, hjoins⟩
  have hchoice : chooseMaps Version.farmMap.limit 9 2 0 = some ⟨1, 8⟩ := by decide
  rw [chooseMaps_unique hc hchoice] at hjoins
  exact absurd hjoins.product (by decide)

end WaterMark.FarmMap
