import Mathlib.Data.List.AList
import Mathlib.Data.List.Induction
import WaterMark.Images

/-! # The counting loop of the gather

`gather` counts the results of each image in a `map<int,int>`. An entry starts
at 1, an image is complete when the entry has reached `nw-1` and one more result
comes in, and its entry is then erased. With one worker the entry is created
and erased by the same message.
-/

namespace WaterMark.Gather

/-- `map<int,int>`. -/
abbrev Pool := AList fun _ : ℤ => ℤ

/-- `pool.count(imageId)`. -/
def Pool.count (pool : Pool) (imageId : ℤ) : ℕ := if imageId ∈ pool then 1 else 0

/-- `pool[imageId]`, which creates an entry 0 where there is none. -/
def Pool.index (pool : Pool) (imageId : ℤ) : ℤ × Pool :=
  match pool.lookup imageId with
  | some value => (value, pool)
  | none => (0, pool.insert imageId 0)

/-- What `gather` does with a result: the new pool, and whether the image is
complete. -/
def poolStep (nw : ℤ) (pool : Pool) (imageId : ℤ) : Pool × Bool :=
  if pool.count imageId = 1 ∨ nw = 1 then
    let (value, pool) := pool.index imageId
    if value = nw - 1 then (pool.erase imageId, true) else (pool.insert imageId (value + 1), false)
  else (pool.insert imageId 1, false)

/-- A message of the gather queue: the number of an image and its pointer, which
is null for the end of a worker's stream. -/
abbrev Result := ℤ × Ptr

/-- What `gather` has counted, and the results that completed an image, oldest
first. -/
structure Collected where
  pool : Pool
  nullNmb : ℤ
  complete : List Result

/-- One iteration of the loop of `gather`, its return left aside. -/
def collectStep (nw : ℤ) (g : Collected) (msg : Result) : Collected :=
  if msg.2 = NULL then { g with nullNmb := g.nullNmb + 1 }
  else
    let (pool, full) := poolStep nw g.pool msg.1
    { g with pool := pool, complete := if full then g.complete ++ [msg] else g.complete }

def collect (nw : ℤ) (msgs : List Result) : Collected := msgs.foldl (collectStep nw) ⟨∅, 0, []⟩

@[simp] theorem collect_nil (nw : ℤ) : collect nw [] = ⟨∅, 0, []⟩ := rfl

theorem collect_snoc (nw : ℤ) (msgs : List Result) (msg : Result) :
    collect nw (msgs ++ [msg]) = collectStep nw (collect nw msgs) msg := by
  simp [collect]

theorem collect_snoc_null (nw : ℤ) (msgs : List Result) {m : Result} (hm : m.2 = NULL) :
    collect nw (msgs ++ [m]) =
      { collect nw msgs with nullNmb := (collect nw msgs).nullNmb + 1 } := by
  rw [collect_snoc, collectStep, if_pos hm]

theorem collect_snoc_full {nw : ℤ} {msgs : List Result} {m : Result} (hm : m.2 ≠ NULL)
    (hfull : (poolStep nw (collect nw msgs).pool m.1).2 = true) :
    collect nw (msgs ++ [m]) = {
      collect nw msgs with
      pool := (poolStep nw (collect nw msgs).pool m.1).1
      complete := (collect nw msgs).complete ++ [m] } := by
  rw [collect_snoc, collectStep, if_neg hm]
  simp only [if_pos hfull]

theorem collect_snoc_part {nw : ℤ} {msgs : List Result} {m : Result} (hm : m.2 ≠ NULL)
    (hfull : (poolStep nw (collect nw msgs).pool m.1).2 ≠ true) :
    collect nw (msgs ++ [m]) =
      { collect nw msgs with pool := (poolStep nw (collect nw msgs).pool m.1).1 } := by
  rw [collect_snoc, collectStep, if_neg hm]
  simp only [if_neg hfull]

/-! ## The pool counts modulo the number of workers -/

/-- The pool after `c k` results of each number `k`. -/
def Counts (nw : ℕ) (pool : Pool) (c : ℤ → ℕ) : Prop :=
  ∀ k, pool.lookup k = if c k % nw = 0 then none else some (c k % nw : ℕ)

theorem Counts.empty (nw : ℕ) : Counts nw ∅ fun _ => 0 := fun k => by simp

theorem Counts.value {nw : ℕ} {pool : Pool} {c : ℤ → ℕ} (h : Counts nw pool c) (k : ℤ) :
    (pool.index k).1 = (c k % nw : ℕ) := by
  unfold Pool.index
  rw [h k]
  by_cases h0 : c k % nw = 0
  · simp [h0]
  · simp [h0]

theorem Pool.lookup_index (pool : Pool) {k k' : ℤ} (h : k' ≠ k) :
    (pool.index k).2.lookup k' = pool.lookup k' := by
  unfold Pool.index
  split
  · rfl
  · exact AList.lookup_insert_ne h

theorem Counts.mem_iff {nw : ℕ} {pool : Pool} {c : ℤ → ℕ} (h : Counts nw pool c) (k : ℤ) :
    k ∈ pool ↔ c k % nw ≠ 0 := by
  rw [← not_iff_not, ← AList.lookup_eq_none, h k]
  simp

private theorem succ_mod {nw : ℕ} (hnw : 1 ≤ nw) (c : ℕ) :
    (c + 1) % nw = if c % nw = nw - 1 then 0 else c % nw + 1 := by
  have hlt : c % nw < nw := Nat.mod_lt _ hnw
  rw [← Nat.mod_add_mod]
  split_ifs with hv
  · rw [hv, Nat.sub_add_cancel hnw, Nat.mod_self]
  · exact Nat.mod_eq_of_lt (by omega)

theorem Counts.update {nw : ℕ} {pool pool' : Pool} {c : ℤ → ℕ} (h : Counts nw pool c) {k : ℤ}
    (hk : pool'.lookup k = if (c k + 1) % nw = 0 then none else some ((c k + 1) % nw : ℕ))
    (hne : ∀ k', k' ≠ k → pool'.lookup k' = pool.lookup k') :
    Counts nw pool' (Function.update c k (c k + 1)) := by
  intro k'
  by_cases hk' : k' = k
  · subst hk'
    simpa using hk
  · rw [hne k' hk', Function.update_of_ne hk']
    exact h k'

/-- One more result of number `k`: the image is complete when the count becomes
a multiple of the number of workers. -/
theorem Counts.step {nw : ℕ} {pool : Pool} {c : ℤ → ℕ} (hnw : 1 ≤ nw) (h : Counts nw pool c)
    (k : ℤ) : Counts nw (poolStep nw pool k).1 (Function.update c k (c k + 1)) ∧
      ((poolStep nw pool k).2 = true ↔ (c k + 1) % nw = 0) := by
  have hlt : c k % nw < nw := Nat.mod_lt _ hnw
  have hsucc := succ_mod hnw (c k)
  have hmem := h.mem_iff k
  have hvalue := h.value k
  unfold poolStep
  by_cases hcond : pool.count k = 1 ∨ (nw : ℤ) = 1
  · simp only [if_pos hcond, hvalue]
    by_cases hlast : c k % nw = nw - 1
    · rw [if_pos hlast] at hsucc
      rw [if_pos (by omega)]
      refine ⟨h.update (by simp [hsucc]) fun k' hk' => ?_, by simp [hsucc]⟩
      rw [AList.lookup_erase_ne hk', Pool.lookup_index _ hk']
    · rw [if_neg hlast] at hsucc
      rw [if_neg (by omega)]
      refine ⟨h.update (by simp [hsucc]) fun k' hk' => ?_, by simp [hsucc]⟩
      rw [AList.lookup_insert_ne hk', Pool.lookup_index _ hk']
  · -- the first of several results
    simp only [Pool.count, hmem, not_or] at hcond
    have hzero : c k % nw = 0 := by
      by_contra h0
      simp [h0] at hcond
    have hone : (c k + 1) % nw = 1 := by
      rw [hsucc, if_neg (by omega), hzero]
    simp only [Pool.count, hmem, hzero]
    rw [if_neg (by simpa using hcond.2)]
    refine ⟨h.update (by simp [hone]) fun k' hk' => ?_, by simp [hone]⟩
    rw [AList.lookup_insert_ne hk']

def isResultOf (k : ℤ) (m : Result) : Bool := decide (m.2 ≠ NULL) && decide (m.1 = k)

def resultCount (k : ℤ) (msgs : List Result) : ℕ := msgs.countP (isResultOf k)

def nullCount (msgs : List Result) : ℕ := msgs.countP fun m => decide (m.2 = NULL)

theorem nullCount_snoc_null (msgs : List Result) {r : Result} (h : r.2 = NULL) :
    nullCount (msgs ++ [r]) = nullCount msgs + 1 := by
  simp [nullCount, h]

theorem nullCount_snoc_ne (msgs : List Result) {r : Result} (h : r.2 ≠ NULL) :
    nullCount (msgs ++ [r]) = nullCount msgs := by
  simp [nullCount, h]

/-- The pool counts the results received, modulo the number of workers. -/
theorem counts_collect {nw : ℕ} (hnw : 1 ≤ nw) (msgs : List Result) :
    Counts nw (collect nw msgs).pool fun k => resultCount k msgs := by
  induction msgs using List.reverseRecOn with
  | nil => exact Counts.empty nw
  | append_singleton msgs m ih =>
    rw [collect_snoc, collectStep]
    split_ifs with hm
    · simpa [resultCount, isResultOf, hm] using ih
    · have hstep := (ih.step hnw m.1).1
      convert hstep using 1
      funext k
      by_cases hk : k = m.1
      · subst hk
        simp [resultCount, isResultOf, hm]
      · simp [resultCount, isResultOf, hk, Ne.symm hk]

/-- A result completes its image when it makes the count a multiple of the
number of workers. -/
theorem complete_collect_snoc {nw : ℕ} (hnw : 1 ≤ nw) (msgs : List Result) (m : Result) :
    (collect nw (msgs ++ [m])).complete =
      if m.2 ≠ NULL ∧ (resultCount m.1 msgs + 1) % nw = 0 then (collect nw msgs).complete ++ [m]
      else (collect nw msgs).complete := by
  have hstep := ((counts_collect hnw msgs).step hnw m.1).2
  by_cases hm : m.2 = NULL
  · rw [collect_snoc_null nw msgs hm, if_neg (by exact fun h => h.1 hm)]
  · by_cases hfull : (poolStep nw (collect nw msgs).pool m.1).2 = true
    · rw [collect_snoc_full hm hfull, if_pos ⟨hm, hstep.mp hfull⟩]
    · rw [collect_snoc_part hm hfull, if_neg (by exact fun h => hfull (hstep.mpr h.2))]

theorem mem_complete {nw : ℕ} (hnw : 1 ≤ nw) {msgs : List Result} {r : Result}
    (hr : r ∈ (collect nw msgs).complete) : r ∈ msgs ∧ r.2 ≠ NULL := by
  induction msgs using List.reverseRecOn with
  | nil => cases hr
  | append_singleton msgs m ih =>
    rw [complete_collect_snoc hnw] at hr
    split_ifs at hr with hfull
    · rcases List.mem_append.mp hr with hr | hr
      · exact ⟨List.mem_append_left _ (ih hr).1, (ih hr).2⟩
      · rw [List.mem_singleton.mp hr]
        exact ⟨by simp, hfull.1⟩
    · exact ⟨List.mem_append_left _ (ih hr).1, (ih hr).2⟩

/-- A number is completed once for each `nw` of its results. -/
theorem count_complete {nw : ℕ} (hnw : 1 ≤ nw) (msgs : List Result) (k : ℤ) :
    ((collect nw msgs).complete.map Prod.fst).count k = resultCount k msgs / nw := by
  induction msgs using List.reverseRecOn with
  | nil => simp [resultCount]
  | append_singleton msgs m ih =>
    have hsnoc : resultCount k (msgs ++ [m]) =
        resultCount k msgs + if isResultOf k m then 1 else 0 := by
      simp [resultCount, List.countP_append, List.countP_singleton]
    rw [complete_collect_snoc hnw, hsnoc]
    by_cases hm : isResultOf k m = true
    · -- a result of number `k`
      rw [if_pos hm, Nat.succ_div, ← ih]
      simp only [isResultOf, Bool.and_eq_true, decide_eq_true_eq] at hm
      obtain ⟨hne, rfl⟩ := hm
      simp only [Nat.dvd_iff_mod_eq_zero]
      split_ifs with hfull hmod hmod
      · simp
      · exact absurd hfull.2 hmod
      · exact absurd ⟨hne, hmod⟩ hfull
      · rfl
    · rw [if_neg hm, Nat.add_zero (resultCount k msgs), ← ih]
      split_ifs with hfull
      · have hk : m.1 ≠ k := fun hk => hm (by simp [isResultOf, hfull.1, hk])
        simp [hk]
      · rfl

theorem Counts.eq_empty {nw : ℕ} {pool : Pool} {c : ℤ → ℕ} (h : Counts nw pool c)
    (h0 : ∀ k, c k % nw = 0) : pool = ∅ := by
  have hnot (k : ℤ) : k ∉ pool := fun hk => (h.mem_iff k).mp hk (h0 k)
  apply AList.ext
  rw [AList.empty_entries]
  cases hp : pool.entries with
  | nil => rfl
  | cons e l =>
    have : e.1 ∈ pool := by
      rw [AList.mem_keys, AList.keys, hp]
      simp
    exact absurd this (hnot e.1)

end WaterMark.Gather
