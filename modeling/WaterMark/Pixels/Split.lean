import Mathlib.Data.Int.Order.Basic
import Mathlib.Data.Nat.Cast.Order.Basic
import Mathlib.Order.Monotone.Basic
import Mathlib.Tactic.Ring

/-! # The row split

`main` hands out the rows of the mark to the workers of a map. The loop carries
the size of the next chunk and the number of rows already given away; the
first workers receive one row more when the rows do not divide evenly.
-/

namespace WaterMark.Pixels

/-- The chunk of one worker: `workerInfo` apart from the pointer to the mark. -/
structure ChunkInfo where
  imgNmbPx : ℤ
  chunksRow : ℤ
  markWidth : ℤ
  offset : ℤ
deriving DecidableEq

structure SplitVars where
  chunksRow : ℤ
  rowAssigned : ℤ
  infoVector : List ChunkInfo

/-- Iteration `i` of the loop on workers. -/
def splitStep (markHeight markWidth nw : ℤ) (s : SplitVars) (i : ℕ) : SplitVars :=
  let lastRow := markHeight.tmod nw
  let chunksRow := if lastRow = i then s.chunksRow - 1 else s.chunksRow
  let offset := s.rowAssigned * markWidth
  ⟨chunksRow, s.rowAssigned + chunksRow,
    s.infoVector ++ [⟨markHeight * markWidth, chunksRow, markWidth, offset⟩]⟩

/-- The chunks that `main` computes for `nw` workers. -/
def rowSplit (markHeight markWidth : ℤ) (nw : ℕ) : List ChunkInfo :=
  ((List.range nw).foldl (splitStep markHeight markWidth nw)
    ⟨markHeight.tdiv nw + 1, 0, []⟩).infoVector

/-! ## Closed form -/

def rowsBefore (h n i : ℕ) : ℕ := i * (h / n) + min i (h % n)

def rowsOf (h n i : ℕ) : ℕ := h / n + if i < h % n then 1 else 0

theorem rowsBefore_succ (h n i : ℕ) : rowsBefore h n (i + 1) = rowsBefore h n i + rowsOf h n i := by
  simp only [rowsBefore, rowsOf, Nat.add_mul, Nat.one_mul]
  split_ifs <;> omega

@[simp] theorem rowsBefore_zero (h n : ℕ) : rowsBefore h n 0 = 0 := by simp [rowsBefore]

theorem rowsBefore_all {n : ℕ} (h : ℕ) (hn : 0 < n) : rowsBefore h n n = h := by
  have hlt := Nat.mod_lt h hn
  rw [rowsBefore, Nat.min_eq_right hlt.le, Nat.div_add_mod]

theorem rowsBefore_mono (h n : ℕ) : Monotone (rowsBefore h n) :=
  monotone_nat_of_le_succ fun i => by rw [rowsBefore_succ]; omega

def chunk (h w n i : ℕ) : ChunkInfo :=
  ⟨(h * w : ℕ), rowsOf h n i, w, (rowsBefore h n i * w : ℕ)⟩

/-- The size of the chunk just handed out, before and after the remainder is
used up. -/
theorem chunksRow_step (h n k : ℕ) :
    (if ((h % n : ℕ) : ℤ) = (k : ℕ) then
      ((h / n : ℕ) : ℤ) + (if k ≤ h % n then 1 else 0) - 1
      else ((h / n : ℕ) : ℤ) + (if k ≤ h % n then 1 else 0)) = (rowsOf h n k : ℕ) := by
  simp only [rowsOf]
  split_ifs <;> push_cast <;> omega

theorem splitStep_eq (h w n k : ℕ) (infoVector : List ChunkInfo) :
    splitStep h w n ⟨(h / n : ℕ) + (if k ≤ h % n then 1 else 0), rowsBefore h n k, infoVector⟩ k =
      ⟨rowsOf h n k, rowsBefore h n (k + 1), infoVector ++ [chunk h w n k]⟩ := by
  have hmod : (h : ℤ).tmod n = (h % n : ℕ) := by rw [Int.ofNat_tmod]
  simp only [splitStep, hmod, chunksRow_step, rowsBefore_succ, chunk, Nat.cast_add, Nat.cast_mul]

/-- The loop variables after the first `k` workers. -/
theorem splitVars_eq (h w n k : ℕ) :
    (List.range k).foldl (splitStep h w n) ⟨(h : ℤ).tdiv n + 1, 0, []⟩ =
      ⟨(h / n : ℕ) + (if k ≤ h % n then 1 else 0), rowsBefore h n k,
        (List.range k).map (chunk h w n)⟩ := by
  have hdiv : (h : ℤ).tdiv n = (h / n : ℕ) := by rw [Int.ofNat_tdiv]
  induction k with
  | zero => simp [hdiv]
  | succ k ih =>
    have hnext : ((rowsOf h n k : ℕ) : ℤ) = (h / n : ℕ) + (if k + 1 ≤ h % n then 1 else 0) := by
      simp only [rowsOf]
      split_ifs <;> push_cast <;> omega
    rw [List.range_succ, List.foldl_append, ih, List.foldl_cons, List.foldl_nil, splitStep_eq,
      List.map_append, List.map_cons, List.map_nil, hnext]

theorem rowSplit_eq (h w n : ℕ) : rowSplit h w n = (List.range n).map (chunk h w n) := by
  rw [rowSplit, splitVars_eq]

theorem length_rowSplit (h w n : ℕ) : (rowSplit h w n).length = n := by
  simp [rowSplit_eq]

/-! ## The chunks tile the mark -/

theorem exists_piece {f : ℕ → ℕ} {n x : ℕ} (h0 : f 0 ≤ x) (hx : x < f n) :
    ∃ i < n, f i ≤ x ∧ x < f (i + 1) := by
  induction n with
  | zero => omega
  | succ n ih =>
    by_cases hlt : x < f n
    · obtain ⟨i, hi, hpiece⟩ := ih hlt
      exact ⟨i, by omega, hpiece⟩
    · exact ⟨n, by omega, by omega, hx⟩

theorem piece_unique {f : ℕ → ℕ} (hf : Monotone f) {i j x : ℕ} (hi : f i ≤ x ∧ x < f (i + 1))
    (hj : f j ≤ x ∧ x < f (j + 1)) : i = j := by
  rcases lt_trichotomy i j with h | h | h
  · have := hf (show i + 1 ≤ j by omega)
    omega
  · exact h
  · have := hf (show j + 1 ≤ i by omega)
    omega

/-- First pixel of worker `i`'s chunk, and of the next one. -/
def chunkStart (h w n i : ℕ) : ℕ := rowsBefore h n i * w

theorem chunkStart_mono (h w n : ℕ) : Monotone (chunkStart h w n) := fun _ _ hij =>
  Nat.mul_le_mul_right w (rowsBefore_mono h n hij)

theorem chunkStart_succ (h w n i : ℕ) :
    chunkStart h w n (i + 1) = chunkStart h w n i + rowsOf h n i * w := by
  rw [chunkStart, rowsBefore_succ, Nat.add_mul, chunkStart]

/-- Every pixel of the mark lies in the chunk of a worker. -/
theorem exists_owner {h w n x : ℕ} (hn : 0 < n) (hx : x < h * w) :
    ∃ i < n, chunkStart h w n i ≤ x ∧ x < chunkStart h w n (i + 1) :=
  exists_piece (by simp [chunkStart]) (by rwa [chunkStart, rowsBefore_all h hn])

theorem chunkStart_le {h w n i : ℕ} (hi : i ≤ n) : chunkStart h w n i ≤ h * w := by
  rcases Nat.eq_zero_or_pos n with rfl | hn
  · obtain rfl : i = 0 := by omega
    simp [chunkStart]
  · calc chunkStart h w n i ≤ chunkStart h w n n := chunkStart_mono h w n hi
      _ = h * w := by rw [chunkStart, rowsBefore_all h hn]

end WaterMark.Pixels
