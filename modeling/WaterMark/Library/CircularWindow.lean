import Mathlib.Data.Nat.ModEq

/-! # A window of a sequence in a circular array

The entries of a growing list lie in `size` slots, each at its number modulo
`size`, as long as no more than `size` of them are there at a time. Entries come in
at the end of the list and leave at the front of the window.
-/

namespace CircularWindow

variable {α : Type*}

/-- The slots hold the entries of `xs` from number `front` on, and nothing else. -/
structure Window (size : ℕ) (buf : ℕ → Option α) (xs : List α) (front : ℕ) : Prop where
  le : front ≤ xs.length
  room : xs.length ≤ front + size
  filled : ∀ k, front ≤ k → k < xs.length → buf (k % size) = xs[k]?
  free : ∀ k, xs.length ≤ k → k < front + size → buf (k % size) = none

def next (size p : ℕ) : ℕ := if size ≤ p + 1 then p + 1 - size else p + 1

theorem next_mod {size : ℕ} (hsize : 0 < size) (k : ℕ) : next size (k % size) = (k + 1) % size := by
  have hlt := Nat.mod_lt k hsize
  rw [next, ← Nat.mod_add_mod k size 1]
  split_ifs with hwrap
  · have heq : k % size + 1 = size := by omega
    rw [heq, Nat.mod_self, Nat.sub_self]
  · exact (Nat.mod_eq_of_lt (by omega)).symm

/-- Different numbers less than `size` apart have different slots. -/
theorem mod_ne {size : ℕ} (front : ℕ) {k l : ℕ} (hk : front ≤ k) (hk' : k < front + size)
    (hl : front ≤ l) (hl' : l < front + size) (hne : k ≠ l) : k % size ≠ l % size := by
  intro heq
  have hmod : k ≡ l [MOD size] := heq
  rcases Nat.lt_or_gt_of_ne hne with hlt | hlt
  · have hdvd := (Nat.modEq_iff_dvd' hlt.le).mp hmod
    have := Nat.le_of_dvd (by omega) hdvd
    omega
  · have hdvd := (Nat.modEq_iff_dvd' hlt.le).mp hmod.symm
    have := Nat.le_of_dvd (by omega) hdvd
    omega

section Window
variable {size : ℕ} {buf : ℕ → Option α} {xs : List α} {front : ℕ}

theorem Window.empty (size : ℕ) : Window size (fun _ => none) ([] : List α) 0 where
  le := le_rfl
  room := Nat.zero_le _
  filled k _ hk := absurd hk (Nat.not_lt_zero k)
  free _ _ _ := rfl

/-- The slot at the front is free when all entries have left. -/
theorem Window.front_none (h : Window size buf xs front) (hsize : 0 < size) :
    buf (front % size) = none ↔ front = xs.length := by
  constructor
  · intro hnone
    by_contra hne
    have hlt : front < xs.length := by
      have := h.le
      omega
    rw [h.filled front le_rfl hlt] at hnone
    have := List.getElem?_eq_none_iff.mp hnone
    omega
  · intro heq
    exact h.free front heq.ge (by omega)

/-- The slot at the end is free when there is room. -/
theorem Window.back_none (h : Window size buf xs front) (hsize : 0 < size) :
    buf (xs.length % size) = none ↔ xs.length < front + size := by
  constructor
  · intro hnone
    by_contra hfull
    have heq : xs.length = front + size := le_antisymm h.room (not_lt.mp hfull)
    rw [heq, Nat.add_mod_right] at hnone
    have := (h.front_none hsize).mp hnone
    omega
  · exact h.free _ le_rfl

theorem Window.pop (h : Window size buf xs front) (hne : front < xs.length) :
    Window size (Function.update buf (front % size) none) xs (front + 1) where
  le := hne
  room := by
    have := h.room
    omega
  filled k hk hlt := by
    have hroom := h.room
    have hslot : k % size ≠ front % size :=
      mod_ne front (by omega) (by omega) le_rfl (by omega) (by omega)
    rw [Function.update_of_ne hslot]
    exact h.filled k (by omega) hlt
  free k hk hlt := by
    by_cases hlast : k = front + size
    · rw [hlast, Nat.add_mod_right, Function.update_self]
    · have hslot : k % size ≠ front % size :=
        mod_ne front (by omega) (by omega) le_rfl (by omega) (by omega)
      rw [Function.update_of_ne hslot]
      exact h.free k hk (by omega)

theorem Window.push (h : Window size buf xs front) (hroom : xs.length < front + size) (x : α) :
    Window size (Function.update buf (xs.length % size) (some x)) (xs ++ [x]) front where
  le := by
    have := h.le
    rw [List.length_append]
    omega
  room := by
    rw [List.length_append, List.length_singleton]
    omega
  filled k hk hlt := by
    rw [List.length_append, List.length_singleton] at hlt
    by_cases hlast : k = xs.length
    · rw [hlast, Function.update_self, List.getElem?_concat_length]
    · have hslot : k % size ≠ xs.length % size :=
        mod_ne front hk (by omega) h.le hroom hlast
      rw [Function.update_of_ne hslot, List.getElem?_append_left (by omega)]
      exact h.filled k hk (by omega)
  free k hk hlt := by
    rw [List.length_append, List.length_singleton] at hk
    have hle := h.le
    have hslot : k % size ≠ xs.length % size :=
      mod_ne front (by omega) hlt hle hroom (by omega)
    rw [Function.update_of_ne hslot]
    exact h.free k (by omega) hlt

end Window

end CircularWindow
