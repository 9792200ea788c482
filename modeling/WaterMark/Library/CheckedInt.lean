import Mathlib.Algebra.Group.Int.Defs
import Mathlib.Data.Int.Order.Basic

/-! # Machine integers and loops that may fail

Arithmetic on a range of integers, where an operation whose exact result lies
outside the range, and a division by zero, has no value. Loops on `Option` then
have a result only if none of their steps fails. A loop without a bound on its
rounds takes the number of rounds that it may make.
-/

namespace CheckedInt

/-- The values of a machine type of integers. -/
structure Range where
  min : ℤ
  max : ℤ

def Range.signed (bits : ℕ) : Range := ⟨-2 ^ (bits - 1), 2 ^ (bits - 1) - 1⟩

namespace Range
variable (r : Range) {x y z : ℤ}

def Has (x : ℤ) : Prop := r.min ≤ x ∧ x ≤ r.max

instance : Decidable (r.Has x) := inferInstanceAs (Decidable (_ ∧ _))

/-- An operation with exact result `x`. -/
def fit (x : ℤ) : Option ℤ := if r.Has x then some x else none

def add (x y : ℤ) : Option ℤ := r.fit (x + y)

def sub (x y : ℤ) : Option ℤ := r.fit (x - y)

def mul (x y : ℤ) : Option ℤ := r.fit (x * y)

def div (x y : ℤ) : Option ℤ := if y = 0 then none else r.fit (x.tdiv y)

/-- The remainder is defined when the quotient is. -/
def mod (x y : ℤ) : Option ℤ := (r.div x y).bind fun _ => r.fit (x.tmod y)

variable {r}

theorem fit_eq (h : r.Has x) : r.fit x = some x := if_pos h

theorem fit_eq_some : r.fit x = some z ↔ r.Has x ∧ x = z := by
  unfold fit
  split_ifs with h <;> simp [h]

theorem add_eq (h : r.Has (x + y)) : r.add x y = some (x + y) := fit_eq h

theorem mul_eq (h : r.Has (x * y)) : r.mul x y = some (x * y) := fit_eq h

theorem div_eq (hy : y ≠ 0) (h : r.Has (x.tdiv y)) : r.div x y = some (x.tdiv y) := by
  rw [div, if_neg hy, fit_eq h]

theorem div_eq_some : r.div x y = some z ↔ y ≠ 0 ∧ r.Has (x.tdiv y) ∧ x.tdiv y = z := by
  unfold div
  split_ifs with hy <;> simp [hy, fit_eq_some]

theorem Has.of_le {n k : ℕ} (h : r.Has n) (hmin : r.min ≤ 0) (hk : k ≤ n) : r.Has k := by
  simp only [Has] at *
  omega

theorem add_natCast {n m : ℕ} (h : r.Has (n + m : ℕ)) : r.add n m = some ((n + m : ℕ) : ℤ) := by
  rw [Int.natCast_add] at h ⊢
  exact add_eq h

theorem succ_natCast {n : ℕ} (h : r.Has (n + 1 : ℕ)) : r.add n 1 = some ((n : ℤ) + 1) := by
  rw [Int.natCast_succ] at h
  exact add_eq h

theorem mul_natCast {n m : ℕ} (h : r.Has (n * m : ℕ)) : r.mul n m = some ((n * m : ℕ) : ℤ) := by
  rw [Int.natCast_mul] at h ⊢
  exact mul_eq h

theorem div_natCast {n m : ℕ} (hm : 0 < m) (hmin : r.min ≤ 0) (hn : r.Has n) :
    r.div n m = some ((n / m : ℕ) : ℤ) := by
  have hdiv : (n : ℤ).tdiv m = (n / m : ℕ) := by rw [Int.ofNat_tdiv]
  rw [div_eq (by omega) (hdiv ▸ hn.of_le hmin (Nat.div_le_self n m)), hdiv]

theorem mod_natCast {n m : ℕ} (hm : 0 < m) (hmin : r.min ≤ 0) (hn : r.Has n) :
    r.mod n m = some ((n % m : ℕ) : ℤ) := by
  have hmod : (n : ℤ).tmod m = (n % m : ℕ) := by rw [Int.ofNat_tmod]
  rw [mod, div_natCast hm hmin hn, Option.bind_some, hmod, fit_eq (hn.of_le hmin (Nat.mod_le n m))]

end Range

theorem bind_of_some {α β : Type} {x : Option α} {a : α} {f : α → Option β} (h : x = some a) :
    (x >>= f) = f a := by
  rw [h]
  rfl

/-! ## Loops -/

section
variable {σ : Type}

/-- A counted loop none of whose rounds fails has the result of the loop that
cannot fail. -/
theorem foldlM_range {body : σ → ℕ → Option σ} {f : σ → ℕ → σ} {s : σ} {n : ℕ}
    (h : ∀ i < n, body ((List.range i).foldl f s) i = some (f ((List.range i).foldl f s) i)) :
    (List.range n).foldlM body s = some ((List.range n).foldl f s) := by
  induction n with
  | zero => rfl
  | succ n ih =>
    have hn := ih fun i hi => h i (by omega)
    simp [List.range_succ, List.foldlM_append, hn, h n (by omega)]

/-- `do body while (cond)`, in at most `fuel` rounds. -/
def doWhile (body : σ → Option σ) (cond : σ → Option Bool) : ℕ → σ → Option σ
  | 0, _ => none
  | fuel + 1, s => do
    let s ← body s
    let again ← cond s
    if again then doWhile body cond fuel s else pure s

variable {body : σ → Option σ} {cond : σ → Option Bool} {fuel : ℕ} {s s' t : σ}

theorem doWhile_succ (hbody : body s = some s') {b : Bool} (hcond : cond s' = some b) :
    doWhile body cond (fuel + 1) s = if b then doWhile body cond fuel s' else some s' := by
  simp [doWhile, hbody, hcond]

theorem cond_of_doWhile (h : doWhile body cond fuel s = some t) : cond t = some false := by
  induction fuel generalizing s with
  | zero => simp [doWhile] at h
  | succ fuel ih =>
    simp only [doWhile, Option.bind_eq_bind, Option.bind_eq_some_iff] at h
    obtain ⟨s', hbody, b, hcond, h⟩ := h
    cases b with
    | true => exact ih (by simpa using h)
    | false =>
      obtain rfl : s' = t := by simpa using h
      exact hcond

/-- What every round keeps holds of the result. -/
theorem invariant_of_doWhile {I : σ → Prop} (hround : ∀ s s', I s → body s = some s' → I s')
    (hs : I s) (h : doWhile body cond fuel s = some t) : I t := by
  induction fuel generalizing s with
  | zero => simp [doWhile] at h
  | succ fuel ih =>
    simp only [doWhile, Option.bind_eq_bind, Option.bind_eq_some_iff] at h
    obtain ⟨s', hbody, b, -, h⟩ := h
    have hs' := hround s s' hs hbody
    cases b with
    | true => exact ih hs' (by simpa using h)
    | false =>
      obtain rfl : s' = t := by simpa using h
      exact hs'

theorem doWhile_add (h : doWhile body cond fuel s = some t) (more : ℕ) :
    doWhile body cond (fuel + more) s = some t := by
  induction fuel generalizing s with
  | zero => simp [doWhile] at h
  | succ fuel ih =>
    rw [Nat.add_right_comm]
    simp only [doWhile, Option.bind_eq_bind, Option.bind_eq_some_iff] at h ⊢
    obtain ⟨s', hbody, b, hcond, h⟩ := h
    refine ⟨s', hbody, b, hcond, ?_⟩
    cases b with
    | true => simpa using ih (by simpa using h)
    | false => simpa using h

theorem doWhile_unique {fuel' : ℕ} {t' : σ} (h : doWhile body cond fuel s = some t)
    (h' : doWhile body cond fuel' s = some t') : t = t' := by
  have hmore := doWhile_add h fuel'
  rw [Nat.add_comm, doWhile_add h' fuel] at hmore
  exact (Option.some.inj hmore).symm

/-- Total correctness: if a round from a state with `I` does not fail, and
either lowers `μ` and keeps `I` or ends the loop with `Q`, the loop ends with `Q`. -/
theorem exists_doWhile {I Q : σ → Prop} (μ : σ → ℕ)
    (hround : ∀ s, I s → ∃ s', body s = some s' ∧
      (cond s' = some true ∧ I s' ∧ μ s' < μ s ∨ cond s' = some false ∧ Q s')) (hs : I s) :
    ∃ fuel t, doWhile body cond fuel s = some t ∧ Q t := by
  induction hμ : μ s using Nat.strongRecOn generalizing s with
  | ind m ih =>
    obtain ⟨s', hbody, ⟨hcond, hI, hlt⟩ | ⟨hcond, hQ⟩⟩ := hround s hs
    · obtain ⟨fuel, t, hloop, hQ⟩ := ih (μ s') (hμ ▸ hlt) hI rfl
      exact ⟨fuel + 1, t, by rw [doWhile_succ hbody hcond, if_pos rfl, hloop], hQ⟩
    · exact ⟨1, s', by rw [doWhile_succ hbody hcond, if_neg Bool.false_ne_true], hQ⟩

end

end CheckedInt
