import Mathlib.Data.Nat.Notation
import Mathlib.Logic.Relation

/-! # The steps of one thread among those of the others

A thread whose own steps make a rank fall, and whose rank the others leave alone,
takes no more steps than its rank, whatever the others do in between.
-/

namespace OwnSteps

variable {σ : Type*}

/-- Runs with the number of the thread's own steps. -/
inductive Run (own other : σ → σ → Prop) (s : σ) : ℕ → σ → Prop
  | start : Run own other s 0 s
  | own {n : ℕ} {s' s'' : σ} (h : Run own other s n s') (hstep : own s' s'') :
      Run own other s (n + 1) s''
  | other {n : ℕ} {s' s'' : σ} (h : Run own other s n s') (hstep : other s' s'') :
      Run own other s n s''

variable {own other : σ → σ → Prop} (P : σ → Prop) (rank : σ → ℕ)

theorem Run.preserves (hown : ∀ s s', P s → own s s' → P s')
    (hother : ∀ s s', P s → other s s' → P s') {s s' : σ} {n : ℕ} (hs : P s)
    (h : Run own other s n s') : P s' := by
  induction h with
  | start => exact hs
  | own _ hstep ih => exact hown _ _ ih hstep
  | other _ hstep ih => exact hother _ _ ih hstep

theorem Run.add_rank_le (hown : ∀ s s', P s → own s s' → P s' ∧ rank s' < rank s)
    (hother : ∀ s s', P s → other s s' → P s' ∧ rank s' ≤ rank s) {s s' : σ} {n : ℕ} (hs : P s)
    (h : Run own other s n s') : n + rank s' ≤ rank s := by
  have hP : ∀ {m : ℕ} {u : σ}, Run own other s m u → P u := fun hrun =>
    hrun.preserves P (fun _ _ hp hstep => (hown _ _ hp hstep).1)
      (fun _ _ hp hstep => (hother _ _ hp hstep).1) hs
  induction h with
  | start => exact Nat.le_of_eq (Nat.zero_add _)
  | own hrun hstep ih =>
    have hlt := (hown _ _ (hP hrun) hstep).2
    omega
  | other hrun hstep ih =>
    have hle := (hother _ _ (hP hrun) hstep).2
    omega

end OwnSteps
