import Mathlib.Data.List.Basic

/-! # Loops that pop messages until they return

The body of the loop takes one message and either goes on to the next or
returns. On a finite sequence of messages the loop ends up waiting for another
message, or it has returned and leaves the rest of the sequence alone.
-/

namespace MessageLoop

variable {σ ρ α : Type*}

inductive Control (σ ρ : Type*) where
  | next (s : σ)
  | finish (r : ρ)

/-- Where the loop stands after a sequence of messages. -/
inductive Outcome (σ ρ α : Type*) where
  | waiting (s : σ)
  | returned (r : ρ) (rest : List α)

def run (body : σ → α → Control σ ρ) : σ → List α → Outcome σ ρ α
  | s, [] => .waiting s
  | s, m :: msgs =>
    match body s m with
    | .next s => run body s msgs
    | .finish r => .returned r msgs

variable {body : σ → α → Control σ ρ} {s s' : σ} {r : ρ} {m : α} {msgs before after rest : List α}

@[simp] theorem run_nil : run body s [] = .waiting s := rfl

theorem run_cons_next (h : body s m = .next s') : run body s (m :: msgs) = run body s' msgs := by
  rw [run, h]

theorem run_cons_finish (h : body s m = .finish r) :
    run body s (m :: msgs) = .returned r msgs := by
  rw [run, h]

/-- A loop that waits after some messages goes on from there. -/
theorem run_append (h : run body s before = .waiting s') (after : List α) :
    run body s (before ++ after) = run body s' after := by
  induction before generalizing s with
  | nil =>
    cases h
    rfl
  | cons m before ih =>
    cases hm : body s m with
    | next s₁ =>
      rw [run_cons_next hm] at h
      rw [List.cons_append, run_cons_next hm]
      exact ih h
    | finish r =>
      rw [run_cons_finish hm] at h
      cases h

theorem run_snoc_next (h : run body s msgs = .waiting s') {s'' : σ} (hm : body s' m = .next s'') :
    run body s (msgs ++ [m]) = .waiting s'' := by
  rw [run_append h, run_cons_next hm, run_nil]

theorem run_snoc_finish (h : run body s msgs = .waiting s') (hm : body s' m = .finish r) :
    run body s (msgs ++ [m]) = .returned r [] := by
  rw [run_append h, run_cons_finish hm]

theorem run_eq_returned : run body s msgs = .returned r rest ↔
    ∃ before m s', msgs = before ++ m :: rest ∧ run body s before = .waiting s' ∧
      body s' m = .finish r := by
  constructor
  · intro h
    induction msgs generalizing s with
    | nil => cases h
    | cons m msgs ih =>
      cases hm : body s m with
      | next s₁ =>
        rw [run_cons_next hm] at h
        obtain ⟨before, m', s', rfl, hbefore, hfinish⟩ := ih h
        refine ⟨m :: before, m', s', rfl, ?_, hfinish⟩
        rw [run_cons_next hm, hbefore]
      | finish r' =>
        rw [run_cons_finish hm] at h
        cases h
        exact ⟨[], m, s, rfl, rfl, hm⟩
  · rintro ⟨before, m, s', rfl, hbefore, hfinish⟩
    rw [run_append hbefore, run_cons_finish hfinish]

/-- An invariant of the messages so far and the state holds wherever the loop waits. -/
theorem run_invariant {I : List α → σ → Prop} (hstart : I [] s)
    (hnext : ∀ msgs s m s', I msgs s → body s m = .next s' → I (msgs ++ [m]) s')
    (h : run body s msgs = .waiting s') : I msgs s' := by
  suffices hgen : ∀ before s, I before s → ∀ after s', run body s after = .waiting s' →
      I (before ++ after) s' from hgen [] s hstart msgs s' h
  intro before s hs after
  induction after generalizing before s with
  | nil =>
    intro s' h
    cases h
    rwa [List.append_nil]
  | cons m after ih =>
    intro s' h
    cases hm : body s m with
    | next s₁ =>
      rw [run_cons_next hm] at h
      have hafter := ih (before ++ [m]) s₁ (hnext before s m s₁ hs hm) s' h
      rwa [List.append_assoc] at hafter
    | finish r =>
      rw [run_cons_finish hm] at h
      cases h

end MessageLoop
