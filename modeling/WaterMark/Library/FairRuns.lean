import Mathlib.Data.Countable.Basic
import Mathlib.Data.Nat.Pairing
import Mathlib.Logic.Relation

/-! # Fair runs

Infinite runs of threads in which no thread that goes on having a step is left out
for ever. A rank that falls with the steps of one thread, and that the others do not
raise, brings a fair run to its goal. From every state there is a fair run.
-/

namespace FairRuns

variable {σ T : Type*} {step : σ → T → σ → Prop} {r : ℕ → σ}

/-- Where no thread takes a step the state stays. From every time on, every thread takes
a step or has none. -/
structure FairRun (step : σ → T → σ → Prop) (r : ℕ → σ) : Prop where
  steps : ∀ n, (∃ t, step (r n) t (r (n + 1))) ∨ r (n + 1) = r n
  fair : ∀ t n, ∃ m ≥ n, step (r m) t (r (m + 1)) ∨ ∀ s, ¬ step (r m) t s

namespace FairRun

theorem run (h : FairRun step r) {n m : ℕ} (hle : n ≤ m) :
    Relation.ReflTransGen (fun s s' => ∃ t, step s t s') (r n) (r m) := by
  induction m, hle using Nat.le_induction with
  | base => exact .refl
  | succ m _ ih =>
    rcases h.steps m with hstep | hstay
    · exact ih.tail hstep
    · rwa [hstay]

section Goal
variable (h : FairRun step r) (t : T) (I : σ → Prop) (rank : σ → ℕ) (Goal : σ → Prop)
  (hstep : ∀ s u s', I s → step s u s' → Goal s' ∨ I s' ∧ rank s' ≤ rank s)
include h hstep

theorem until_goal {n m : ℕ} (hle : n ≤ m) (hn : I (r n)) :
    (∃ k ≥ n, Goal (r k)) ∨ I (r m) ∧ rank (r m) ≤ rank (r n) := by
  induction m, hle using Nat.le_induction with
  | base => exact .inr ⟨hn, le_rfl⟩
  | succ m hm ih =>
    rcases ih with hgoal | ⟨hI, hle⟩
    · exact .inl hgoal
    · rcases h.steps m with ⟨u, hu⟩ | hstay
      · rcases hstep _ u _ hI hu with hgoal | ⟨hI', hle'⟩
        · exact .inl ⟨m + 1, Nat.le_succ_of_le hm, hgoal⟩
        · exact .inr ⟨hI', hle'.trans hle⟩
      · rw [hstay]
        exact .inr ⟨hI, hle⟩

/-- The goal is reached. -/
theorem exists_goal (henabled : ∀ s, I s → ∃ s', step s t s')
    (hown : ∀ s s', I s → step s t s' → Goal s' ∨ rank s' < rank s) {n : ℕ} (hn : I (r n)) :
    ∃ m ≥ n, Goal (r m) := by
  induction hk : rank (r n) using Nat.strong_induction_on generalizing n with
  | _ k ih =>
    obtain ⟨m, hm, htaken⟩ := h.fair t n
    rcases h.until_goal I rank Goal hstep hm hn with hgoal | ⟨hI, hle⟩
    · exact hgoal
    · rcases htaken with htaken | hnone
      · rcases hstep _ t _ hI htaken with hgoal | ⟨hI', -⟩
        · exact ⟨m + 1, Nat.le_succ_of_le hm, hgoal⟩
        · rcases hown _ _ hI htaken with hgoal | hlt
          · exact ⟨m + 1, Nat.le_succ_of_le hm, hgoal⟩
          · obtain ⟨m', hm', hgoal⟩ := ih _ (hk ▸ hlt.trans_le hle) hI' rfl
            exact ⟨m', (Nat.le_succ_of_le hm).trans hm', hgoal⟩
      · obtain ⟨s', hs'⟩ := henabled _ hI
        exact absurd hs' (hnone s')

end Goal

end FairRun

/-! ## There are fair runs -/

open Classical in
noncomputable def advance (step : σ → T → σ → Prop) (s : σ) (t : T) : σ :=
  if h : ∃ s', step s t s' then h.choose else s

theorem advance_of_enabled {s : σ} {t : T} (h : ∃ s', step s t s') :
    step s t (advance step s t) := by
  rw [advance, dif_pos h]
  exact h.choose_spec

theorem advance_of_none {s : σ} {t : T} (h : ∀ s', ¬ step s t s') : advance step s t = s :=
  dif_neg (not_exists.mpr h)

noncomputable def schedule (step : σ → T → σ → Prop) (turn : ℕ → T) (s : σ) : ℕ → σ
  | 0 => s
  | n + 1 => advance step (schedule step turn s n) (turn n)

theorem exists_turns [Countable T] [Nonempty T] : ∃ turn : ℕ → T, ∀ t n, ∃ m ≥ n, turn m = t := by
  obtain ⟨f, hf⟩ := exists_surjective_nat T
  refine ⟨fun n => f n.unpair.1, fun t n => ?_⟩
  obtain ⟨k, rfl⟩ := hf t
  exact ⟨Nat.pair k n, Nat.right_le_pair k n, by simp⟩

theorem exists_fairRun [Countable T] [Nonempty T] (step : σ → T → σ → Prop) (s : σ) :
    ∃ r : ℕ → σ, r 0 = s ∧ FairRun step r := by
  obtain ⟨turn, hturn⟩ := exists_turns (T := T)
  refine ⟨schedule step turn s, rfl, ⟨fun n => ?_, fun t n => ?_⟩⟩
  · by_cases h : ∃ s', step (schedule step turn s n) (turn n) s'
    · exact .inl ⟨turn n, advance_of_enabled h⟩
    · exact .inr (advance_of_none (not_exists.mp h))
  · obtain ⟨m, hm, rfl⟩ := hturn t n
    refine ⟨m, hm, ?_⟩
    by_cases h : ∃ s', step (schedule step turn s m) (turn m) s'
    · exact .inl (advance_of_enabled h)
    · exact .inr (not_exists.mp h)

end FairRuns
