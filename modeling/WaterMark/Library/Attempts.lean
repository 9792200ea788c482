import WaterMark.Library.ChannelNetwork

/-! # Threads that try

A pop fails while its queue is empty, a push while a queue of fixed size is full, and
a thread whose call has failed goes on elsewhere. The failures are work of the
threads, at any time, so that threads that try have more runs than threads that wait.
-/

namespace ChannelNetwork

variable {T Q : Type*} {M : Q → Type*} {σ : T → Type*} {μ : Type*}

def Action.fails {σ : Type*} (fixedsize : Q → Bool) : Action M σ μ → Bool
  | .pop _ _ => true
  | .push q _ _ => fixedsize q
  | .work _ => false

/-- The threads try their calls, and go on in `failed` when they have tried in vain. -/
def Program.attempts (P : Program T M σ μ) (fixedsize : Q → Bool)
    (failed : (t : T) → σ t → σ t) : Program T M σ μ where
  start := P.start
  actions t x := P.actions t x ++
    if (P.actions t x).any (Action.fails fixedsize) then [.work fun mem => (failed t x, mem)]
    else []

section Attempts
variable {P : Program T M σ μ} {fixedsize : Q → Bool} {failed : (t : T) → σ t → σ t} {t : T}
  {x : σ t} {q : Q}

theorem Program.mem_attempts {a : Action M (σ t) μ} :
    a ∈ (P.attempts fixedsize failed).actions t x ↔ a ∈ P.actions t x ∨
      (∃ b ∈ P.actions t x, b.fails fixedsize = true) ∧ a = .work fun mem => (failed t x, mem) := by
  rw [Program.attempts, List.mem_append]
  by_cases hany : (P.actions t x).any (Action.fails fixedsize) = true
  · simp only [if_pos hany, List.mem_singleton, List.any_eq_true.mp hany, true_and]
  · simp only [if_neg hany, List.not_mem_nil, mt List.any_eq_true.mpr hany, false_and]

theorem Program.mem_attempts_of_mem {a : Action M (σ t) μ} (ha : a ∈ P.actions t x) :
    a ∈ (P.attempts fixedsize failed).actions t x := mem_attempts.mpr (.inl ha)

theorem Program.pop_attempts {next : M q → σ t}
    (ha : .pop q next ∈ (P.attempts fixedsize failed).actions t x) :
    .pop q next ∈ P.actions t x := by
  rcases mem_attempts.mp ha with ha | ⟨-, he⟩
  · exact ha
  · cases he

theorem Program.push_attempts {m : M q} {next : σ t}
    (ha : .push q m next ∈ (P.attempts fixedsize failed).actions t x) :
    .push q m next ∈ P.actions t x := by
  rcases mem_attempts.mp ha with ha | ⟨-, he⟩
  · exact ha
  · cases he

end Attempts

variable [DecidableEq T] [DecidableEq Q]

omit [DecidableEq T] in
/-- A local invariant that the failures keep, too. -/
theorem LocalInvariant.attempts {P : Program T M σ μ} {fixedsize : Q → Bool}
    {failed : (t : T) → σ t → σ t} {ν : T → Type*} {view : (t : T) → μ → ν t}
    {I : (t : T) → σ t → ((q : Q) → List (M q)) → ((q : Q) → List (M q)) → ν t → Prop}
    (hI : LocalInvariant P view I)
    (hfailed : ∀ t x ins outs v, (∃ a ∈ P.actions t x, a.fails fixedsize = true) →
      I t x ins outs v → I t (failed t x) ins outs v) :
    LocalInvariant (P.attempts fixedsize failed) view I where
  pop t x ins outs v q next m ha h :=
    hI.pop t x ins outs v q next m (Program.pop_attempts ha) h
  push t x ins outs v q m next ha h :=
    hI.push t x ins outs v q m next (Program.push_attempts ha) h
  work t x ins outs mem f ha h := by
    rcases Program.mem_attempts.mp ha with ha | ⟨hfails, he⟩
    · exact hI.work t x ins outs mem f ha h
    · cases he
      exact hfailed t x ins outs _ hfails h
  frame t u x mem f hne ha := by
    rcases Program.mem_attempts.mp ha with ha | ⟨-, he⟩
    · exact hI.frame t u x mem f hne ha
    · cases he
      rfl

inductive Program.Attempt (P : Program T M σ μ) (fixedsize : Q → Bool)
    (failed : (t : T) → σ t → σ t) : State T M σ μ → State T M σ μ → Prop
  | act (s s' : State T M σ μ) (h : P.Step s s') : Attempt P fixedsize failed s s'
  | fail (s : State T M σ μ) (t : T) (a : Action M (σ t) μ) (ha : a ∈ P.actions t (s.loc t))
      (hfails : a.fails fixedsize = true) :
      Attempt P fixedsize failed s (s.afterWork t (failed t (s.loc t), s.mem))

section Attempt
variable {P : Program T M σ μ} {fixedsize : Q → Bool} {failed : (t : T) → σ t → σ t}
  {s s' : State T M σ μ}

theorem Program.Attempt.step (h : P.Attempt fixedsize failed s s') :
    (P.attempts fixedsize failed).Step s s' := by
  cases h with
  | act _ h =>
    cases h with
    | pop t q next m rest ha hq => exact .pop s t q next m rest (mem_attempts_of_mem ha) hq
    | push t q m next ha => exact .push s t q m next (mem_attempts_of_mem ha)
    | work t f ha => exact .work s t f (mem_attempts_of_mem ha)
  | fail t a ha hfails => exact .work s t _ (mem_attempts.mpr (.inr ⟨⟨a, ha, hfails⟩, rfl⟩))

theorem Program.Attempt.act_of_ne (h : P.Attempt fixedsize failed s s')
    (hne : s'.pushed ≠ s.pushed ∨ s'.popped ≠ s.popped) : P.Step s s' := by
  cases h with
  | act _ h => exact h
  | fail t a ha hfails => exact absurd hne (by simp [State.afterWork])

theorem Program.Attempt.act_or_failed (h : P.Attempt fixedsize failed s s') :
    P.Step s s' ∨ s'.queue = s.queue ∧
      ∀ t, s'.loc t = s.loc t ∨ s'.loc t = failed t (s.loc t) := by
  cases h with
  | act _ h => exact .inl h
  | fail t a ha hfails =>
    refine .inr ⟨rfl, fun u => ?_⟩
    by_cases hut : u = t
    · subst hut
      exact .inr (Function.update_self ..)
    · exact .inl (Function.update_of_ne hut ..)

theorem Program.Attempt.energy_le [Fintype T] {rank : (t : T) → σ t → ℕ}
    {weight : (q : Q) → M q → ℕ} {Qs : Finset Q} (hR : Ranking P rank weight Qs)
    (hfailed : ∀ t x, rank t (failed t x) ≤ rank t x) (h : P.Attempt fixedsize failed s s') :
    energy rank weight Qs s' ≤ energy rank weight Qs s := by
  cases h with
  | act _ h => exact (hR.energy_lt h).le
  | fail t a ha hfails =>
    have hle := hfailed t (s.loc t)
    have hsum := sum_rank_update rank s.loc t (failed t (s.loc t))
    simp only [energy, State.afterWork]
    omega

end Attempt

/-! ## Programs with fewer actions -/

section Fewer
variable {P P' : Program T M σ μ} (hactions : ∀ t x, P.actions t x ⊆ P'.actions t x)
include hactions

/-- Threads that choose among fewer actions, and try again when a call has failed. -/
theorem Program.Reachable.of_attempts (hstart : P.start = P'.start) {fixedsize : Q → Bool}
    {mem : μ} {s : State T M σ μ} (h : (P.attempts fixedsize fun _ x => x).Reachable mem s) :
    P'.Reachable mem s := by
  induction h with
  | refl =>
    have hinitial : (P.attempts fixedsize fun _ x => x).initial mem = P'.initial mem := by
      simp only [Program.initial, Program.attempts, hstart]
    rw [hinitial]
    exact .refl
  | tail _ hstep ih =>
    cases hstep with
    | pop t q next m rest ha hq =>
      exact ih.tail (.pop _ t q next m rest (hactions t _ (pop_attempts ha)) hq)
    | push t q m next ha => exact ih.tail (.push _ t q m next (hactions t _ (push_attempts ha)))
    | work t f ha =>
      rcases mem_attempts.mp ha with ha | ⟨-, he⟩
      · exact ih.tail (.work _ t f (hactions t _ ha))
      · cases he
        simpa [State.afterWork] using ih

omit [DecidableEq T] [DecidableEq Q] in
theorem Ranking.mono {rank : (t : T) → σ t → ℕ} {weight : (q : Q) → M q → ℕ} {Qs : Finset Q}
    (hR : Ranking P' rank weight Qs) : Ranking P rank weight Qs where
  pop t x q next m ha := hR.pop t x q next m (hactions t x ha)
  push t x q m next ha := hR.push t x q m next (hactions t x ha)
  work t x mem f ha := hR.work t x mem f (hactions t x ha)

end Fewer

/-! ## Links -/

/-- Every queue has one thread that sends and one that receives. -/
structure OneToOne (P : Program T M σ μ) (sender receiver : Q → T) : Prop where
  push : ∀ t x q value next, .push q value next ∈ P.actions t x → t = sender q
  pop : ∀ t x q next, .pop q next ∈ P.actions t x → t = receiver q

namespace OneToOne
variable {P : Program T M σ μ} {sender receiver : Q → T}

omit [DecidableEq T] [DecidableEq Q] in
theorem attempts (hP : OneToOne P sender receiver) (fixedsize : Q → Bool)
    (failed : (t : T) → σ t → σ t) : OneToOne (P.attempts fixedsize failed) sender receiver where
  push t x q value next ha := hP.push t x q value next (Program.push_attempts ha)
  pop t x q next ha := hP.pop t x q next (Program.pop_attempts ha)

variable {mem : μ} {s : State T M σ μ}

theorem outs_sender (hP : OneToOne P sender receiver) (h : P.Reachable mem s) (q : Q) :
    s.outs (sender q) q = (s.pushed q).map Prod.snd :=
  TaggedLog.entries_eq_map
    (h.pushed_by (S := {sender q}) fun t x m next ha => hP.push t x q m next ha)

theorem ins_receiver (hP : OneToOne P sender receiver) (h : P.Reachable mem s) (q : Q) :
    s.ins (receiver q) q = (s.popped q).map Prod.snd :=
  TaggedLog.entries_eq_map
    (h.popped_by (S := {receiver q}) fun t x next ha => hP.pop t x q next ha)

/-- What was received, then what waits in the queue, is what was sent. -/
theorem ins_append_queue (hP : OneToOne P sender receiver) (h : P.Reachable mem s) (q : Q) :
    s.ins (receiver q) q ++ s.queue q = s.outs (sender q) q := by
  rw [hP.ins_receiver h, hP.outs_sender h, h.conserved]

end OneToOne

end ChannelNetwork
