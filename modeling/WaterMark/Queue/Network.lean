import WaterMark.Queue.Blocking

/-! # Threads on blocking queues

The queues of a program whose threads call `push` and `pop` step by step: they
wait for the mutexes, sleep and are woken up. Such a run is a run of the program
on atomic queues, it ends as this one ends, and no wake-up that is lost can stop
it before.
-/

namespace WaterMark.Queue
open ChannelNetwork

variable {T Q : Type*} {M : Q → Type*} {σ : T → Type*} {μ : Type*}

/-- Where a thread stands in its call of a queue, and where it goes on afterwards. -/
inductive CallPc {Q : Type*} (M : Q → Type*) (σ : Type*) where
  | outside
  | inserting (q : Q) (value : M q) (next : σ)
  | notifying (q : Q)
  | testing (q : Q) (next : M q → σ)
  | sleeping (q : Q) (next : M q → σ)
  | removing (q : Q) (next : M q → σ)

/-- The queues as in `QueueState`, one for each `q`, and the threads that share them.
A thread enters its next local state with the insertion or the removal, and takes
its next action when it has left the call. -/
structure SystemState (T : Type*) {Q : Type*} (M : Q → Type*) (σ : T → Type*) (μ : Type*) where
  loc : (t : T) → σ t
  pc : (t : T) → CallPc M (σ t)
  dQueue : (q : Q) → List (M q)
  dMutex : Q → Option T
  mem : μ
  pushed : (q : Q) → List (T × M q)
  popped : (q : Q) → List (T × M q)

namespace SystemState

def initial (P : Program T M σ μ) (mem : μ) : SystemState T M σ μ :=
  ⟨P.start, fun _ => .outside, fun _ => [], fun _ => none, mem, fun _ => [], fun _ => []⟩

/-- The program on atomic queues, which list their messages from the oldest. -/
@[simps] def atomic (s : SystemState T M σ μ) : State T M σ μ :=
  ⟨s.loc, fun q => (s.dQueue q).reverse, s.mem, s.pushed, s.popped⟩

@[simps] def goto [DecidableEq T] (s : SystemState T M σ μ) (t : T) (x : CallPc M (σ t)) :
    SystemState T M σ μ :=
  { s with pc := Function.update s.pc t x }

end SystemState

variable [DecidableEq T] [DecidableEq Q]

inductive SystemStep (P : Program T M σ μ) : SystemState T M σ μ → SystemState T M σ μ → Prop
  | callPush (s : SystemState T M σ μ) (t : T) (q : Q) (value : M q) (next : σ t)
      (h : s.pc t = .outside) (ha : .push q value next ∈ P.actions t (s.loc t)) :
      SystemStep P s (s.goto t (.inserting q value next))
  | insert (s : SystemState T M σ μ) (t : T) (q : Q) (value : M q) (next : σ t)
      (h : s.pc t = .inserting q value next) (hlock : s.dMutex q = none) :
      SystemStep P s { s.goto t (.notifying q) with
        loc := Function.update s.loc t next
        dQueue := Function.update s.dQueue q (value :: s.dQueue q)
        pushed := Function.update s.pushed q (s.pushed q ++ [(t, value)]) }
  | notifyNobody (s : SystemState T M σ μ) (t : T) (q : Q) (h : s.pc t = .notifying q)
      (hnone : ∀ u next, s.pc u ≠ .sleeping q next) : SystemStep P s (s.goto t .outside)
  | notifyOne (s : SystemState T M σ μ) (t u : T) (q : Q) (next : M q → σ u)
      (h : s.pc t = .notifying q) (hu : s.pc u = .sleeping q next) :
      SystemStep P s ((s.goto t .outside).goto u (.testing q next))
  | callPop (s : SystemState T M σ μ) (t : T) (q : Q) (next : M q → σ t)
      (h : s.pc t = .outside) (ha : .pop q next ∈ P.actions t (s.loc t)) :
      SystemStep P s (s.goto t (.testing q next))
  | testEmpty (s : SystemState T M σ μ) (t : T) (q : Q) (next : M q → σ t)
      (h : s.pc t = .testing q next) (hlock : s.dMutex q = none) (hempty : s.dQueue q = []) :
      SystemStep P s (s.goto t (.sleeping q next))
  | testNonempty (s : SystemState T M σ μ) (t : T) (q : Q) (next : M q → σ t)
      (h : s.pc t = .testing q next) (hlock : s.dMutex q = none) (hne : s.dQueue q ≠ []) :
      SystemStep P s { s.goto t (.removing q next) with
        dMutex := Function.update s.dMutex q (some t) }
  | remove (s : SystemState T M σ μ) (t : T) (q : Q) (next : M q → σ t) (rest : List (M q))
      (rc : M q) (h : s.pc t = .removing q next) (hback : s.dQueue q = rest ++ [rc]) :
      SystemStep P s { s.goto t .outside with
        loc := Function.update s.loc t (next rc)
        dQueue := Function.update s.dQueue q rest
        dMutex := Function.update s.dMutex q none
        popped := Function.update s.popped q (s.popped q ++ [(t, rc)]) }
  | work (s : SystemState T M σ μ) (t : T) (f : μ → σ t × μ) (h : s.pc t = .outside)
      (ha : .work f ∈ P.actions t (s.loc t)) :
      SystemStep P s { s with loc := Function.update s.loc t (f s.mem).1, mem := (f s.mem).2 }

/-- A sleeping thread wakes up without cause. -/
inductive WakeSpuriously : SystemState T M σ μ → SystemState T M σ μ → Prop
  | wake (s : SystemState T M σ μ) (t : T) (q : Q) (next : M q → σ t)
      (h : s.pc t = .sleeping q next) : WakeSpuriously s (s.goto t (.testing q next))

/-- A run of `n` steps with `k` spurious wake-ups among them. -/
inductive SystemRun (P : Program T M σ μ) (s : SystemState T M σ μ) :
    ℕ → ℕ → SystemState T M σ μ → Prop
  | refl : SystemRun P s 0 0 s
  | step {n k s₁ s₂} (h : SystemRun P s n k s₁) (hstep : SystemStep P s₁ s₂) :
      SystemRun P s (n + 1) k s₂
  | wake {n k s₁ s₂} (h : SystemRun P s n k s₁) (hwake : WakeSpuriously s₁ s₂) :
      SystemRun P s n (k + 1) s₂

def SystemReachable (P : Program T M σ μ) (mem : μ) (s : SystemState T M σ μ) : Prop :=
  ∃ n k, SystemRun P (.initial P mem) n k s

/-- No thread can move unless it is woken up without cause. -/
def AtRest (P : Program T M σ μ) (s : SystemState T M σ μ) : Prop := ∀ s', ¬ SystemStep P s s'

/-- From `s` the threads come to rest, and the number of steps they can take before
is bounded but for those that spurious wake-ups cause. -/
def ComesToRest (P : Program T M σ μ) (s : SystemState T M σ μ) : Prop :=
  (∃ s', Relation.ReflTransGen (SystemStep P) s s' ∧ AtRest P s') ∧
    ∃ bound, ∀ n k s', SystemRun P s n k s' → n ≤ bound + 2 * k

/-! ## One queue among the others -/

def CallPc.on {σ : Type*} (q : Q) : CallPc M σ → QueuePc (M q)
  | .outside => .outside
  | .inserting r value _ => if h : r = q then .inserting (h ▸ value) else .outside
  | .notifying r => if r = q then .notifying else .outside
  | .testing r _ => if r = q then .testing else .outside
  | .sleeping r _ => if r = q then .sleeping else .outside
  | .removing r _ => if r = q then .removing else .outside

namespace CallPc
variable {σ : Type*} {q r : Q}

@[simp] theorem on_outside : (outside : CallPc M σ).on q = .outside := rfl

@[simp] theorem on_inserting (value : M q) (next : σ) :
    (inserting q value next).on q = .inserting value := by simp [on]

@[simp] theorem on_notifying : (notifying q : CallPc M σ).on q = .notifying := by simp [on]

@[simp] theorem on_testing (next : M q → σ) : (testing q next).on q = .testing := by simp [on]

@[simp] theorem on_sleeping (next : M q → σ) : (sleeping q next).on q = .sleeping := by simp [on]

@[simp] theorem on_removing (next : M q → σ) : (removing q next).on q = .removing := by simp [on]

section Other
variable (h : r ≠ q)
include h

theorem on_inserting_ne (value : M r) (next : σ) :
    (inserting r value next).on q = .outside := by simp [on, h]

theorem on_notifying_ne : (notifying r : CallPc M σ).on q = .outside := by simp [on, h]

theorem on_testing_ne (next : M r → σ) : (testing r next).on q = .outside := by simp [on, h]

theorem on_sleeping_ne (next : M r → σ) : (sleeping r next).on q = .outside := by simp [on, h]

theorem on_removing_ne (next : M r → σ) : (removing r next).on q = .outside := by simp [on, h]

end Other

theorem of_on_sleeping {x : CallPc M σ} (h : x.on q = .sleeping) :
    ∃ next, x = .sleeping q next := by
  cases x with
  | sleeping r next =>
    by_cases hr : r = q
    · subst hr
      exact ⟨next, rfl⟩
    · rw [on_sleeping_ne hr] at h
      cases h
  | outside => cases h
  | inserting r | notifying r | testing r | removing r =>
    simp only [on] at h
    split at h <;> cases h

theorem of_on_removing {x : CallPc M σ} (h : x.on q = .removing) :
    ∃ next, x = .removing q next := by
  cases x with
  | removing r next =>
    by_cases hr : r = q
    · subst hr
      exact ⟨next, rfl⟩
    · rw [on_removing_ne hr] at h
      cases h
  | outside => cases h
  | inserting r | notifying r | testing r | sleeping r =>
    simp only [on] at h
    split at h <;> cases h

end CallPc

@[simps] def SystemState.onQueue (s : SystemState T M σ μ) (q : Q) : QueueState T (M q) :=
  ⟨fun t => (s.pc t).on q, s.dQueue q, s.dMutex q, (s.pushed q).map Prod.snd,
    (s.popped q).map Prod.snd⟩

section OneQueue
variable {P : Program T M σ μ} {s s' : SystemState T M σ μ} {t : T} {x : CallPc M (σ t)} {q : Q}

theorem on_update (pc : (t : T) → CallPc M (σ t)) (t : T) (x : CallPc M (σ t)) (q : Q) :
    (fun u => (Function.update pc t x u).on q) =
      Function.update (fun u => (pc u).on q) t (x.on q) := by
  funext u
  exact Function.apply_update (fun _ => CallPc.on q) pc t x u

theorem onQueue_goto : (s.goto t x).onQueue q = (s.onQueue q).goto t (x.on q) := by
  simp only [SystemState.onQueue, SystemState.goto, QueueState.goto, on_update]

theorem on_update_of_eq (h : (s.pc t).on q = x.on q) :
    (fun u => (Function.update s.pc t x u).on q) = fun u => (s.pc u).on q := by
  rw [on_update, ← h]
  exact Function.update_eq_self t fun u => (s.pc u).on q

theorem onQueue_goto_of_eq (h : (s.pc t).on q = x.on q) : (s.goto t x).onQueue q = s.onQueue q := by
  simp only [SystemState.onQueue, SystemState.goto, on_update_of_eq h]

/-- A step of the threads is a step of each queue, or none. -/
theorem SystemStep.onQueue (h : SystemStep P s s') (q : Q) :
    Relation.ReflGen QueueStep (s.onQueue q) (s'.onQueue q) := by
  cases h with
  | callPush t r value next h ha =>
    by_cases hr : r = q
    · subst hr
      rw [onQueue_goto, CallPc.on_inserting]
      exact .single (.callPush _ t value (by simp [h]))
    · rw [onQueue_goto_of_eq (by rw [h, CallPc.on_inserting_ne hr, CallPc.on_outside])]
  | insert t r value next h hlock =>
    by_cases hr : r = q
    · subst hr
      have hmove := QueueStep.insert (s.onQueue r) t value (by simp [h]) hlock
      simpa [SystemState.onQueue, on_update, QueueState.goto] using Relation.ReflGen.single hmove
    · have hsame := on_update_of_eq (s := s) (t := t) (x := .notifying r) (q := q)
        (by rw [h, CallPc.on_inserting_ne hr, CallPc.on_notifying_ne hr])
      simp [SystemState.onQueue, hsame, Ne.symm hr, Relation.ReflGen.refl]
  | notifyNobody t r h hnone =>
    by_cases hr : r = q
    · subst hr
      rw [onQueue_goto, CallPc.on_outside]
      refine .single (.notifyNobody _ t (by simp [h]) fun u hu => ?_)
      obtain ⟨next, hnext⟩ := CallPc.of_on_sleeping hu
      exact hnone u next hnext
    · rw [onQueue_goto_of_eq (by rw [h, CallPc.on_notifying_ne hr, CallPc.on_outside])]
  | notifyOne t u r next h hu =>
    have hne : u ≠ t := fun he => by
      subst he
      rw [h] at hu
      cases hu
    by_cases hr : r = q
    · subst hr
      rw [onQueue_goto, onQueue_goto, CallPc.on_outside, CallPc.on_testing]
      exact .single (.notifyOne _ t u (by simp [h]) (by simp [hu]))
    · have hsleep : ((s.goto t .outside).pc u).on q = .outside := by
        simp [hne, hu, CallPc.on_sleeping_ne hr]
      rw [onQueue_goto_of_eq (by rw [hsleep, CallPc.on_testing_ne hr]),
        onQueue_goto_of_eq (by rw [h, CallPc.on_notifying_ne hr, CallPc.on_outside])]
  | callPop t r next h ha =>
    by_cases hr : r = q
    · subst hr
      rw [onQueue_goto, CallPc.on_testing]
      exact .single (.callPop _ t (by simp [h]))
    · rw [onQueue_goto_of_eq (by rw [h, CallPc.on_testing_ne hr, CallPc.on_outside])]
  | testEmpty t r next h hlock hempty =>
    by_cases hr : r = q
    · subst hr
      rw [onQueue_goto, CallPc.on_sleeping]
      exact .single (.testEmpty _ t (by simp [h]) hlock hempty)
    · rw [onQueue_goto_of_eq (by rw [h, CallPc.on_testing_ne hr, CallPc.on_sleeping_ne hr])]
  | testNonempty t r next h hlock hne =>
    by_cases hr : r = q
    · subst hr
      have hmove := QueueStep.testNonempty (s.onQueue r) t (by simp [h]) hlock hne
      simpa [SystemState.onQueue, on_update, QueueState.goto] using Relation.ReflGen.single hmove
    · have hsame := on_update_of_eq (s := s) (t := t) (x := .removing r next) (q := q)
        (by rw [h, CallPc.on_testing_ne hr, CallPc.on_removing_ne hr])
      simp [SystemState.onQueue, hsame, Ne.symm hr, Relation.ReflGen.refl]
  | remove t r next rest rc h hback =>
    by_cases hr : r = q
    · subst hr
      have hmove := QueueStep.remove (s.onQueue r) t rest rc (by simp [h]) hback
      simpa [SystemState.onQueue, on_update, QueueState.goto] using Relation.ReflGen.single hmove
    · have hsame := on_update_of_eq (s := s) (t := t) (x := .outside) (q := q)
        (by rw [h, CallPc.on_removing_ne hr, CallPc.on_outside])
      simp [SystemState.onQueue, hsame, Ne.symm hr, Relation.ReflGen.refl]
  | work t f h ha => exact .refl

theorem WakeSpuriously.onQueue (h : WakeSpuriously s s') (q : Q) :
    Relation.ReflGen QueueStep (s.onQueue q) (s'.onQueue q) := by
  cases h with
  | wake t r next h =>
    by_cases hr : r = q
    · subst hr
      rw [onQueue_goto, CallPc.on_testing]
      exact .single (.wakeSpuriously _ t (by simp [h]))
    · rw [onQueue_goto_of_eq (by rw [h, CallPc.on_sleeping_ne hr, CallPc.on_testing_ne hr])]

theorem SystemRun.onQueue {n k : ℕ} (h : SystemRun P s n k s') (q : Q) :
    Relation.ReflTransGen QueueStep (s.onQueue q) (s'.onQueue q) := by
  induction h with
  | refl => exact .refl
  | step _ hstep ih => exact ih.trans (hstep.onQueue q).to_reflTransGen
  | wake _ hwake ih => exact ih.trans (hwake.onQueue q).to_reflTransGen

/-- Every queue of a run is a blocking queue of its own. -/
theorem SystemReachable.onQueue {mem : μ} (h : SystemReachable P mem s) (q : Q) :
    QueueReachable (s.onQueue q) := by
  obtain ⟨n, k, hrun⟩ := h
  exact hrun.onQueue q

end OneQueue

/-! ## The program on atomic queues -/

section Atomic
variable {P : Program T M σ μ} {s s' : SystemState T M σ μ} {t : T} {mem : μ}

/-- The call that a thread is in is an action of its local state. -/
def CallPc.Allowed {σ : Type*} (actions : List (Action M σ μ)) : CallPc M σ → Prop
  | .outside => True
  | .inserting q value next => .push q value next ∈ actions
  | .notifying _ => True
  | .testing q next => .pop q next ∈ actions
  | .sleeping q next => .pop q next ∈ actions
  | .removing q next => .pop q next ∈ actions

def Calling (P : Program T M σ μ) (s : SystemState T M σ μ) : Prop :=
  ∀ t, (s.pc t).Allowed (P.actions t (s.loc t))

/-- Steps left in a call when nobody wakes up without cause; an insertion and a
removal are paid by the program. -/
def CallPc.rank {σ : Type*} : CallPc M σ → ℕ
  | .outside => 5
  | .inserting _ _ _ => 4
  | .notifying _ => 9
  | .testing _ _ => 2
  | .sleeping _ _ => 0
  | .removing _ _ => 1

omit [DecidableEq Q] in
theorem Calling.update (hc : Calling P s) {x : σ t} {y : CallPc M (σ t)}
    (hloc : s'.loc = Function.update s.loc t x) (hpc : s'.pc = Function.update s.pc t y)
    (hy : y.Allowed (P.actions t x)) : Calling P s' := by
  intro u
  rw [hloc, hpc]
  by_cases hu : u = t
  · subst hu
    simpa using hy
  · simpa [hu] using hc u

omit [DecidableEq Q] in
theorem Calling.goto (hc : Calling P s) {y : CallPc M (σ t)}
    (hy : y.Allowed (P.actions t (s.loc t))) : Calling P (s.goto t y) :=
  hc.update (Function.update_eq_self t s.loc).symm rfl hy

theorem SystemStep.calling (h : SystemStep P s s') (hc : Calling P s) : Calling P s' := by
  cases h with
  | callPush t q value next h ha => exact hc.goto ha
  | insert t q value next h hlock => exact hc.update rfl rfl trivial
  | notifyNobody t q h hnone => exact hc.goto trivial
  | notifyOne t u q next h hu =>
    have hleft : Calling P (s.goto t .outside) := hc.goto trivial
    refine hleft.goto ?_
    have hallowed := hc u
    rwa [hu] at hallowed
  | callPop t q next h ha => exact hc.goto ha
  | testEmpty t q next h hlock hempty =>
    have hallowed := hc t
    rw [h] at hallowed
    exact hc.goto hallowed
  | testNonempty t q next h hlock hne =>
    have hallowed := hc t
    rw [h] at hallowed
    exact hc.goto hallowed
  | remove t q next rest rc h hback => exact hc.update rfl rfl trivial
  | work t f h ha =>
    exact hc.update rfl (Function.update_eq_self t s.pc).symm (by rw [h]; trivial)

omit [DecidableEq Q] in
theorem WakeSpuriously.calling (h : WakeSpuriously s s') (hc : Calling P s) : Calling P s' := by
  cases h with
  | wake t q next h =>
    have hallowed := hc t
    rw [h] at hallowed
    exact hc.goto hallowed

omit [DecidableEq T] in
theorem reverse_update (dQueue : (q : Q) → List (M q)) (q : Q) (l : List (M q)) :
    (fun r => (Function.update dQueue q l r).reverse) =
      Function.update (fun r => (dQueue r).reverse) q l.reverse := by
  funext r
  exact Function.apply_update (fun _ => List.reverse) dQueue q l r

theorem SystemRun.calling {n k : ℕ} (h : SystemRun P s n k s') (hc : Calling P s) :
    Calling P s' := by
  induction h with
  | refl => exact hc
  | step _ hstep ih => exact hstep.calling ih
  | wake _ hwake ih => exact hwake.calling ih

theorem SystemReachable.calling (h : SystemReachable P mem s) : Calling P s := by
  obtain ⟨n, k, hrun⟩ := h
  exact hrun.calling fun t => trivial

section Rank
variable [Fintype T]

def callRank (s : SystemState T M σ μ) : ℕ := ∑ t, (s.pc t).rank

omit [DecidableEq Q] in
theorem callRank_goto (s : SystemState T M σ μ) (t : T) (x : CallPc M (σ t)) :
    callRank (s.goto t x) + (s.pc t).rank = callRank s + x.rank :=
  sum_rank_update (fun _ => CallPc.rank) s.pc t x

/-- A step of the threads is a step of the program on atomic queues, or it brings
a call nearer to its end. -/
theorem SystemStep.atomic (h : SystemStep P s s') (hc : Calling P s) :
    (P.Step s.atomic s'.atomic ∧ callRank s' ≤ callRank s + 5) ∨
      (s'.atomic = s.atomic ∧ callRank s' < callRank s) := by
  have hrank : ∀ t x, callRank (s.goto t x) + (s.pc t).rank = callRank s + x.rank :=
    callRank_goto s
  cases h with
  | callPush t q value next h ha =>
    have ht := hrank t (.inserting q value next)
    simp only [h, CallPc.rank] at ht
    exact .inr ⟨rfl, by omega⟩
  | insert t q value next h hlock =>
    have ht := hrank t (.notifying q)
    have ha := hc t
    rw [h] at ha
    simp only [h, CallPc.rank] at ht
    have hpush := Program.Step.push s.atomic t q value next ha
    refine .inl ⟨?_, ?_⟩
    · simpa [State.afterPush, SystemState.atomic, SystemState.goto, reverse_update] using hpush
    · change callRank (s.goto t (.notifying q)) ≤ _
      omega
  | notifyNobody t q h hnone =>
    have ht := hrank t .outside
    simp only [h, CallPc.rank] at ht
    exact .inr ⟨rfl, by omega⟩
  | notifyOne t u q next h hu =>
    have hne : u ≠ t := fun he => by
      subst he
      rw [h] at hu
      cases hu
    have ht := hrank t .outside
    have hwoken := callRank_goto (s.goto t .outside) u (.testing q next)
    simp only [SystemState.goto_pc, Function.update_of_ne hne, h, hu, CallPc.rank] at ht hwoken
    exact .inr ⟨rfl, by omega⟩
  | callPop t q next h ha =>
    have ht := hrank t (.testing q next)
    simp only [h, CallPc.rank] at ht
    exact .inr ⟨rfl, by omega⟩
  | testEmpty t q next h hlock hempty =>
    have ht := hrank t (.sleeping q next)
    simp only [h, CallPc.rank] at ht
    exact .inr ⟨rfl, by omega⟩
  | testNonempty t q next h hlock hne =>
    have ht := hrank t (.removing q next)
    simp only [h, CallPc.rank] at ht
    refine .inr ⟨rfl, ?_⟩
    change callRank (s.goto t (.removing q next)) < _
    omega
  | remove t q next rest rc h hback =>
    have ht := hrank t .outside
    have ha := hc t
    rw [h] at ha
    simp only [h, CallPc.rank] at ht
    have hpop := Program.Step.pop s.atomic t q next rc rest.reverse ha (by simp [hback])
    refine .inl ⟨?_, ?_⟩
    · simpa [State.afterPop, SystemState.atomic, SystemState.goto, reverse_update] using hpop
    · change callRank (s.goto t .outside) ≤ _
      omega
  | work t f h ha => exact .inl ⟨.work s.atomic t f ha, Nat.le_add_right _ 5⟩

omit [DecidableEq Q] in
theorem WakeSpuriously.atomic (h : WakeSpuriously s s') :
    s'.atomic = s.atomic ∧ callRank s' = callRank s + 2 := by
  cases h with
  | wake t q next h =>
    have ht := callRank_goto s t (.testing q next)
    simp only [h, CallPc.rank] at ht
    exact ⟨rfl, ht⟩

theorem SystemRun.atomic {n k : ℕ} (h : SystemRun P s n k s') (hc : Calling P s) :
    Relation.ReflTransGen P.Step s.atomic s'.atomic := by
  induction h with
  | refl => exact .refl
  | step hrun hstep ih =>
    rcases hstep.atomic (hrun.calling hc) with ⟨hmove, -⟩ | ⟨hsame, -⟩
    · exact ih.tail hmove
    · rwa [hsame]
  | wake _ hwake ih => rwa [hwake.atomic.1]

theorem SystemReachable.atomic (h : SystemReachable P mem s) : P.Reachable mem s.atomic := by
  obtain ⟨n, k, hrun⟩ := h
  exact hrun.atomic fun t => trivial

/-! ## The length of a run -/

section Ranking
variable {rank : (t : T) → σ t → ℕ} {weight : (q : Q) → M q → ℕ} {Qs : Finset Q}

def potential (rank : (t : T) → σ t → ℕ) (weight : (q : Q) → M q → ℕ) (Qs : Finset Q)
    (s : SystemState T M σ μ) : ℕ := 6 * energy rank weight Qs s.atomic + callRank s

theorem SystemStep.potential_lt (hR : Ranking P rank weight Qs) (h : SystemStep P s s')
    (hc : Calling P s) : potential rank weight Qs s' < potential rank weight Qs s := by
  rcases h.atomic hc with ⟨hmove, hle⟩ | ⟨hsame, hlt⟩
  · have hspent := hR.energy_lt hmove
    simp only [potential]
    omega
  · simp only [potential, hsame]
    omega

/-- A run is finite unless threads wake up without cause again and again. -/
theorem SystemRun.length_le (hR : Ranking P rank weight Qs) {n k : ℕ} (h : SystemRun P s n k s')
    (hc : Calling P s) :
    n + potential rank weight Qs s' ≤ potential rank weight Qs s + 2 * k := by
  induction h with
  | refl => omega
  | step hrun hstep ih =>
    have hlt := hstep.potential_lt hR (hrun.calling hc)
    omega
  | @wake n k s₁ s₂ hrun hwake ih =>
    have hup : potential rank weight Qs s₂ = potential rank weight Qs s₁ + 2 := by
      simp only [potential, hwake.atomic.1, hwake.atomic.2]
      omega
    omega

theorem exists_atRest (hR : Ranking P rank weight Qs) (hc : Calling P s) :
    ∃ s', Relation.ReflTransGen (SystemStep P) s s' ∧ AtRest P s' := by
  induction hn : potential rank weight Qs s using Nat.strong_induction_on generalizing s with
  | _ n ih =>
    by_cases hrest : AtRest P s
    · exact ⟨s, .refl, hrest⟩
    · simp only [AtRest, not_forall, not_not] at hrest
      obtain ⟨s₁, h₁⟩ := hrest
      obtain ⟨s₂, h₂, hrest₂⟩ := ih _ (hn ▸ h₁.potential_lt hR hc) (h₁.calling hc) rfl
      exact ⟨s₂, .head h₁ h₂, hrest₂⟩

theorem SystemReachable.comesToRest (hR : Ranking P rank weight Qs) (h : SystemReachable P mem s) :
    ComesToRest P s := by
  refine ⟨exists_atRest hR h.calling, potential rank weight Qs s, fun n k s' hrun => ?_⟩
  have hle := hrun.length_le hR h.calling
  omega

end Ranking

omit [Fintype T] in
theorem SystemReachable.steps (h : SystemReachable P mem s)
    (hsteps : Relation.ReflTransGen (SystemStep P) s s') : SystemReachable P mem s' := by
  induction hsteps with
  | refl => exact h
  | tail _ hstep ih =>
    obtain ⟨n, k, hrun⟩ := ih
    exact ⟨n + 1, k, hrun.step hstep⟩

/-! ## At rest -/

/-- Every local state has one action at most. -/
def Sequential (P : Program T M σ μ) : Prop := ∀ t x, (P.actions t x).length ≤ 1

omit [DecidableEq T] [DecidableEq Q] [Fintype T] in
theorem Sequential.eq (hP : Sequential P) {x : σ t} {a b : Action M (σ t) μ}
    (ha : a ∈ P.actions t x) (hb : b ∈ P.actions t x) : a = b := by
  have hle := hP t x
  generalize P.actions t x = actions at ha hb hle
  match actions, hle with
  | [_], _ => rw [List.mem_singleton.mp ha, List.mem_singleton.mp hb]

omit [Fintype T] in
theorem AtRest.unlocked (hrest : AtRest P s) (h : SystemReachable P mem s) (q : Q) :
    s.dMutex q = none := by
  have hl := (h.onQueue q).locked
  by_contra hlock
  obtain ⟨t, ht⟩ := Option.ne_none_iff_exists'.mp hlock
  have hpc : (s.pc t).on q = .removing := (hl.holder t).mpr ht
  obtain ⟨rest, rc, hback⟩ := (h.onQueue q).exists_back hpc
  obtain ⟨next, hnext⟩ := CallPc.of_on_removing hpc
  exact hrest _ (.remove s t q next rest rc hnext hback)

/-- At rest every thread is out of the queues without an action, or asleep. -/
theorem AtRest.idle (hrest : AtRest P s) (h : SystemReachable P mem s) (t : T) :
    (s.pc t = .outside ∧ P.actions t (s.loc t) = []) ∨ ∃ q next, s.pc t = .sleeping q next := by
  cases hpc : s.pc t with
  | outside =>
    refine .inl ⟨rfl, List.eq_nil_iff_forall_not_mem.mpr fun a ha => ?_⟩
    cases a with
    | pop q next => exact hrest _ (.callPop s t q next hpc ha)
    | push q value next => exact hrest _ (.callPush s t q value next hpc ha)
    | work f => exact hrest _ (.work s t f hpc ha)
  | inserting q value next =>
    exact absurd (.insert s t q value next hpc (hrest.unlocked h q)) (hrest _)
  | notifying q =>
    by_cases hsleep : ∃ u next, s.pc u = .sleeping q next
    · obtain ⟨u, next, hu⟩ := hsleep
      exact absurd (.notifyOne s t u q next hpc hu) (hrest _)
    · exact absurd (.notifyNobody s t q hpc fun u next hu => hsleep ⟨u, next, hu⟩) (hrest _)
  | testing q next =>
    by_cases hempty : s.dQueue q = []
    · exact absurd (.testEmpty s t q next hpc (hrest.unlocked h q) hempty) (hrest _)
    · exact absurd (.testNonempty s t q next hpc (hrest.unlocked h q) hempty) (hrest _)
  | sleeping q next => exact .inr ⟨q, next, rfl⟩
  | removing q next =>
    obtain ⟨rest, rc, hback⟩ := (h.onQueue q).exists_back (t := t) (by simp [hpc])
    exact absurd (.remove s t q next rest rc hpc hback) (hrest _)

theorem AtRest.outside (hrest : AtRest P s) (h : SystemReachable P mem s)
    (hnone : P.actions t (s.loc t) = []) : s.pc t = .outside := by
  rcases hrest.idle h t with ⟨ht, -⟩ | ⟨q, next, ht⟩
  · exact ht
  · have hallowed := h.calling t
    rw [ht] at hallowed
    change _ ∈ P.actions t (s.loc t) at hallowed
    rw [hnone] at hallowed
    cases hallowed

theorem AtRest.empty (hrest : AtRest P s) (h : SystemReachable P mem s) {q : Q} {next : M q → σ t}
    (ht : s.pc t = .sleeping q next) : s.dQueue q = [] := by
  by_contra hne
  refine (h.onQueue q).covered.not_lostWakeup ⟨hne, ⟨t, by simp [ht]⟩, fun u => ?_, fun u => ?_⟩
  · rcases hrest.idle h u with ⟨hu, -⟩ | ⟨r, next', hu⟩
    · simp [hu]
    · by_cases hr : r = q
      · subst hr
        simp [hu]
      · simp [hu, CallPc.on_sleeping_ne hr]
  · rcases hrest.idle h u with ⟨hu, -⟩ | ⟨r, next', hu⟩
    · simp [hu, QueuePc.Awake]
    · by_cases hr : r = q
      · subst hr
        simp [hu, QueuePc.Awake]
      · simp [hu, CallPc.on_sleeping_ne hr, QueuePc.Awake]

/-- Threads on blocking queues come to rest only where the program on atomic queues
ends. -/
theorem AtRest.terminal (hrest : AtRest P s) (h : SystemReachable P mem s) (hP : Sequential P) :
    P.Terminal s.atomic := by
  have hwaits {t : T} {a : Action M (σ t) μ} (ha : a ∈ P.actions t (s.loc t)) :
      ∃ q next, a = .pop q next ∧ s.dQueue q = [] := by
    rcases hrest.idle h t with ⟨-, hnone⟩ | ⟨q, next, ht⟩
    · rw [hnone] at ha
      cases ha
    · have hallowed := h.calling t
      rw [ht] at hallowed
      exact ⟨q, next, hP.eq ha hallowed, hrest.empty h ht⟩
  intro s' hstep
  cases hstep with
  | pop t q next m rest ha hq =>
    obtain ⟨q', next', heq, hempty⟩ := hwaits ha
    cases heq
    simp [hempty] at hq
  | push t q m next ha =>
    obtain ⟨q', next', heq, -⟩ := hwaits ha
    cases heq
  | work t f ha =>
    obtain ⟨q', next', heq, -⟩ := hwaits ha
    cases heq

end Rank

end Atomic

end WaterMark.Queue
