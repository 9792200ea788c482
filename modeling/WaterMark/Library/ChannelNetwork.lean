import Mathlib.Algebra.GroupWithZero.Nat
import Mathlib.Logic.Relation
import WaterMark.Library.TaggedLog

/-! # Threads that communicate over FIFO queues and share a memory

A program gives each thread the atomic actions it can take in its present
local state: pop a queue, push on a queue, or compute on the shared memory. A
pop waits while its queue is empty. Each state carries the history of every
queue, so that a property of a run is a property of the state it reaches.
-/

namespace ChannelNetwork
open TaggedLog

variable {T Q : Type*} {M : Q → Type*} {σ : T → Type*} {μ : Type*}

/-- One atomic action of a thread with local states `σ` and shared memory `μ`. -/
inductive Action {Q : Type*} (M : Q → Type*) (σ μ : Type*) where
  | pop (q : Q) (next : M q → σ)
  | push (q : Q) (m : M q) (next : σ)
  | work (f : μ → σ × μ)

structure Program (T : Type*) {Q : Type*} (M : Q → Type*) (σ : T → Type*) (μ : Type*) where
  start : (t : T) → σ t
  actions : (t : T) → σ t → List (Action M (σ t) μ)

/-- The queues hold their messages from oldest to newest. The two histories tag
each message with the thread that pushed it, respectively popped it. -/
structure State (T : Type*) {Q : Type*} (M : Q → Type*) (σ : T → Type*) (μ : Type*) where
  loc : (t : T) → σ t
  queue : (q : Q) → List (M q)
  mem : μ
  pushed : (q : Q) → List (T × M q)
  popped : (q : Q) → List (T × M q)

namespace Program

def initial (P : Program T M σ μ) (mem : μ) : State T M σ μ :=
  ⟨P.start, fun _ => [], mem, fun _ => [], fun _ => []⟩

end Program

variable [DecidableEq T] [DecidableEq Q]

namespace State

def afterPop (s : State T M σ μ) (t : T) (q : Q) (m : M q) (rest : List (M q)) (x : σ t) :
    State T M σ μ :=
  { s with
    loc := Function.update s.loc t x
    queue := Function.update s.queue q rest
    popped := Function.update s.popped q (s.popped q ++ [(t, m)]) }

def afterPush (s : State T M σ μ) (t : T) (q : Q) (m : M q) (x : σ t) : State T M σ μ :=
  { s with
    loc := Function.update s.loc t x
    queue := Function.update s.queue q (s.queue q ++ [m])
    pushed := Function.update s.pushed q (s.pushed q ++ [(t, m)]) }

def afterWork (s : State T M σ μ) (t : T) (r : σ t × μ) : State T M σ μ :=
  { s with loc := Function.update s.loc t r.1, mem := r.2 }

def ins (s : State T M σ μ) (t : T) (q : Q) : List (M q) := entries t (s.popped q)

def outs (s : State T M σ μ) (t : T) (q : Q) : List (M q) := entries t (s.pushed q)

section
variable (s : State T M σ μ) (t : T) (q : Q) (m : M q) (rest : List (M q)) (x : σ t)

@[simp] theorem outs_afterPop (u : T) : (s.afterPop t q m rest x).outs u = s.outs u := rfl

@[simp] theorem ins_afterPush (u : T) : (s.afterPush t q m x).ins u = s.ins u := rfl

omit [DecidableEq Q] in
@[simp] theorem ins_afterWork (r : σ t × μ) (u : T) : (s.afterWork t r).ins u = s.ins u := rfl

omit [DecidableEq Q] in
@[simp] theorem outs_afterWork (r : σ t × μ) (u : T) : (s.afterWork t r).outs u = s.outs u := rfl

theorem ins_afterPop_self : (s.afterPop t q m rest x).ins t =
    Function.update (s.ins t) q (s.ins t q ++ [m]) := by
  funext q'
  by_cases h : q' = q
  · subst h
    simp [ins, afterPop]
  · simp [ins, afterPop, h]

theorem ins_afterPop_ne {u : T} (h : t ≠ u) : (s.afterPop t q m rest x).ins u = s.ins u := by
  funext q'
  by_cases hq : q' = q
  · subst hq
    simp [ins, afterPop, entries_single_ne m h]
  · simp [ins, afterPop, hq]

theorem outs_afterPush_self : (s.afterPush t q m x).outs t =
    Function.update (s.outs t) q (s.outs t q ++ [m]) := by
  funext q'
  by_cases h : q' = q
  · subst h
    simp [outs, afterPush]
  · simp [outs, afterPush, h]

theorem outs_afterPush_ne {u : T} (h : t ≠ u) : (s.afterPush t q m x).outs u = s.outs u := by
  funext q'
  by_cases hq : q' = q
  · subst hq
    simp [outs, afterPush, entries_single_ne m h]
  · simp [outs, afterPush, hq]

end

end State

namespace Program

variable (P : Program T M σ μ)

inductive Step : State T M σ μ → State T M σ μ → Prop
  | pop (s : State T M σ μ) (t : T) (q : Q) (next : M q → σ t) (m : M q) (rest : List (M q))
      (ha : .pop q next ∈ P.actions t (s.loc t)) (hq : s.queue q = m :: rest) :
      Step s (s.afterPop t q m rest (next m))
  | push (s : State T M σ μ) (t : T) (q : Q) (m : M q) (next : σ t)
      (ha : .push q m next ∈ P.actions t (s.loc t)) : Step s (s.afterPush t q m next)
  | work (s : State T M σ μ) (t : T) (f : μ → σ t × μ)
      (ha : .work f ∈ P.actions t (s.loc t)) : Step s (s.afterWork t (f s.mem))

/-- The states of the runs that start from the memory `mem`. -/
def Reachable (mem : μ) : State T M σ μ → Prop :=
  Relation.ReflTransGen P.Step (P.initial mem)

/-- A run that has reached this state cannot be extended. -/
def Terminal (s : State T M σ μ) : Prop := ∀ s', ¬ P.Step s s'

variable {P} {mem : μ} {s : State T M σ μ}

/-- Messages leave a queue in the order in which they entered it. -/
theorem Reachable.conserved (h : P.Reachable mem s) (q : Q) :
    (s.pushed q).map Prod.snd = (s.popped q).map Prod.snd ++ s.queue q := by
  induction h with
  | refl => rfl
  | tail _ hstep ih =>
    cases hstep with
    | pop t q' next m rest ha hq =>
      by_cases h : q = q'
      · subst h
        simp [State.afterPop, ih, hq]
      · simpa [State.afterPop, h] using ih
    | push t q' m next ha =>
      by_cases h : q = q'
      · subst h
        simp [State.afterPush, ih]
      · simpa [State.afterPush, h] using ih
    | work t f ha => exact ih

theorem Step.pushed_prefix {s' : State T M σ μ} (h : P.Step s s') (q : Q) :
    s.pushed q <+: s'.pushed q := by
  cases h with
  | push t q' m next ha =>
    by_cases h : q = q'
    · subst h
      simp [State.afterPush]
    · simp [State.afterPush, h]
  | pop | work => exact List.prefix_rfl

/-- A queue is written only by the threads whose actions push on it. -/
theorem Reachable.pushed_by (h : P.Reachable mem s) {q : Q} {S : Set T}
    (hS : ∀ t x m next, .push q m next ∈ P.actions t x → t ∈ S) :
    ∀ e ∈ s.pushed q, e.1 ∈ S := by
  induction h with
  | refl => simp [initial]
  | tail _ hstep ih =>
    cases hstep with
    | pop t q' next m rest ha hq => exact ih
    | push t q' m next ha =>
      by_cases h : q = q'
      · subst h
        intro e he
        simp only [State.afterPush, Function.update_self, List.mem_append,
          List.mem_singleton] at he
        rcases he with he | rfl
        · exact ih e he
        · exact hS t _ m next ha
      · simpa [State.afterPush, h] using ih
    | work t f ha => exact ih

theorem Reachable.popped_by (h : P.Reachable mem s) {q : Q} {S : Set T}
    (hS : ∀ t x next, .pop q next ∈ P.actions t x → t ∈ S) :
    ∀ e ∈ s.popped q, e.1 ∈ S := by
  induction h with
  | refl => simp [initial]
  | tail _ hstep ih =>
    cases hstep with
    | pop t q' next m rest ha hq =>
      by_cases h : q = q'
      · subst h
        intro e he
        simp only [State.afterPop, Function.update_self, List.mem_append,
          List.mem_singleton] at he
        rcases he with he | rfl
        · exact ih e he
        · exact hS t _ next ha
      · simpa [State.afterPop, h] using ih
    | push t q' m next ha => exact ih
    | work t f ha => exact ih

/-- A log in the shared memory in which every entry is caused by the entries
before it, since the step that adds it finds its causes there. The steps of the
run may be restricted to a relation `R`. -/
theorem justified_of_run {β : Type*} {J : List β → β → Prop}
    {R : State T M σ μ → State T M σ μ → Prop} (hR : ∀ s s', R s s' → P.Step s s')
    (h : Relation.ReflTransGen R (P.initial mem) s) (log : μ → List β) (h0 : log mem = [])
    (hwork : ∀ s, Relation.ReflTransGen R (P.initial mem) s →
      ∀ t f, .work f ∈ P.actions t (s.loc t) → ∃ new, log (f s.mem).2 = log s.mem ++ new ∧
        Justified (fun before b => J (log s.mem ++ before) b) new) : Justified J (log s.mem) := by
  induction h with
  | refl =>
    change Justified J (log mem)
    rw [h0]
    exact .nil
  | @tail s s' hs hstep ih =>
    cases hR s s' hstep with
    | pop t q next m rest ha hq => exact ih
    | push t q m next ha => exact ih
    | work t f ha =>
      rcases hwork s hs t f ha with ⟨new, hlog, hnew⟩
      change Justified J (log (f s.mem).2)
      rw [hlog]
      exact ih.append hnew

theorem Reachable.justified {β : Type*} {J : List β → β → Prop} (h : P.Reachable mem s)
    (log : μ → List β) (h0 : log mem = [])
    (hwork : ∀ s, P.Reachable mem s → ∀ t f, .work f ∈ P.actions t (s.loc t) →
      ∃ new, log (f s.mem).2 = log s.mem ++ new ∧
        Justified (fun before b => J (log s.mem ++ before) b) new) : Justified J (log s.mem) :=
  justified_of_run (fun _ _ hstep => hstep) h log h0 hwork

theorem forall_log_of_run {β : Type*} {G : β → Prop} {R : State T M σ μ → State T M σ μ → Prop}
    (hR : ∀ s s', R s s' → P.Step s s') (h : Relation.ReflTransGen R (P.initial mem) s)
    (log : μ → List β) (h0 : log mem = [])
    (hwork : ∀ s, Relation.ReflTransGen R (P.initial mem) s →
      ∀ t f, .work f ∈ P.actions t (s.loc t) →
        ∃ new, log (f s.mem).2 = log s.mem ++ new ∧ ∀ b ∈ new, G b) :
    ∀ b ∈ log s.mem, G b := by
  have hjust : Justified (fun _ b => G b) (log s.mem) := by
    refine justified_of_run hR h log h0 fun s hs t f ha => ?_
    rcases hwork s hs t f ha with ⟨new, hlog, hnew⟩
    exact ⟨new, hlog, .of_all fun _ => hnew⟩
  intro b hb
  rcases List.append_of_mem hb with ⟨before, after, hsplit⟩
  exact hjust before b after hsplit

/-- At the end of a run every thread has returned or waits on an empty queue. -/
theorem Terminal.waits (h : P.Terminal s) {t : T} {a : Action M (σ t) μ}
    (ha : a ∈ P.actions t (s.loc t)) : ∃ q next, a = .pop q next ∧ s.queue q = [] := by
  cases a with
  | pop q next =>
    refine ⟨q, next, rfl, ?_⟩
    cases hq : s.queue q with
    | nil => rfl
    | cons m rest => exact absurd (.pop s t q next m rest ha hq) (h _)
  | push q m next => exact absurd (.push s t q m next ha) (h _)
  | work f => exact absurd (.work s t f ha) (h _)

end Program

/-! ## Schedules -/

namespace Program
variable (P : Program T M σ μ)

/-- Thread `t` takes its action number `k`, if it can. -/
def fire (s : State T M σ μ) (t : T) (k : ℕ) : Option (State T M σ μ) :=
  match (P.actions t (s.loc t))[k]? with
  | some (.pop q next) =>
    match s.queue q with
    | m :: rest => some (s.afterPop t q m rest (next m))
    | [] => none
  | some (.push q m next) => some (s.afterPush t q m next)
  | some (.work f) => some (s.afterWork t (f s.mem))
  | none => none

theorem step_of_fire {s s' : State T M σ μ} {t : T} {k : ℕ} (h : P.fire s t k = some s') :
    P.Step s s' := by
  unfold fire at h
  split at h
  · rename_i q next ha
    split at h
    · rename_i m rest hq
      cases h
      exact .pop s t q next m rest (List.mem_of_getElem? ha) hq
    · cases h
  · rename_i q m next ha
    cases h
    exact .push s t q m next (List.mem_of_getElem? ha)
  · rename_i f ha
    cases h
    exact .work s t f (List.mem_of_getElem? ha)
  · cases h

/-- The run of a schedule, a sequence of threads each with the number of its action. -/
def exec (s : State T M σ μ) : List (T × ℕ) → Option (State T M σ μ)
  | [] => some s
  | (t, k) :: schedule =>
    match P.fire s t k with
    | some s' => exec s' schedule
    | none => none

theorem steps_of_exec {s s' : State T M σ μ} {schedule : List (T × ℕ)}
    (h : P.exec s schedule = some s') : Relation.ReflTransGen P.Step s s' := by
  induction schedule generalizing s with
  | nil =>
    cases h
    exact .refl
  | cons e schedule ih =>
    rcases e with ⟨t, k⟩
    unfold exec at h
    split at h
    · rename_i s₁ hfire
      exact .head (P.step_of_fire hfire) (ih h)
    · cases h

theorem exists_of_exec {mem : μ} {β : Type*} {schedule : List (T × ℕ)} (f : State T M σ μ → β)
    {b : β} (h : (P.exec (P.initial mem) schedule).map f = some b) :
    ∃ s, P.Reachable mem s ∧ f s = b := by
  rcases Option.map_eq_some_iff.mp h with ⟨s, hs, hb⟩
  exact ⟨s, P.steps_of_exec hs, hb⟩

end Program

/-! ## Invariants proved one thread at a time -/

section Local
variable {P : Program T M σ μ} {ν : T → Type*}

/-- A relation between a thread's local state, what it has received and sent,
and its own part of the memory, that the thread's actions keep whatever it
receives and the other threads' actions do not touch. -/
structure LocalInvariant (P : Program T M σ μ) (view : (t : T) → μ → ν t)
    (I : (t : T) → σ t → ((q : Q) → List (M q)) → ((q : Q) → List (M q)) → ν t → Prop) :
    Prop where
  pop : ∀ t x ins outs v q next m, .pop q next ∈ P.actions t x → I t x ins outs v →
    I t (next m) (Function.update ins q (ins q ++ [m])) outs v
  push : ∀ t x ins outs v q m next, .push q m next ∈ P.actions t x → I t x ins outs v →
    I t next ins (Function.update outs q (outs q ++ [m])) v
  work : ∀ t x ins outs mem f, .work f ∈ P.actions t x → I t x ins outs (view t mem) →
    I t (f mem).1 ins outs (view t (f mem).2)
  frame : ∀ t u x mem f, u ≠ t → .work f ∈ P.actions u x → view t (f mem).2 = view t mem

variable {view : (t : T) → μ → ν t}
  {I : (t : T) → σ t → ((q : Q) → List (M q)) → ((q : Q) → List (M q)) → ν t → Prop}

/-- A local invariant that holds at the start holds of every thread in every
reachable state. -/
theorem LocalInvariant.reachable (hI : LocalInvariant P view I) {mem : μ} {s : State T M σ μ}
    (h0 : ∀ t, I t (P.start t) (fun _ => []) (fun _ => []) (view t mem))
    (h : P.Reachable mem s) (u : T) : I u (s.loc u) (s.ins u) (s.outs u) (view u s.mem) := by
  induction h with
  | refl => exact h0 u
  | @tail b _ _ hstep ih =>
    cases hstep with
    | pop t q next m rest ha hq =>
      rw [State.outs_afterPop]
      by_cases h : t = u
      · subst h
        rw [State.ins_afterPop_self]
        simpa [State.afterPop] using hI.pop t _ _ _ _ q next m ha ih
      · rw [State.ins_afterPop_ne _ _ _ _ _ _ h]
        simpa [State.afterPop, Ne.symm h] using ih
    | push t q m next ha =>
      rw [State.ins_afterPush]
      by_cases h : t = u
      · subst h
        rw [State.outs_afterPush_self]
        simpa [State.afterPush] using hI.push t _ _ _ _ q m next ha ih
      · rw [State.outs_afterPush_ne _ _ _ _ _ h]
        simpa [State.afterPush, Ne.symm h] using ih
    | work t f ha =>
      rw [State.ins_afterWork, State.outs_afterWork]
      by_cases h : t = u
      · subst h
        simpa [State.afterWork] using hI.work t _ _ _ _ f ha ih
      · have hv := hI.frame u t _ b.mem f h ha
        simpa [State.afterWork, Ne.symm h, hv] using ih

end Local

/-! ## Termination by ranks of the threads and weights of the messages -/

theorem sum_rank_update {T : Type*} {σ : T → Type*} [DecidableEq T] [Fintype T]
    (rank : (t : T) → σ t → ℕ) (loc : (t : T) → σ t) (t : T) (x : σ t) :
    ∑ u, rank u (Function.update loc t x u) + rank t (loc t) =
      ∑ u, rank u (loc u) + rank t x := by
  rw [← Finset.add_sum_erase _ _ (Finset.mem_univ t),
    ← Finset.add_sum_erase _ (fun u => rank u (loc u)) (Finset.mem_univ t)]
  have hrest : ∑ u ∈ Finset.univ.erase t, rank u (Function.update loc t x u) =
      ∑ u ∈ Finset.univ.erase t, rank u (loc u) :=
    Finset.sum_congr rfl fun u hu => by
      rw [Function.update_of_ne (Finset.ne_of_mem_erase hu)]
  rw [hrest, Function.update_self]
  omega

section Ranking
variable [Fintype T] (P : Program T M σ μ)

/-- A thread's rank falls with each action, where a pop may spend the weight of
the message and a push must pay for it. -/
structure Ranking (rank : (t : T) → σ t → ℕ) (weight : (q : Q) → M q → ℕ) (Qs : Finset Q) :
    Prop where
  pop : ∀ t x q next m, .pop q next ∈ P.actions t x →
    q ∈ Qs ∧ rank t (next m) < rank t x + weight q m
  push : ∀ t x q m next, .push q m next ∈ P.actions t x →
    q ∈ Qs ∧ rank t next + weight q m < rank t x
  work : ∀ t x mem f, .work f ∈ P.actions t x → rank t (f mem).1 < rank t x

def energy (rank : (t : T) → σ t → ℕ) (weight : (q : Q) → M q → ℕ) (Qs : Finset Q)
    (s : State T M σ μ) : ℕ :=
  ∑ t, rank t (s.loc t) + ∑ q ∈ Qs, ((s.queue q).map (weight q)).sum

variable {P} {rank : (t : T) → σ t → ℕ} (weight : (q : Q) → M q → ℕ) {Qs : Finset Q}

omit [DecidableEq T] [Fintype T] in
private theorem sum_weight_update (queue : (q : Q) → List (M q)) {q : Q} (hq : q ∈ Qs)
    (l : List (M q)) :
    ∑ r ∈ Qs, ((Function.update queue q l r).map (weight r)).sum +
        ((queue q).map (weight q)).sum =
      ∑ r ∈ Qs, ((queue r).map (weight r)).sum + (l.map (weight q)).sum := by
  rw [← Finset.add_sum_erase _ _ hq,
    ← Finset.add_sum_erase _ (fun r => ((queue r).map (weight r)).sum) hq]
  have hrest : ∑ r ∈ Qs.erase q, ((Function.update queue q l r).map (weight r)).sum =
      ∑ r ∈ Qs.erase q, ((queue r).map (weight r)).sum :=
    Finset.sum_congr rfl fun r hr => by
      rw [Function.update_of_ne (Finset.ne_of_mem_erase hr)]
  rw [hrest, Function.update_self]
  omega

variable {weight}

theorem Ranking.energy_lt (hR : Ranking P rank weight Qs) {s s' : State T M σ μ}
    (h : P.Step s s') : energy rank weight Qs s' < energy rank weight Qs s := by
  cases h with
  | pop t q next m rest ha hq =>
    obtain ⟨hmem, hlt⟩ := hR.pop t _ q next m ha
    have hr := sum_rank_update rank s.loc t (next m)
    have hw := sum_weight_update weight s.queue hmem rest
    simp only [hq, List.map_cons, List.sum_cons] at hw
    simp only [energy, State.afterPop]
    omega
  | push t q m next ha =>
    obtain ⟨hmem, hlt⟩ := hR.push t _ q m next ha
    have hr := sum_rank_update rank s.loc t next
    have hw := sum_weight_update weight s.queue hmem (s.queue q ++ [m])
    simp only [List.map_append, List.map_cons, List.map_nil, List.sum_append, List.sum_cons,
      List.sum_nil] at hw
    simp only [energy, State.afterPush]
    omega
  | work t f ha =>
    have hlt := hR.work t _ s.mem f ha
    have hr := sum_rank_update rank s.loc t (f s.mem).1
    simp only [energy, State.afterWork]
    omega

/-- No run is infinite. -/
theorem Ranking.wellFounded (hR : Ranking P rank weight Qs) :
    WellFounded fun s' s => P.Step s s' :=
  Subrelation.wf (fun h => hR.energy_lt h) (measure (energy rank weight Qs)).wf

/-- Every run can be continued to one that cannot be extended. -/
theorem Ranking.exists_terminal (hR : Ranking P rank weight Qs) (s : State T M σ μ) :
    ∃ s', Relation.ReflTransGen P.Step s s' ∧ P.Terminal s' := by
  induction s using hR.wellFounded.induction with
  | _ s ih =>
    by_cases hs : P.Terminal s
    · exact ⟨s, .refl, hs⟩
    · simp only [Program.Terminal, not_forall, not_not] at hs
      obtain ⟨s₁, h₁⟩ := hs
      obtain ⟨s₂, h₂, hterm⟩ := ih s₁ h₁
      exact ⟨s₂, .head h₁ h₂, hterm⟩

end Ranking

end ChannelNetwork
