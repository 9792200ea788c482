import Mathlib.Data.List.ReduceOption
import WaterMark.Library.Attempts

/-! # Programs that tell the end of the stream

A program whose messages may be the mark `none` of the end of a stream, beside one
without marks. When every action of the first is one of the second, or does nothing
but send or receive a mark, a run of the first without its marks is a run of the second.
-/

namespace ChannelNetwork

variable {T Q : Type*} {M : Q → Type*} {σ τ : T → Type*} {μ : Type*}

section Marked
variable {σ τ : Type*}

/-- An action of a thread whose messages may be marks: a mark brings it to `eos`. -/
def Action.marked (place : σ → τ) (eos : τ) : Action M σ μ → Action (fun q => Option (M q)) τ μ
  | .pop q next => .pop q fun m => m.elim eos fun m => place (next m)
  | .push q m next => .push q (some m) (place next)
  | .work f => .work fun mem => (place (f mem).1, (f mem).2)

variable {place : σ → τ} {eos : τ} {actions : List (Action M σ μ)} {q : Q}

theorem pop_marked {next : Option (M q) → τ}
    (ha : Action.pop q next ∈ actions.map (Action.marked place eos)) :
    ∃ next', .pop q next' ∈ actions ∧ next = fun m => m.elim eos fun m => place (next' m) := by
  obtain ⟨a, hmem, he⟩ := List.mem_map.mp ha
  cases a with
  | pop q next' =>
    cases he
    exact ⟨next', hmem, rfl⟩
  | push | work => cases he

theorem push_marked {m : Option (M q)} {next : τ}
    (ha : Action.push q m next ∈ actions.map (Action.marked place eos)) :
    ∃ m' next', .push q m' next' ∈ actions ∧ m = some m' ∧ next = place next' := by
  obtain ⟨a, hmem, he⟩ := List.mem_map.mp ha
  cases a with
  | push q m' next' =>
    cases he
    exact ⟨m', next', hmem, rfl, rfl⟩
  | pop | work => cases he

theorem work_marked {f : μ → τ × μ} (ha : Action.work f ∈ actions.map (Action.marked place eos)) :
    ∃ f', .work f' ∈ actions ∧ f = fun mem => (place (f' mem).1, (f' mem).2) := by
  obtain ⟨a, hmem, he⟩ := List.mem_map.mp ha
  cases a with
  | work f' =>
    cases he
    exact ⟨f', hmem, rfl⟩
  | pop | push => cases he

/-- What waits behind the lift waits. -/
theorem waits_marked {empty : Q → Prop} (h : ∀ a ∈ actions.map (Action.marked place eos),
    ∃ q next, a = .pop q next ∧ empty q) : ∀ a ∈ actions, ∃ q next, a = .pop q next ∧ empty q := by
  intro a ha
  obtain ⟨q, next, he, hq⟩ := h _ (List.mem_map_of_mem ha)
  cases a with
  | pop q next' =>
    cases he
    exact ⟨q, next', rfl, hq⟩
  | push | work => cases he

end Marked

/-- No message comes after a mark. -/
def Closing {α : Type*} (l : List (Option α)) : Prop := l.Pairwise fun m _ => m ≠ none

section Closing
variable {α : Type*} {l rest : List (Option α)}

theorem Closing.of_notMem (h : none ∉ l) : Closing l :=
  List.pairwise_of_forall_mem_list fun _ hm _ _ he => h (he ▸ hm)

theorem Closing.snoc (h : none ∉ l) (m : Option α) : Closing (l ++ [m]) := by
  refine List.pairwise_append.mpr
    ⟨Closing.of_notMem h, List.pairwise_singleton _ _, fun a ha _ _ he => ?_⟩
  exact h (he ▸ ha)

theorem Closing.eq_nil (h : Closing (l ++ rest)) (hmark : none ∈ l) : rest = [] := by
  refine List.eq_nil_iff_forall_not_mem.mpr fun m hm => ?_
  exact (List.pairwise_append.mp h).2.2 none hmark m hm rfl

end Closing

def unmarked {α : Type*} (l : List (T × Option α)) : List (T × α) :=
  l.filterMap fun e => e.2.map (Prod.mk e.1)

@[simp] theorem unmarked_snoc_some {α : Type*} (l : List (T × Option α)) (t : T) (m : α) :
    unmarked (l ++ [(t, some m)]) = unmarked l ++ [(t, m)] := List.filterMap_append

@[simp] theorem unmarked_snoc_none {α : Type*} (l : List (T × Option α)) (t : T) :
    unmarked (l ++ [(t, none)]) = unmarked l := by
  rw [unmarked, List.filterMap_append]
  exact List.append_nil _

def State.unmark (place : (t : T) → τ t → σ t) (s : State T (fun q => Option (M q)) τ μ) :
    State T M σ μ :=
  ⟨fun t => place t (s.loc t), fun q => (s.queue q).reduceOption, s.mem,
    fun q => unmarked (s.pushed q), fun q => unmarked (s.popped q)⟩

/-- What the actions of the marked program `P'` are in `P`; `good` are the local states
that it can be in. -/
structure Unmarks (P : Program T M σ μ) (P' : Program T (fun q => Option (M q)) τ μ)
    (place : (t : T) → τ t → σ t) (good : (t : T) → τ t → Prop) : Prop where
  start : ∀ t, place t (P'.start t) = P.start t
  good_start : ∀ t, good t (P'.start t)
  good_pop : ∀ t x q next m, good t x → .pop q next ∈ P'.actions t x → good t (next m)
  good_push : ∀ t x q m next, good t x → .push q m next ∈ P'.actions t x → good t next
  good_work : ∀ t x f mem, good t x → .work f ∈ P'.actions t x → good t (f mem).1
  pop : ∀ t x q next, good t x → .pop q next ∈ P'.actions t x →
    .pop q (fun m => place t (next (some m))) ∈ P.actions t (place t x) ∧
      place t (next none) = place t x
  push : ∀ t x q m next, good t x → .push q (some m) next ∈ P'.actions t x →
    .push q m (place t next) ∈ P.actions t (place t x)
  push_none : ∀ t x q next, good t x → .push q none next ∈ P'.actions t x →
    place t next = place t x
  work : ∀ t x f, good t x → .work f ∈ P'.actions t x →
    .work (fun mem => (place t (f mem).1, (f mem).2)) ∈ P.actions t (place t x) ∨
      ∀ mem, place t (f mem).1 = place t x ∧ (f mem).2 = mem

section Unmark
variable [DecidableEq T] {place : (t : T) → τ t → σ t}
  {s : State T (fun q => Option (M q)) τ μ} {t : T} {q : Q} {x : τ t}

theorem comp_update {ι : Type*} [DecidableEq ι] {A B : ι → Type*} (f : (i : ι) → A i → B i)
    (g : (i : ι) → A i) (i : ι) (v : A i) :
    (fun j => f j (Function.update g i v j)) = Function.update (fun j => f j (g j)) i (f i v) := by
  funext j
  exact Function.apply_update f g i v j

variable [DecidableEq Q]

theorem unmark_pop_some {m : M q} {rest : List (Option (M q))} :
    (s.afterPop t q (some m) rest x).unmark place =
      (s.unmark place).afterPop t q m rest.reduceOption (place t x) := by
  simp only [State.unmark, State.afterPop, comp_update, unmarked_snoc_some]

theorem unmark_pop_none {rest : List (Option (M q))} (hq : s.queue q = none :: rest)
    (hx : place t x = place t (s.loc t)) :
    (s.afterPop t q none rest x).unmark place = s.unmark place := by
  have hrest : rest.reduceOption = (s.queue q).reduceOption := by
    rw [hq, List.reduceOption_cons_of_none]
  simp only [State.unmark, State.afterPop, comp_update, unmarked_snoc_none, hx, hrest,
    Function.update_eq_self]

theorem unmark_push_some {m : M q} : (s.afterPush t q (some m) x).unmark place =
    (s.unmark place).afterPush t q m (place t x) := by
  simp only [State.unmark, State.afterPush, comp_update, unmarked_snoc_some,
    List.reduceOption_append, List.reduceOption_singleton, Option.toList_some]

theorem unmark_push_none (hx : place t x = place t (s.loc t)) :
    (s.afterPush t q none x).unmark place = s.unmark place := by
  simp only [State.unmark, State.afterPush, comp_update, unmarked_snoc_none, hx,
    List.reduceOption_append, List.reduceOption_singleton, Option.toList_none, List.append_nil,
    Function.update_eq_self]

omit [DecidableEq Q] in
theorem unmark_work (r : τ t × μ) : (s.afterWork t r).unmark place =
    (s.unmark place).afterWork t (place t r.1, r.2) := by
  simp only [State.unmark, State.afterWork, comp_update]

end Unmark

namespace Unmarks
variable [DecidableEq T] [DecidableEq Q] {P : Program T M σ μ}
  {P' : Program T (fun q => Option (M q)) τ μ} {place : (t : T) → τ t → σ t}
  {good : (t : T) → τ t → Prop} {s s' : State T (fun q => Option (M q)) τ μ} {mem : μ}

omit [DecidableEq T] [DecidableEq Q] in
/-- The failures of the marked program do nothing without marks. -/
theorem attempts (hP : Unmarks P P' place good) {fixedsize : Q → Bool}
    {failed : (t : T) → τ t → τ t}
    (hfailed : ∀ t x, good t x → (∃ a ∈ P'.actions t x, a.fails fixedsize = true) →
      good t (failed t x) ∧ place t (failed t x) = place t x) :
    Unmarks P (P'.attempts fixedsize failed) place good where
  start := hP.start
  good_start := hP.good_start
  good_pop t x q next m h ha := hP.good_pop t x q next m h (Program.pop_attempts ha)
  good_push t x q m next h ha := hP.good_push t x q m next h (Program.push_attempts ha)
  good_work t x f mem h ha := by
    rcases Program.mem_attempts.mp ha with ha | ⟨hfails, he⟩
    · exact hP.good_work t x f mem h ha
    · cases he
      exact (hfailed t x h hfails).1
  pop t x q next h ha := hP.pop t x q next h (Program.pop_attempts ha)
  push t x q m next h ha := hP.push t x q m next h (Program.push_attempts ha)
  push_none t x q next h ha := hP.push_none t x q next h (Program.push_attempts ha)
  work t x f h ha := by
    rcases Program.mem_attempts.mp ha with ha | ⟨hfails, he⟩
    · exact hP.work t x f h ha
    · cases he
      exact .inr fun mem => ⟨(hfailed t x h hfails).2, rfl⟩

theorem good_step (hP : Unmarks P P' place good) (hstep : P'.Step s s')
    (h : ∀ t, good t (s.loc t)) (t : T) : good t (s'.loc t) := by
  have hmove {u : T} {x : τ u} (hx : good u x) : good t (Function.update s.loc u x t) := by
    by_cases htu : t = u
    · subst htu
      rwa [Function.update_self]
    · rw [Function.update_of_ne htu]
      exact h t
  cases hstep with
  | pop u q next m rest ha hq => exact hmove (hP.good_pop u _ q next m (h u) ha)
  | push u q m next ha => exact hmove (hP.good_push u _ q m next (h u) ha)
  | work u f ha => exact hmove (hP.good_work u _ f s.mem (h u) ha)

/-- A step is one without marks, or only moves marks. -/
theorem unmark_step (hP : Unmarks P P' place good) (hstep : P'.Step s s')
    (h : ∀ t, good t (s.loc t)) :
    P.Step (s.unmark place) (s'.unmark place) ∨ s'.unmark place = s.unmark place := by
  cases hstep with
  | pop t q next m rest ha hq =>
    obtain ⟨hpop, hnone⟩ := hP.pop t _ q next (h t) ha
    cases m with
    | none => exact .inr (unmark_pop_none hq hnone)
    | some m =>
      rw [unmark_pop_some]
      refine .inl (.pop (s.unmark place) t q (fun m => place t (next (some m))) m _ hpop ?_)
      simp only [State.unmark, hq, List.reduceOption_cons_of_some]
  | push t q m next ha =>
    cases m with
    | none => exact .inr (unmark_push_none (hP.push_none t _ q next (h t) ha))
    | some m =>
      rw [unmark_push_some]
      exact .inl (.push _ t q m _ (hP.push t _ q m next (h t) ha))
  | work t f ha =>
    rw [unmark_work]
    rcases hP.work t _ f (h t) ha with hwork | hidle
    · exact .inl (.work (s.unmark place) t _ hwork)
    · obtain ⟨hplace, hmem⟩ := hidle s.mem
      right
      simp only [State.unmark, State.afterWork, hplace, hmem, Function.update_eq_self]

theorem good_reachable (hP : Unmarks P P' place good) (h : P'.Reachable mem s) :
    ∀ t, good t (s.loc t) := by
  induction h with
  | refl => exact hP.good_start
  | tail _ hstep ih => exact hP.good_step hstep ih

theorem reachable (hP : Unmarks P P' place good) (h : P'.Reachable mem s) :
    P.Reachable mem (s.unmark place) := by
  induction h with
  | refl =>
    have hstart : (P'.initial mem).unmark place = P.initial mem := by
      simp only [Program.initial, State.unmark, hP.start]
      rfl
    rw [hstart]
    exact .refl
  | tail hrun hstep ih =>
    rcases hP.unmark_step hstep (hP.good_reachable hrun) with hact | hsame
    · exact ih.tail hact
    · rwa [hsame]

end Unmarks

end ChannelNetwork
