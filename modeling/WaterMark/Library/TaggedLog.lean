import Mathlib.Data.List.Infix
import Mathlib.Algebra.BigOperators.Group.Finset.Piecewise

/-! # Logs whose entries carry the party that made them

A log of a shared queue is a list of pairs of a party and a value. Its
projection to one party keeps that party's values in their order; the log is
an interleaving of its projections.
-/

namespace TaggedLog

variable {τ α : Type*} [DecidableEq τ]

def entries (t : τ) (l : List (τ × α)) : List α :=
  l.filterMap fun p => if p.1 = t then some p.2 else none

@[simp] theorem entries_nil (t : τ) : entries t ([] : List (τ × α)) = [] := rfl

@[simp] theorem entries_append (t : τ) (k l : List (τ × α)) :
    entries t (k ++ l) = entries t k ++ entries t l :=
  List.filterMap_append

@[simp] theorem entries_single_self (t : τ) (a : α) : entries t [(t, a)] = [a] := by
  simp [entries]

theorem entries_single_ne {t u : τ} (a : α) (h : u ≠ t) : entries t [(u, a)] = [] := by
  simp [entries, h]

@[simp] theorem entries_map_self (t : τ) (l : List α) : entries t (l.map fun a => (t, a)) = l := by
  simp [entries, List.filterMap_map]

theorem entries_map_ne {t u : τ} (l : List α) (h : u ≠ t) :
    entries t (l.map fun a => (u, a)) = [] := by
  simp [entries, h]

theorem mem_entries {t : τ} {l : List (τ × α)} {a : α} : a ∈ entries t l ↔ (t, a) ∈ l := by
  simp only [entries, List.mem_filterMap, Option.ite_none_right_eq_some, Option.some.injEq]
  constructor
  · rintro ⟨⟨u, b⟩, hp, rfl, rfl⟩
    exact hp
  · intro h
    exact ⟨(t, a), h, rfl, rfl⟩

theorem entries_mono (t : τ) {k l : List (τ × α)} (h : k <+: l) :
    entries t k <+: entries t l := by
  obtain ⟨r, rfl⟩ := h
  exact ⟨entries t r, (entries_append t k r).symm⟩

theorem entries_eq_map {t : τ} {l : List (τ × α)} (h : ∀ p ∈ l, p.1 = t) :
    entries t l = l.map Prod.snd := by
  induction l with
  | nil => rfl
  | cons p l ih =>
    have hp : p.1 = t := h p (by simp)
    rw [List.map_cons, ← ih (fun r hr => h r (by simp [hr]))]
    simp [entries, hp]

omit [DecidableEq τ] in
/-- A value that is logged at most once is logged by one party at most. -/
theorem tag_unique {t u : τ} {l : List (τ × α)} [BEq α] [LawfulBEq α] {a : α}
    (h : (l.map Prod.snd).count a ≤ 1) (ht : (t, a) ∈ l) (hu : (u, a) ∈ l) : t = u := by
  rcases List.append_of_mem ht with ⟨x, y, rfl⟩
  rw [List.map_append, List.map_cons, List.count_append, List.count_cons_self] at h
  have hnot (z : List (τ × α)) (hz : (z.map Prod.snd).count a = 0) : (u, a) ∉ z := fun hmem =>
    List.count_eq_zero.mp hz (List.mem_map.mpr ⟨_, hmem, rfl⟩)
  rcases List.mem_append.mp hu with hu | hu
  · exact absurd hu (hnot x (by omega))
  · rcases List.mem_cons.mp hu with hu | hu
    · exact (congrArg Prod.fst hu).symm
    · exact absurd hu (hnot y (by omega))

/-- A value is counted once for each party that logged it. -/
theorem countP_eq_sum (S : Finset τ) (p : α → Bool) {l : List (τ × α)} (h : ∀ e ∈ l, e.1 ∈ S) :
    (l.map Prod.snd).countP p = ∑ t ∈ S, (entries t l).countP p := by
  induction l with
  | nil => simp
  | cons e l ih =>
    have he : e.1 ∈ S := h e (by simp)
    have hsplit (t : τ) : (entries t (e :: l)).countP p =
        (if t = e.1 then (if p e.2 then 1 else 0) else 0) + (entries t l).countP p := by
      rw [← List.singleton_append, entries_append, List.countP_append]
      by_cases ht : t = e.1
      · subst ht
        simp [entries, List.countP_cons]
      · simp [entries_single_ne (t := t) (u := e.1) e.2 (Ne.symm ht), ht]
    simp only [hsplit, Finset.sum_add_distrib, Finset.sum_ite_eq', he, if_true]
    rw [List.map_cons, List.countP_cons, ih (fun r hr => h r (by simp [hr])), add_comm]

theorem count_filterMap_eq_sum {γ : Type*} [DecidableEq γ] (S : Finset τ) (f : α → Option γ)
    {l : List (τ × α)} (h : ∀ e ∈ l, e.1 ∈ S) (a : γ) :
    ((l.map Prod.snd).filterMap f).count a = ∑ t ∈ S, ((entries t l).filterMap f).count a := by
  simp only [List.count_filterMap]
  exact countP_eq_sum S _ h

/-- A prefix that already holds every party's entries is the whole log. -/
theorem eq_of_covers {k l : List (τ × α)} (h : k <+: l)
    (hall : ∀ t, (entries t l).length ≤ (entries t k).length) : k = l := by
  obtain ⟨r, rfl⟩ := h
  cases r with
  | nil => simp
  | cons e r =>
    have hlen := hall e.1
    rw [entries_append, ← List.singleton_append, entries_append, entries_single_self] at hlen
    simp only [List.length_append, List.length_singleton] at hlen
    omega

section
variable {t : τ} {l : List (τ × α)}

theorem entries_eq_nil (h : ∀ e ∈ l, e.1 ≠ t) : entries t l = [] := by
  apply List.eq_nil_iff_forall_not_mem.mpr
  intro a ha
  exact h _ (mem_entries.mp ha) rfl

theorem entries_flatMap {β : Type*} (f : β → List (τ × α)) (bs : List β) :
    entries t (bs.flatMap f) = bs.flatMap fun b => entries t (f b) := by
  simp [entries, List.filterMap_flatMap]

/-- What only one party contributes to can be read off its own entries. -/
theorem filterMap_entries {γ : Type*} {f : α → Option γ} (h : ∀ e ∈ l, e.1 ≠ t → f e.2 = none) :
    (l.map Prod.snd).filterMap f = (entries t l).filterMap f := by
  induction l with
  | nil => rfl
  | cons e l ih =>
    have ih := ih fun e' he' => h e' (List.mem_cons_of_mem e he')
    rw [List.map_cons, ← List.singleton_append, ← List.singleton_append (x := e), entries_append,
      List.filterMap_append, List.filterMap_append, ih]
    congr 1
    by_cases he : e.1 = t
    · subst he
      rw [entries_single_self]
    · rw [entries_single_ne _ he]
      simp [h e List.mem_cons_self he]

theorem entries_map {β : Type*} (tag : β → τ) (value : β → α) (bs : List β) :
    entries t (bs.map fun b => (tag b, value b)) = (bs.filter fun b => tag b = t).map value := by
  induction bs with
  | nil => rfl
  | cons b bs ih =>
    rw [List.map_cons, ← List.singleton_append, entries_append, ih, List.filter_cons]
    by_cases hb : tag b = t
    · subst hb
      simp
    · rw [entries_single_ne _ hb]
      simp [hb]

theorem entries_sublist (t : τ) (l : List (τ × α)) : (entries t l).Sublist (l.map Prod.snd) := by
  have h : entries t l = (l.filter fun e => e.1 = t).map Prod.snd := by
    simpa using entries_map (t := t) Prod.fst Prod.snd l
  rw [h]
  exact List.filter_sublist.map Prod.snd

theorem entries_range {tag : ℕ → τ} {value : ℕ → α} {k : ℕ} (n : ℕ)
    (h : ∀ i < n, tag i = t ↔ i = k) :
    entries t ((List.range n).map fun i => (tag i, value i)) =
      if k < n then [value k] else [] := by
  induction n with
  | zero => rfl
  | succ n ih =>
    have ih := ih fun i hi => h i (by omega)
    rw [List.range_succ, List.map_append, entries_append, ih, List.map_singleton]
    by_cases hn : n = k
    · subst hn
      rw [(h n (by omega)).mpr rfl]
      simp
    · rw [entries_single_ne _ fun hc => hn ((h n (by omega)).mp hc), List.append_nil]
      split_ifs <;> first | rfl | omega

end

theorem entries_broadcast {nw k : ℕ} (hk : k < nw) (as : List α) :
    entries k (as.flatMap fun a => (List.range nw).map fun i => (i, a)) = as := by
  have hround (a : α) : entries k ((List.range nw).map fun i => (i, a)) = [a] := by
    rw [entries_range nw fun i _ => Iff.rfl, if_pos hk]
  rw [entries_flatMap]
  simp only [hround, List.flatMap_singleton']

/-! ## Logs in which every entry has its causes before it -/

section
variable {β : Type*}

/-- Every entry of the log stands in the relation `J` to the entries before it. -/
def Justified (J : List β → β → Prop) (log : List β) : Prop :=
  ∀ before b after, log = before ++ b :: after → J before b

variable {J : List β → β → Prop} {log : List β}

theorem Justified.nil : Justified J [] := by
  intro before b after h
  simp at h

theorem Justified.singleton {b : β} (h : J [] b) : Justified J [b] := by
  intro before b' after he
  cases before with
  | nil =>
    cases he
    exact h
  | cons c before => simp at he

theorem Justified.imp {K : List β → β → Prop} (h : Justified J log)
    (hJK : ∀ before b, J before b → K before b) : Justified K log :=
  fun before b after he => hJK before b (h before b after he)

theorem Justified.append {new : List β} (h : Justified J log)
    (hnew : Justified (fun before b => J (log ++ before) b) new) : Justified J (log ++ new) := by
  intro before b after he
  rcases List.append_eq_append_iff.mp he with ⟨mid, hbefore, hmid⟩ | ⟨mid, hlog, hmid⟩
  · rw [hbefore]
    exact hnew mid b after hmid
  · cases mid with
    | nil =>
      rw [List.append_nil] at hlog
      subst hlog
      simpa using hnew [] b after hmid.symm
    | cons c mid =>
      rw [List.cons_append, List.cons.injEq] at hmid
      rcases hmid with ⟨rfl, rfl⟩
      exact h before b mid hlog

theorem Justified.of_all (h : ∀ before, ∀ b ∈ log, J before b) : Justified J log := by
  intro before b after he
  apply h
  simp [he]

end

end TaggedLog
