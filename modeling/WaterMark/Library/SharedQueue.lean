import Mathlib.Algebra.Group.Action.Defs
import Mathlib.Algebra.Order.BigOperators.Group.Finset
import WaterMark.Library.TaggedLog

/-! # Queues with several readers or several writers

A queue carries messages and, after them, one end marker for each of its readers,
which compete for what is in the queue. A reader that has taken a marker stops.
Once nothing is left, every reader has taken exactly one marker. In the other
direction, a queue whose writers all end with a marker is read to its end by
whoever counts the markers.
-/

namespace SharedQueue
open TaggedLog

variable {τ α : Type*}

/-- What the readers `S` have taken so far of the messages and of the markers. -/
structure Taken (S : Finset τ) (msgs : List α) (last : α) (log : List (τ × α)) : Prop where
  readers : ∀ e ∈ log, e.1 ∈ S
  le : log.map Prod.snd <+: msgs ++ List.replicate S.card last

variable {S : Finset τ} {msgs : List α} {last : α} {log : List (τ × α)}

namespace Taken

theorem countP_le (h : Taken S msgs last log) {p : α → Bool} (hp : p last = false) :
    (log.map Prod.snd).countP p ≤ msgs.countP p := by
  have hle := h.le.sublist.countP_le (p := p)
  rwa [List.countP_append, List.countP_replicate, hp, if_neg Bool.false_ne_true,
    Nat.add_zero] at hle

variable [BEq α] [LawfulBEq α]

theorem count_le (h : Taken S msgs last log) {a : α} (ha : a ≠ last) :
    (log.map Prod.snd).count a ≤ msgs.count a :=
  h.countP_le (by simpa using ha.symm)

omit [BEq α] [LawfulBEq α] in
theorem mem_msgs (h : Taken S msgs last log) {t : τ} {a : α} (hmem : (t, a) ∈ log)
    (ha : a ≠ last) : a ∈ msgs := by
  rcases List.mem_append.mp (h.le.subset (List.mem_map.mpr ⟨_, hmem, rfl⟩)) with hmsg | hmarker
  · exact hmsg
  · exact absurd (List.eq_of_mem_replicate hmarker) ha

/-- Of distinct messages each has one reader. -/
theorem reader_unique (h : Taken S msgs last log) (hmsgs : msgs.Nodup) {a : α} (ha : a ≠ last)
    {t u : τ} (ht : (t, a) ∈ log) (hu : (u, a) ∈ log) : t = u :=
  tag_unique ((h.count_le ha).trans (List.nodup_iff_count_le_one.mp hmsgs a)) ht hu

/-- A prefix with all markers is everything, since the markers come last. -/
theorem eq_of_count (h : Taken S msgs last log) (hS : S.Nonempty) (hlast : last ∉ msgs)
    (hcount : S.card ≤ (log.map Prod.snd).count last) :
    log.map Prod.snd = msgs ++ List.replicate S.card last := by
  apply h.le.eq_of_length_le
  have hpos := hS.card_pos
  have htake := List.prefix_iff_eq_take.mp h.le
  rw [htake, List.take_append, List.count_append, List.take_replicate, List.count_replicate_self,
    List.count_eq_zero_of_not_mem fun hmem => hlast (List.mem_of_mem_take hmem)] at hcount
  rw [List.length_append, List.length_replicate]
  omega

variable [DecidableEq τ]

theorem count_entries_le (h : Taken S msgs last log) (hmsgs : msgs.Nodup) {a : α} (ha : a ≠ last)
    (t : τ) : (entries t log).count a ≤ 1 :=
  calc (entries t log).count a
    _ ≤ (log.map Prod.snd).count a := (entries_sublist t log).count_le a
    _ ≤ msgs.count a := h.count_le ha
    _ ≤ 1 := List.nodup_iff_count_le_one.mp hmsgs a

omit [LawfulBEq α] in
theorem count_eq_sum (h : Taken S msgs last log) (a : α) :
    (log.map Prod.snd).count a = ∑ t ∈ S, (entries t log).count a :=
  countP_eq_sum S _ h.readers

/-! ## The markers -/

/-- When each reader has its marker, nothing is left. -/
theorem eq_of_markers (h : Taken S msgs last log) (hS : S.Nonempty) (hlast : last ∉ msgs)
    (hall : ∀ t ∈ S, 1 ≤ (entries t log).count last) :
    log.map Prod.snd = msgs ++ List.replicate S.card last := by
  apply h.eq_of_count hS hlast
  rw [h.count_eq_sum, Finset.card_eq_sum_ones]
  exact Finset.sum_le_sum hall

/-- When nothing is left and no reader has two markers, each reader has one. -/
theorem marker_of_eq (h : Taken S msgs last log)
    (hall : log.map Prod.snd = msgs ++ List.replicate S.card last)
    (hone : ∀ t ∈ S, (entries t log).count last ≤ 1) :
    ∀ t ∈ S, (entries t log).count last = 1 := by
  apply (Finset.sum_eq_sum_iff_of_le hone).mp
  apply le_antisymm (Finset.sum_le_sum hone)
  rw [← h.count_eq_sum, hall, List.count_append, List.count_replicate_self,
    ← Finset.card_eq_sum_ones]
  exact Nat.le_add_left _ _

/-! ## What the readers have dealt with -/

section
variable {done : τ → List α} {all : List α}

theorem subperm (h : Taken S msgs last log) (hdone : ∀ t ∈ S, (done t).Sublist (entries t log))
    (hlast : last ∉ all) (hall : ∀ a, all.count a = ∑ t ∈ S, (done t).count a) :
    all.Subperm msgs := by
  apply List.subperm_ext_iff.mpr
  intro a ha
  have hne : a ≠ last := fun he => hlast (he ▸ ha)
  calc all.count a
    _ = ∑ t ∈ S, (done t).count a := hall a
    _ ≤ ∑ t ∈ S, (entries t log).count a :=
      Finset.sum_le_sum fun t ht => (hdone t ht).count_le a
    _ = (log.map Prod.snd).count a := (h.count_eq_sum a).symm
    _ ≤ msgs.count a := h.count_le hne

/-- Readers that have dealt with all they took before their markers have dealt
with all messages. -/
theorem perm (h : Taken S msgs last log)
    (heq : log.map Prod.snd = msgs ++ List.replicate S.card last)
    (hdone : ∀ t ∈ S, entries t log = done t ++ [last])
    (hall : ∀ a, all.count a = ∑ t ∈ S, (done t).count a) : all.Perm msgs := by
  apply List.perm_iff_count.mpr
  intro a
  have hsum := h.count_eq_sum a
  rw [heq, List.count_append, Finset.sum_congr rfl fun t ht => congrArg (List.count a) (hdone t ht)]
    at hsum
  simp only [List.count_append, Finset.sum_add_distrib, Finset.sum_const, smul_eq_mul, ← hall,
    List.count_replicate, List.count_singleton] at hsum
  split_ifs at hsum <;> omega

end

end Taken

theorem mem_of_countP_le {k l : List α} (h : k.Subperm l) {p : α → Bool}
    (hcount : l.countP p ≤ k.countP p) {a : α} (ha : a ∈ l) (hp : p a = true) : a ∈ k := by
  rw [List.countP_eq_length_filter, List.countP_eq_length_filter] at hcount
  have hperm := (h.filter p).perm_of_length_le hcount
  exact List.mem_of_mem_filter (hperm.mem_iff.mpr (List.mem_filter.mpr ⟨ha, hp⟩))

theorem subperm_map {β : Type*} (f : α → β) {k l : List α} (h : k.Subperm l) :
    (k.map f).Subperm (l.map f) := by
  obtain ⟨x, hx, hxl⟩ := h
  exact ⟨x.map f, hx.map f, hxl.map f⟩

/-! ## Several writers -/

/-- Where every writer ends with a marker, a reader that has seen as many markers
as there are writers has seen all. -/
theorem eq_of_markers_seen [DecidableEq τ] {k l : List (τ × α)} {p : α → Bool} (h : k <+: l)
    (hwriters : ∀ e ∈ l, e.1 ∈ S)
    (hend : ∀ t ∈ S, ∃ x a, entries t l = x ++ [a] ∧ ∀ b ∈ x, p b = false)
    (hseen : S.card ≤ (k.map Prod.snd).countP p) : k = l := by
  have hcases (t : τ) (ht : t ∈ S) : entries t k = entries t l ∧ (entries t k).countP p ≤ 1 ∨
      (entries t k).countP p = 0 := by
    obtain ⟨x, a, hx, hp⟩ := hend t ht
    have hzero {y : List α} (hy : y <+: x) : y.countP p = 0 :=
      List.countP_eq_zero.mpr fun b hb => by simp [hp b (hy.subset hb)]
    have hpre := entries_mono t h
    rw [hx] at hpre ⊢
    rcases List.prefix_concat_iff.mp hpre with heq | hle
    · refine Or.inl ⟨heq, ?_⟩
      rw [heq, List.countP_append, hzero List.prefix_rfl, Nat.zero_add]
      exact List.countP_le_length
    · exact Or.inr (hzero hle)
  have hone (t : τ) (ht : t ∈ S) : (entries t k).countP p ≤ 1 := by
    rcases hcases t ht with ⟨-, hle⟩ | hzero <;> omega
  rw [countP_eq_sum S p fun e he => hwriters e (h.subset he), Finset.card_eq_sum_ones] at hseen
  have hall := (Finset.sum_eq_sum_iff_of_le hone).mp (le_antisymm (Finset.sum_le_sum hone) hseen)
  apply eq_of_covers h
  intro t
  by_cases ht : t ∈ S
  · rcases hcases t ht with ⟨heq, -⟩ | hzero
    · rw [heq]
    · have hmarker := hall t ht
      omega
  · have hnone : ∀ e ∈ l, e.1 ≠ t := fun e he hte => ht (hte ▸ hwriters e he)
    rw [entries_eq_nil hnone]
    exact Nat.zero_le _

end SharedQueue
