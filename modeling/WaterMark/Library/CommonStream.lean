import WaterMark.Library.TaggedLog

/-! # Logs that merge copies of one stream

Several parties each write the same stream, every one at its own speed, into
one log. At each moment the log is an interleaving of prefixes of the stream,
and counting a value of the log tells how many parties have passed it.
-/

namespace TaggedLog

variable {τ α : Type*} [DecidableEq τ]

/-- The log interleaves prefixes of `stream`, one for each party in `S`. -/
structure MergesPrefixes (S : Finset τ) (stream : List α) (log : List (τ × α)) : Prop where
  tags : ∀ e ∈ log, e.1 ∈ S
  prefixes : ∀ t ∈ S, entries t log <+: stream

def progress (log : List (τ × α)) (t : τ) : ℕ := (entries t log).length

variable {S : Finset τ} {stream : List α} {log : List (τ × α)}

theorem progress_snoc_self (log : List (τ × α)) (t : τ) (a : α) :
    progress (log ++ [(t, a)]) t = progress log t + 1 := by
  simp [progress]

theorem progress_snoc_ne (log : List (τ × α)) {t u : τ} (a : α) (h : u ≠ t) :
    progress (log ++ [(t, a)]) u = progress log u := by
  simp [progress, entries_single_ne a (Ne.symm h)]

theorem progress_mono {k : List (τ × α)} (h : k <+: log) (t : τ) : progress k t ≤ progress log t :=
  (entries_mono t h).length_le

theorem countP_take_of_unique (p : α → Bool) {k : ℕ}
    (hp : ∀ j (hj : j < stream.length), p stream[j] = true ↔ j = k) (hk : k < stream.length)
    (n : ℕ) : (stream.take n).countP p = if k < n then 1 else 0 := by
  induction n with
  | zero => simp
  | succ n ih =>
    rcases lt_or_ge n stream.length with hn | hn
    · rw [List.take_succ_eq_append_getElem hn, List.countP_append, ih, List.countP_singleton]
      simp only [hp n hn]
      split_ifs <;> omega
    · rw [List.take_of_length_le (by omega), ← List.take_of_length_le hn, ih]
      simp only [show k < n by omega, show k < n + 1 by omega, if_true]

namespace MergesPrefixes

theorem restrict (h : MergesPrefixes S stream log) {k : List (τ × α)} (hk : k <+: log) :
    MergesPrefixes S stream k where
  tags e he := h.tags e (hk.subset he)
  prefixes t ht := (entries_mono t hk).trans (h.prefixes t ht)

theorem mem_stream (h : MergesPrefixes S stream log) {e : τ × α} (he : e ∈ log) : e.2 ∈ stream :=
  (h.prefixes e.1 (h.tags e he)).subset (mem_entries.mpr he)

theorem progress_le (h : MergesPrefixes S stream log) {t : τ} (ht : t ∈ S) :
    progress log t ≤ stream.length :=
  (h.prefixes t ht).length_le

theorem entries_eq_take (h : MergesPrefixes S stream log) {t : τ} (ht : t ∈ S) :
    entries t log = stream.take (progress log t) :=
  List.prefix_iff_eq_take.mp (h.prefixes t ht)

/-- The newest entry of a log is the next value of its party's stream. -/
theorem snoc_get {t : τ} {a : α} (h : MergesPrefixes S stream (log ++ [(t, a)])) :
    t ∈ S ∧ stream[progress log t]? = some a := by
  have ht : t ∈ S := h.tags (t, a) (by simp)
  apply And.intro ht
  obtain ⟨r, hr⟩ := h.prefixes t ht
  rw [entries_append, entries_single_self] at hr
  rw [← hr, progress]
  simp

/-- A value that the stream holds at one place only is logged once by each
party that has passed the place. -/
theorem countP_eq_card (h : MergesPrefixes S stream log) (p : α → Bool) {k : ℕ}
    (hp : ∀ j (hj : j < stream.length), p stream[j] = true ↔ j = k) (hk : k < stream.length) :
    (log.map Prod.snd).countP p = (S.filter fun t => k < progress log t).card := by
  rw [countP_eq_sum S p h.tags, Finset.card_filter]
  apply Finset.sum_congr rfl
  intro t ht
  rw [h.entries_eq_take ht]
  exact countP_take_of_unique p hp hk _

theorem all_passed (h : MergesPrefixes S stream log) (p : α → Bool) {k : ℕ}
    (hp : ∀ j (hj : j < stream.length), p stream[j] = true ↔ j = k) (hk : k < stream.length) :
    (log.map Prod.snd).countP p = S.card ↔ ∀ t ∈ S, k < progress log t := by
  rw [h.countP_eq_card p hp hk, Finset.card_filter_eq_iff]

/-- A prefix of the log in which every party has come to the end of its stream
is the whole log. -/
theorem eq_of_full (h : MergesPrefixes S stream log) {k : List (τ × α)} (hk : k <+: log)
    (hfull : ∀ t ∈ S, stream.length ≤ progress k t) : k = log := by
  apply eq_of_covers hk
  intro t
  by_cases ht : t ∈ S
  · exact (h.progress_le ht).trans (hfull t ht)
  · have hnil : entries t log = [] := List.eq_nil_iff_forall_not_mem.mpr fun a ha =>
      ht (h.tags _ (mem_entries.mp ha))
    simp [hnil]

end MergesPrefixes

end TaggedLog
