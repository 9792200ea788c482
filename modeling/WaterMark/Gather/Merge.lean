import WaterMark.Gather.Pool
import WaterMark.Library.CommonStream

/-! # A gather fed by workers that see the same images

Each worker of a map sends one result for each image of the map, in stream
order, and then its end of stream. However the results of the workers are
interleaved, the gather completes the images in stream order, each with the
result of the slowest worker.
-/

namespace WaterMark.Gather
open TaggedLog

def eos : Result := (0, NULL)

/-- The results of one worker: proper pointers under distinct numbers. -/
structure ResultStream (R : List Result) : Prop where
  ne_null : ∀ r ∈ R, r.2 ≠ NULL
  inj : ∀ j k (hj : j < R.length) (hk : k < R.length), R[j].1 = R[k].1 → j = k

def resultOf (st : ImageStream) (j : ℕ) : Result := (j, st.img j)

theorem resultStream_map (st : ImageStream) {js : List ℕ} (hnodup : js.Nodup)
    (hjs : ∀ j ∈ js, j < st.size) : ResultStream (js.map (resultOf st)) where
  ne_null r hr := by
    rcases List.mem_map.mp hr with ⟨j, hj, rfl⟩
    exact st.img_ne (hjs j hj)
  inj j k hj hk h := by
    simp only [List.getElem_map, resultOf, Int.natCast_inj] at h
    exact hnodup.getElem_inj_iff.mp h

theorem ResultStream.eq_of_fst {R : List Result} (hR : ResultStream R) {r r' : Result}
    (hr : r ∈ R) (hr' : r' ∈ R) (h : r.1 = r'.1) : r = r' := by
  obtain ⟨j, hj, rfl⟩ := List.getElem_of_mem hr
  obtain ⟨k, hk, rfl⟩ := List.getElem_of_mem hr'
  simp only [hR.inj j k hj hk h]

theorem ResultStream.nodup {R : List Result} (hR : ResultStream R) : R.Nodup := by
  rw [List.nodup_iff_injective_getElem]
  intro j k h
  exact Fin.ext (hR.inj j k j.isLt k.isLt (congrArg Prod.fst h))

variable {τ : Type*} [DecidableEq τ] {S : Finset τ} {R : List Result} {log : List (τ × Result)}

theorem ResultStream.unique (hR : ResultStream R) {k : ℕ} (hk : k < R.length) (j : ℕ)
    (hj : j < (R ++ [eos]).length) : isResultOf R[k].1 (R ++ [eos])[j] = true ↔ j = k := by
  rcases lt_or_ge j R.length with hlt | hge
  · rw [List.getElem_append_left hlt]
    have hne := hR.ne_null _ (List.getElem_mem hlt)
    have hinj : R[j].1 = R[k].1 ↔ j = k := ⟨hR.inj j k hlt hk, fun he => by subst he; rfl⟩
    simp [isResultOf, hne, hinj]
  · have hlen : j = R.length := by simp at hj; omega
    subst hlen
    simp only [isResultOf, List.getElem_append_right (le_refl R.length), Nat.sub_self,
      List.getElem_cons_zero, eos]
    simp
    omega

theorem ResultStream.null_unique (hR : ResultStream R) (j : ℕ) (hj : j < (R ++ [eos]).length) :
    decide ((R ++ [eos])[j].2 = NULL) = true ↔ j = R.length := by
  rcases lt_or_ge j R.length with hlt | hge
  · rw [List.getElem_append_left hlt]
    have hne := hR.ne_null _ (List.getElem_mem hlt)
    simp [hne]
    omega
  · have hlen : j = R.length := by simp at hj; omega
    subst hlen
    simp [eos]

/-- All ends of stream are in exactly when all parties have ended. -/
theorem nullCount_eq_card_iff (hR : ResultStream R) (h : MergesPrefixes S (R ++ [eos]) log) :
    nullCount (log.map Prod.snd) = S.card ↔ ∀ t ∈ S, R.length < progress log t :=
  h.all_passed _ hR.null_unique (by simp)

theorem resultCount_eq_card (hR : ResultStream R) (h : MergesPrefixes S (R ++ [eos]) log) {k : ℕ}
    (hk : k < R.length) : resultCount R[k].1 (log.map Prod.snd) =
      (S.filter fun t => k < progress log t).card :=
  h.countP_eq_card _ (hR.unique hk) (by simp; omega)

/-- The parties ahead of a party `t` are all the others exactly when their number
says so. -/
private theorem ahead_iff {nw : ℕ} (hcard : S.card = nw) {t : τ} (ht : t ∈ S) {k : ℕ}
    (hk : progress log t = k) :
    ((S.filter fun u => k < progress log u).card + 1) % nw = 0 ↔
      ∀ u ∈ S, u ≠ t → k < progress log u := by
  have hsub : (S.filter fun u => k < progress log u) ⊆ S.erase t := fun u hu => by
    rw [Finset.mem_filter] at hu
    exact Finset.mem_erase.mpr ⟨fun he => by rw [he] at hu; omega, hu.1⟩
  have herase := Finset.card_erase_of_mem ht
  have hpos : 0 < S.card := Finset.card_pos.mpr ⟨t, ht⟩
  have hle := Finset.card_le_card hsub
  have hmod : ((S.filter fun u => k < progress log u).card + 1) % nw = 0 ↔
      (S.erase t).card ≤ (S.filter fun u => k < progress log u).card := by
    rcases Nat.lt_or_ge ((S.filter fun u => k < progress log u).card + 1) nw with hlt | hge
    · rw [Nat.mod_eq_of_lt hlt]
      omega
    · have heq : (S.filter fun u => k < progress log u).card + 1 = nw := by omega
      rw [heq, Nat.mod_self]
      omega
  rw [hmod]
  constructor
  · intro hge u hu hne
    have heq := Finset.eq_of_subset_of_card_le hsub hge
    have hmem : u ∈ S.filter fun u => k < progress log u := heq ▸ Finset.mem_erase.mpr ⟨hne, hu⟩
    exact (Finset.mem_filter.mp hmem).2
  · intro hall
    apply Finset.card_le_card
    intro u hu
    obtain ⟨hne, hu⟩ := Finset.mem_erase.mp hu
    exact Finset.mem_filter.mpr ⟨hu, hall u hu hne⟩

/-- The completed images are the first `c` of the stream, where `c` is how far
the slowest worker has come. -/
def Slowest (S : Finset τ) (R : List Result) (log : List (τ × Result)) (c : ℕ) : Prop :=
  c ≤ R.length ∧ (∀ t ∈ S, c ≤ progress log t) ∧ (c = R.length ∨ ∃ t ∈ S, progress log t = c)

private theorem Slowest.eos {t : τ} {c : ℕ} (h : Slowest S R log c)
    (ht : progress log t = R.length) (a : Result) : Slowest S R (log ++ [(t, a)]) c := by
  obtain ⟨hcR, hall, hslow⟩ := h
  refine ⟨hcR, fun u hu => (hall u hu).trans (progress_mono ⟨_, rfl⟩ u), ?_⟩
  rcases hslow with hc | ⟨u, hu, hc⟩
  · exact Or.inl hc
  · by_cases hut : u = t
    · subst hut
      exact Or.inl (hc.symm.trans ht)
    · exact Or.inr ⟨u, hu, by rw [progress_snoc_ne log a hut, hc]⟩

private theorem Slowest.advance {t : τ} {c : ℕ} (h : Slowest S R log c) (ht : t ∈ S)
    (hlt : progress log t < R.length) (hall : ∀ u ∈ S, u ≠ t → progress log t < progress log u)
    (a : Result) : c = progress log t ∧ Slowest S R (log ++ [(t, a)]) (c + 1) := by
  obtain ⟨hcR, hle, hslow⟩ := h
  have hct := hle t ht
  have hc : c = progress log t := by
    rcases hslow with hc | ⟨u, hu, hc⟩
    · omega
    · by_cases hut : u = t
      · rw [← hut, hc]
      · have := hall u hu hut
        omega
  refine ⟨hc, by omega, fun u hu => ?_, Or.inr ⟨t, ht, ?_⟩⟩
  · by_cases hut : u = t
    · rw [hut, progress_snoc_self]
      omega
    · have := hall u hu hut
      rw [progress_snoc_ne log a hut]
      omega
  · rw [progress_snoc_self, hc]

private theorem Slowest.stay {t v : τ} {c : ℕ} (h : Slowest S R log c) (ht : t ∈ S)
    (hlt : progress log t < R.length) (hv : v ∈ S) (hvt : v ≠ t)
    (hvle : progress log v ≤ progress log t) (a : Result) : Slowest S R (log ++ [(t, a)]) c := by
  obtain ⟨hcR, hall, hslow⟩ := h
  refine ⟨hcR, fun u hu => (hall u hu).trans (progress_mono ⟨_, rfl⟩ u), Or.inr ?_⟩
  have hct := hall t ht
  have hcv := hall v hv
  rcases hslow with hc | ⟨u, hu, hc⟩
  · omega
  · by_cases hut : u = t
    · subst hut
      exact ⟨v, hv, by rw [progress_snoc_ne log a hvt]; omega⟩
    · exact ⟨u, hu, by rw [progress_snoc_ne log a hut, hc]⟩

/-- However the workers' results are merged, the gather completes the images in
stream order, as far as the slowest worker has come. -/
theorem collect_merge {nw : ℕ} (hcard : S.card = nw) (hnw : 1 ≤ nw) (hR : ResultStream R)
    (h : MergesPrefixes S (R ++ [eos]) log) :
    ∃ c, Slowest S R log c ∧ (collect nw (log.map Prod.snd)).complete = R.take c := by
  induction log using List.reverseRecOn with
  | nil =>
    obtain ⟨t, ht⟩ := Finset.card_pos.mp (hcard ▸ hnw)
    exact ⟨0, ⟨Nat.zero_le _, fun _ _ => Nat.zero_le _, Or.inr ⟨t, ht, rfl⟩⟩, rfl⟩
  | append_singleton log e ih =>
    obtain ⟨t, a⟩ := e
    have hlog := h.restrict ⟨_, rfl⟩
    obtain ⟨c, hslow, hcomplete⟩ := ih hlog
    obtain ⟨ht, ha⟩ := h.snoc_get
    rw [List.map_append, List.map_cons, List.map_nil, complete_collect_snoc hnw, hcomplete]
    rcases lt_trichotomy (progress log t) R.length with hlt | heq | hgt
    · rw [List.getElem?_append_left hlt, List.getElem?_eq_getElem hlt, Option.some.injEq] at ha
      subst ha
      rw [resultCount_eq_card hR hlog hlt]
      have hahead := ahead_iff hcard ht (rfl : progress log t = progress log t)
      by_cases hall : ∀ u ∈ S, u ≠ t → progress log t < progress log u
      · obtain ⟨hc, hnext⟩ := hslow.advance ht hlt hall R[progress log t]
        refine ⟨c + 1, hnext, ?_⟩
        rw [if_pos ⟨hR.ne_null _ (List.getElem_mem hlt), hahead.mpr hall⟩]
        subst hc
        exact (List.take_succ_eq_append_getElem hlt).symm
      · rw [if_neg fun hc => hall (hahead.mp hc.2)]
        simp only [not_forall, not_lt] at hall
        obtain ⟨v, hv, hvt, hvle⟩ := hall
        exact ⟨c, hslow.stay ht hlt hv hvt hvle _, rfl⟩
    · rw [List.getElem?_append_right heq.ge, heq, Nat.sub_self] at ha
      have hnull : a.2 = NULL := by
        rw [← Option.some.inj ha]
        rfl
      rw [if_neg fun hc => hc.1 hnull]
      exact ⟨c, hslow.eos heq a, rfl⟩
    · rw [List.getElem?_eq_none (by simp; omega)] at ha
      cases ha

/-- Once all workers have ended, every image is complete and nothing is left in
the pool. -/
theorem collect_all {nw : ℕ} (hcard : S.card = nw) (hnw : 1 ≤ nw) (hR : ResultStream R)
    (h : MergesPrefixes S (R ++ [eos]) log) (hend : ∀ t ∈ S, R.length < progress log t) :
    (collect nw (log.map Prod.snd)).complete = R ∧ (collect nw (log.map Prod.snd)).pool = ∅ := by
  obtain ⟨c, ⟨hcR, hall, hslow⟩, hcomplete⟩ := collect_merge hcard hnw hR h
  have hc : c = R.length := by
    rcases hslow with hc | ⟨t, ht, hc⟩
    · exact hc
    · have := hend t ht
      omega
  refine ⟨by rw [hcomplete, hc, List.take_length], (counts_collect hnw _).eq_empty fun k => ?_⟩
  by_cases hk : ∃ i, ∃ hi : i < R.length, R[i].1 = k
  · obtain ⟨i, hi, rfl⟩ := hk
    rw [resultCount_eq_card hR h hi, Finset.filter_true_of_mem fun t ht => by
      have := hend t ht
      omega, hcard, Nat.mod_self]
  · have hzero : resultCount k (log.map Prod.snd) = 0 := by
      rw [resultCount, countP_eq_sum S _ h.tags]
      refine Finset.sum_eq_zero fun t ht => List.countP_eq_zero.mpr fun m hm => ?_
      have hmem := (h.prefixes t ht).subset hm
      rw [List.mem_append, List.mem_singleton] at hmem
      rcases hmem with hmem | rfl
      · obtain ⟨i, hi, rfl⟩ := List.getElem_of_mem hmem
        simp only [isResultOf, Bool.and_eq_true, decide_eq_true_eq, not_and]
        exact fun _ he => hk ⟨i, hi, he⟩
      · simp [isResultOf, eos]
    rw [hzero, Nat.zero_mod]

end WaterMark.Gather
