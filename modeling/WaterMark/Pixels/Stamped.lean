import WaterMark.Pixels.Stamp

/-! # Partly stamped pictures

`StampedOn D` says which bytes a picture holds once exactly the pixels of `D`
are done, whatever order they were done in. The three planes of one pixel never
meet those of another, so one more pixel keeps the relation.
-/

namespace WaterMark.Pixels

/-- The picture `img` arises from `orig` by stamping the pixels of `D` in
planes of `N` pixels. -/
structure StampedOn (ptrMarker orig : Buffer) (N : ℕ) (D : ℕ → Prop) (img : Buffer) : Prop where
  length_eq : img.length = orig.length
  stamped : ∀ p, p < orig.length → p < 3 * N → D (p % N) → Dark ptrMarker (p % N) →
    img[p]?.getD 0 = UInt8.ofNat (pixelValue ptrMarker orig N (p % N))
  kept : ∀ p, (p < 3 * N → D (p % N) → ¬ Dark ptrMarker (p % N)) →
    img[p]?.getD 0 = orig[p]?.getD 0

variable {ptrMarker orig img : Buffer} {N : ℕ} {D E : ℕ → Prop}

theorem plane_position {x : ℕ} (hx : x < N) (p : ℕ) :
    (p < 3 * N ∧ p % N = x) ↔ p = x ∨ p = x + N ∨ p = x + 2 * N := by
  constructor
  · rintro ⟨hp, hmod⟩
    have hdiv : p / N < 3 := Nat.div_lt_of_lt_mul (by omega)
    have hsplit := Nat.div_add_mod p N
    rw [hmod] at hsplit
    interval_cases p / N <;> omega
  · rintro (rfl | rfl | rfl)
    · exact ⟨by omega, Nat.mod_eq_of_lt hx⟩
    · exact ⟨by omega, by rw [Nat.add_mod_right, Nat.mod_eq_of_lt hx]⟩
    · exact ⟨by omega, by rw [Nat.add_mul_mod_self_right, Nat.mod_eq_of_lt hx]⟩

theorem StampedOn.start : StampedOn ptrMarker orig N (fun _ => False) orig :=
  ⟨rfl, fun _ _ _ h => h.elim, fun _ _ => rfl⟩

theorem getElem?_eq_of_getD {b b' : Buffer} {p : ℕ} (hlen : b.length = b'.length)
    (h : p < b.length → b[p]?.getD 0 = b'[p]?.getD 0) : b[p]? = b'[p]? := by
  rcases Nat.lt_or_ge p b.length with hp | hp
  · have hp' : p < b'.length := hlen ▸ hp
    simpa [List.getElem?_eq_getElem hp, List.getElem?_eq_getElem hp'] using h hp
  · rw [List.getElem?_eq_none hp, List.getElem?_eq_none (hlen ▸ hp)]

/-- The bytes are determined by the pixels that are done. -/
theorem StampedOn.unique {img' : Buffer} (h : StampedOn ptrMarker orig N D img)
    (h' : StampedOn ptrMarker orig N E img') (hDE : ∀ x < N, D x ↔ E x) : img = img' := by
  apply List.ext_getElem?
  intro p
  apply getElem?_eq_of_getD (h.length_eq.trans h'.length_eq.symm)
  intro hp
  have hlt : p < orig.length := h.length_eq ▸ hp
  by_cases hd : p < 3 * N ∧ D (p % N) ∧ Dark ptrMarker (p % N)
  · obtain ⟨h3, hD, hdark⟩ := hd
    have hE := (hDE _ (Nat.mod_lt p (by omega))).mp hD
    rw [h.stamped p hlt h3 hD hdark, h'.stamped p hlt h3 hE hdark]
  · have hd' : p < 3 * N → E (p % N) → ¬ Dark ptrMarker (p % N) := fun h3 hE hdark =>
      hd ⟨h3, (hDE _ (Nat.mod_lt p (by omega))).mpr hE, hdark⟩
    rw [h.kept p fun h3 hD hdark => hd ⟨h3, hD, hdark⟩, h'.kept p hd']

theorem StampedOn.congr (h : StampedOn ptrMarker orig N D img) (hDE : ∀ x < N, D x ↔ E x) :
    StampedOn ptrMarker orig N E img where
  length_eq := h.length_eq
  stamped p hp h3 hE := h.stamped p hp h3 ((hDE _ (Nat.mod_lt p (by omega))).mpr hE)
  kept p hk := h.kept p fun h3 hD => hk h3 ((hDE _ (Nat.mod_lt p (by omega))).mp hD)

/-- Each byte is the original one, or the one of any picture with more pixels done. -/
theorem StampedOn.byte_eq {img' : Buffer} (h : StampedOn ptrMarker orig N D img)
    (h' : StampedOn ptrMarker orig N E img') (hDE : ∀ x, D x → E x) (p : ℕ) :
    img[p]? = orig[p]? ∨ img[p]? = img'[p]? := by
  by_cases hd : p < 3 * N ∧ D (p % N) ∧ Dark ptrMarker (p % N)
  · obtain ⟨h3, hD, hdark⟩ := hd
    apply Or.inr
    apply getElem?_eq_of_getD (h.length_eq.trans h'.length_eq.symm)
    intro hp
    have hlt : p < orig.length := h.length_eq ▸ hp
    rw [h.stamped p hlt h3 hD hdark, h'.stamped p hlt h3 (hDE _ hD) hdark]
  · apply Or.inl
    apply getElem?_eq_of_getD h.length_eq
    intro _
    exact h.kept p fun h3 hD hdark => hd ⟨h3, hD, hdark⟩

/-- A pixel that is not done still has its three original bytes. -/
theorem StampedOn.pixelValue_eq (h : StampedOn ptrMarker orig N D img) {x : ℕ} (hx : x < N)
    (hD : ¬ D x) : pixelValue ptrMarker img N x = pixelValue ptrMarker orig N x := by
  have hkept (p : ℕ) (hp : p = x ∨ p = x + N ∨ p = x + 2 * N) :
      img[p]?.getD 0 = orig[p]?.getD 0 := by
    apply h.kept
    intro _ hDp
    rw [((plane_position hx p).mpr hp).2] at hDp
    exact absurd hDp hD
  simp only [pixelValue, hkept x (by simp), hkept (x + N) (by simp), hkept (x + 2 * N) (by simp)]

@[simp] theorem length_setPixel (img : Buffer) (N x v : ℕ) :
    (setPixel img N x v).length = img.length := by
  simp [setPixel]

theorem getElem?_setPixel_of_ne {x p : ℕ} (v : ℕ) (h : p ≠ x ∧ p ≠ x + N ∧ p ≠ x + 2 * N) :
    (setPixel img N x v)[p]? = img[p]? := by
  obtain ⟨hr, hg, hb⟩ := h
  simp only [setPixel, List.getElem?_set_ne (Ne.symm hr), List.getElem?_set_ne (Ne.symm hg),
    List.getElem?_set_ne (Ne.symm hb)]

theorem getElem?_setPixel_of_mem {x p : ℕ} (v : ℕ) (h : p = x ∨ p = x + N ∨ p = x + 2 * N)
    (hp : p < img.length) : (setPixel img N x v)[p]?.getD 0 = UInt8.ofNat v := by
  rcases h with rfl | rfl | rfl <;> simp only [setPixel, List.getElem?_set, List.length_set] <;>
    split_ifs <;> simp_all

theorem StampedOn.write (h : StampedOn ptrMarker orig N D img) {x : ℕ} (hx : x < N)
    (hdark : Dark ptrMarker x) :
    StampedOn ptrMarker orig N (fun y => D y ∨ y = x)
      (setPixel img N x (pixelValue ptrMarker orig N x)) where
  length_eq := by rw [length_setPixel, h.length_eq]
  stamped p hp h3 hD hd := by
    by_cases hpx : p % N = x
    · rw [getElem?_setPixel_of_mem _ ((plane_position hx p).mp ⟨h3, hpx⟩)
        (h.length_eq ▸ hp), hpx]
    · have hne : p ≠ x ∧ p ≠ x + N ∧ p ≠ x + 2 * N := by
        have := (plane_position hx p).not.mp (fun hc => hpx hc.2)
        simpa only [not_or] using this
      rw [getElem?_setPixel_of_ne _ hne]
      exact h.stamped p hp h3 (hD.resolve_right hpx) hd
  kept p hk := by
    have hne : p ≠ x ∧ p ≠ x + N ∧ p ≠ x + 2 * N := by
      have := (plane_position hx p).not.mp fun hc =>
        hk hc.1 (Or.inr hc.2) (hc.2 ▸ hdark)
      simpa only [not_or] using this
    rw [getElem?_setPixel_of_ne _ hne]
    exact h.kept p fun h3 hD => hk h3 (Or.inl hD)

theorem StampedOn.skip (h : StampedOn ptrMarker orig N D img) {x : ℕ}
    (hdark : ¬ Dark ptrMarker x) : StampedOn ptrMarker orig N (fun y => D y ∨ y = x) img where
  length_eq := h.length_eq
  stamped p hp h3 hD hd := by
    refine h.stamped p hp h3 (hD.resolve_right fun hpx => ?_) hd
    rw [hpx] at hd
    exact hdark hd
  kept p hk := h.kept p fun h3 hD => hk h3 (Or.inl hD)

/-- The loop over the first `n` pixels of a picture does exactly these. -/
theorem stampedOn_stampLoop (ptrMarker img : Buffer) {N n : ℕ} (hn : n ≤ N) :
    StampedOn ptrMarker img N (· < n) (((stampLoop ptrMarker N 0 n).run ⟨img, []⟩).2).img := by
  induction n with
  | zero => exact StampedOn.start.congr fun x _ => by simp
  | succ n ih =>
    have ih := ih (by omega)
    have hn' : ¬ n < n := lt_irrefl n
    simp only [stampLoop_succ]
    split_ifs with hd
    · rw [ih.pixelValue_eq (by omega) hn']
      exact (ih.write (by omega) hd).congr fun x _ => by omega
    · exact (ih.skip hd).congr fun x _ => by omega

theorem stampedOn_seqLoop (ptrMark img : Buffer) (heightMark widthMark : ℕ) :
    StampedOn ptrMark img (heightMark * widthMark) (fun _ => True)
      (seqLoop ptrMark heightMark widthMark img).img := by
  have h := stampedOn_stampLoop ptrMark img (le_refl (heightMark * widthMark))
  have hN : (heightMark : ℤ) * widthMark = ((heightMark * widthMark : ℕ) : ℤ) := by push_cast; rfl
  simp only [seqLoop, hN, Int.toNat_natCast]
  exact h.congr fun x hx => by simpa using hx

end WaterMark.Pixels
