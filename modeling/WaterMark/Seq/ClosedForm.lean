import Mathlib.Logic.Function.Basic
import WaterMark.Images
import WaterMark.Pixels.Stamped

/-! # The closed form of sequential stamping

The loop of the sequential program in the memory that holds the mark and the
images. It leaves the image of `seqLoop`, and every byte of this image is given
by the mark and the image before the loop.
-/

namespace WaterMark.Seq
open Pixels

/-- `*(ptr + off) = v` in the memory of all pixel arrays. -/
def storeAt (pixels : Ptr → Buffer) (ptr : Ptr) (off : ℤ) (v : ℕ) : Ptr → Buffer :=
  Function.update pixels ptr (store (pixels ptr) off v)

/-- The body of the loop over `x` for the image at `imageData`. -/
def stampAt (ptrMark imageData : Ptr) (pixNmb : ℤ) (pixels : Ptr → Buffer) (x : ℕ) :
    Ptr → Buffer :=
  if (load (pixels ptrMark) x).toNat < 50 then
    let grey := greyValue (load (pixels imageData) x) (load (pixels imageData) (x + pixNmb))
      (load (pixels imageData) (x + pixNmb * 2))
    let avg := avgGreyValue grey (load (pixels ptrMark) x)
    let pixels := storeAt pixels imageData x avg
    let pixels := storeAt pixels imageData (x + pixNmb) avg
    storeAt pixels imageData (x + pixNmb * 2) avg
  else pixels

/-- `for (int x = 0; x < pixNmb; x++)`. -/
def stampImage (ptrMark imageData : Ptr) (heightMark widthMark : ℤ) (pixels : Ptr → Buffer) :
    Ptr → Buffer :=
  let pixNmb := heightMark * widthMark
  (List.range pixNmb.toNat).foldl (stampAt ptrMark imageData pixNmb) pixels

/-! ## The loop on the two arrays -/

variable {ptrMark imageData : Ptr} {pixels : Ptr → Buffer} {N : ℕ}

@[simp] theorem storeAt_self (off : ℤ) (v : ℕ) :
    storeAt pixels imageData off v imageData = store (pixels imageData) off v :=
  Function.update_self ..

theorem storeAt_storeAt (off off' : ℤ) (v v' : ℕ) :
    storeAt (storeAt pixels imageData off v) imageData off' v' =
      Function.update pixels imageData (store (store (pixels imageData) off v) off' v') := by
  rw [storeAt, storeAt_self, storeAt, Function.update_idem]

theorem stampAt_eq (x : ℕ) : stampAt ptrMark imageData N pixels x =
    Function.update pixels imageData
      (if Dark (pixels ptrMark) x then
        setPixel (pixels imageData) N x (pixelValue (pixels ptrMark) (pixels imageData) N x)
      else pixels imageData) := by
  simp only [stampAt, load_lt_iff_dark, mul_comm (N : ℤ) 2, load_pixelValue]
  by_cases hd : Dark (pixels ptrMark) x
  · simp only [if_pos hd]
    rw [storeAt_storeAt, storeAt, Function.update_self, Function.update_idem, store_setPixel]
  · simp only [if_neg hd, Function.update_eq_self]

/-- The loop over the first `n` pixels changes only the image, the mark being
another array, and leaves there what the loop on the image alone leaves. -/
theorem stampAt_foldl (hne : ptrMark ≠ imageData) (n : ℕ) :
    (List.range n).foldl (stampAt ptrMark imageData N) pixels =
      Function.update pixels imageData
        (((stampLoop (pixels ptrMark) N 0 n).run ⟨pixels imageData, []⟩).2).img := by
  induction n with
  | zero => exact (Function.update_eq_self imageData pixels).symm
  | succ n ih =>
    rw [List.range_succ, List.foldl_append, ih, List.foldl_cons, List.foldl_nil, stampAt_eq,
      stampLoop_succ]
    simp only [Function.update_self, Function.update_of_ne hne, Function.update_idem]

theorem stampImage_eq (hne : ptrMark ≠ imageData) (heightMark widthMark : ℕ) :
    stampImage ptrMark imageData heightMark widthMark pixels =
      Function.update pixels imageData
        (seqLoop (pixels ptrMark) heightMark widthMark (pixels imageData)).img := by
  have hN : (heightMark : ℤ) * widthMark = ((heightMark * widthMark : ℕ) : ℤ) := by push_cast; rfl
  simp only [stampImage, seqLoop, hN, Int.toNat_natCast]
  exact stampAt_foldl hne _

/-! ## The bytes of one pixel -/

/-- The mean of three bytes and a dark mark byte is a byte of at most 152. -/
theorem avgGreyValue_le (red green blue : UInt8) {mark : UInt8} (hdark : mark.toNat < 50) :
    avgGreyValue (greyValue red green blue) mark ≤ 152 := by
  have hr := red.toNat_lt
  have hg := green.toNat_lt
  have hb := blue.toNat_lt
  simp only [avgGreyValue, greyValue]
  omega

theorem toNat_ofNat_of_le {v : ℕ} (h : v ≤ 152) : (UInt8.ofNat v).toNat = v := by
  rw [UInt8.toNat_ofNat']
  exact Nat.mod_eq_of_lt (by omega)

/-- Pixel `x` of `img` is the one of `orig`, stamped if the mark is dark there:
its three bytes hold the mean, which fits a byte, or are kept. -/
def ClosedForm (mark orig img : Buffer) (N x : ℕ) : Prop :=
  ∃ m r g b : UInt8, mark[x]? = some m ∧
    orig[x]? = some r ∧ orig[x + N]? = some g ∧ orig[x + 2 * N]? = some b ∧
    (m.toNat < 50 →
      ((r.toNat + g.toNat + b.toNat) / 3 + m.toNat) / 2 ≤ 152 ∧
      ∀ p ∈ [x, x + N, x + 2 * N], img[p]?.map UInt8.toNat =
        some (((r.toNat + g.toNat + b.toNat) / 3 + m.toNat) / 2)) ∧
    (50 ≤ m.toNat → ∀ p ∈ [x, x + N, x + 2 * N], img[p]? = orig[p]?)

theorem closedForm_of_stampedOn {mark orig img : Buffer}
    (hst : StampedOn mark orig N (fun _ => True) img) (hmark : N ≤ mark.length)
    (horig : 3 * N ≤ orig.length) {x : ℕ} (hx : x < N) : ClosedForm mark orig img N x := by
  have hm : x < mark.length := by omega
  have hr : x < orig.length := by omega
  have hg : x + N < orig.length := by omega
  have hb : x + 2 * N < orig.length := by omega
  refine ⟨mark[x], orig[x], orig[x + N], orig[x + 2 * N], List.getElem?_eq_getElem hm,
    List.getElem?_eq_getElem hr, List.getElem?_eq_getElem hg, List.getElem?_eq_getElem hb, ?_, ?_⟩
  · intro hdark
    have hd : Dark mark x := by simpa [Dark, List.getElem?_eq_getElem hm] using hdark
    have hvalue : pixelValue mark orig N x =
        avgGreyValue (greyValue orig[x] orig[x + N] orig[x + 2 * N]) mark[x] := by
      simp [pixelValue, List.getElem?_eq_getElem hm, List.getElem?_eq_getElem hr,
        List.getElem?_eq_getElem hg, List.getElem?_eq_getElem hb]
    have hle := avgGreyValue_le orig[x] orig[x + N] orig[x + 2 * N] hdark
    apply And.intro hle
    intro p hp
    obtain ⟨h3, hmod⟩ := (plane_position hx p).mpr (by simpa using hp)
    have himg : p < img.length := by rw [hst.length_eq]; omega
    have hbyte := hst.stamped p (by omega) h3 trivial (hmod ▸ hd)
    rw [List.getElem?_eq_getElem himg, Option.getD_some, hmod, hvalue] at hbyte
    rw [List.getElem?_eq_getElem himg, hbyte, Option.map_some, toNat_ofNat_of_le hle]
    rfl
  · intro hlight p hp
    obtain ⟨-, hmod⟩ := (plane_position hx p).mpr (by simpa using hp)
    apply getElem?_eq_of_getD hst.length_eq
    intro _
    apply hst.kept
    intro _ _ hd
    rw [hmod, Dark, List.getElem?_eq_getElem hm, Option.getD_some] at hd
    omega

/-- The sequential loop has its closed form at every pixel of the mark, keeps the
image's bytes behind the three planes, and changes no other array, in particular
not the mark. -/
theorem stampImage_closedForm (pixels : Ptr → Buffer) (ptrMark imageData : Ptr)
    (heightMark widthMark : ℕ) (hne : ptrMark ≠ imageData)
    (hmark : heightMark * widthMark ≤ (pixels ptrMark).length)
    (himage : 3 * (heightMark * widthMark) ≤ (pixels imageData).length) :
    let after := stampImage ptrMark imageData heightMark widthMark pixels
    (∀ x < heightMark * widthMark, ClosedForm (pixels ptrMark) (pixels imageData)
      (after imageData) (heightMark * widthMark) x) ∧
    (after imageData).length = (pixels imageData).length ∧
    (∀ p, 3 * (heightMark * widthMark) ≤ p → (after imageData)[p]? = (pixels imageData)[p]?) ∧
    after ptrMark = pixels ptrMark ∧
    ∀ ptr ≠ imageData, after ptr = pixels ptr := by
  have hst := stampedOn_seqLoop (pixels ptrMark) (pixels imageData) heightMark widthMark
  intro after
  have hafter : after = Function.update pixels imageData _ := stampImage_eq hne ..
  rw [hafter, Function.update_self, Function.update_of_ne hne]
  refine ⟨fun x hx => closedForm_of_stampedOn hst hmark himage hx, hst.length_eq, ?_, rfl, ?_⟩
  · intro p hp
    exact getElem?_eq_of_getD hst.length_eq fun _ => hst.kept p fun h3 => absurd h3 (by omega)
  · intro ptr hptr
    exact Function.update_of_ne hptr ..

/-- A mark of four pixels, at 1, two of them dark, on an image of four pixels and one byte
more, at 2. -/
theorem stampImage_closedForm_fourPixels :
    let pixels : Ptr → Buffer := fun ptr =>
      if ptr = 1 then [0, 200, 49, 50] else List.replicate 12 100 ++ [7]
    let after := stampImage 1 2 2 2 pixels
    ClosedForm [0, 200, 49, 50] (pixels 2) (after 2) 4 0 ∧
      ClosedForm [0, 200, 49, 50] (pixels 2) (after 2) 4 1 ∧
      (after 2)[12]? = some 7 ∧ after 1 = [0, 200, 49, 50] := by
  intro pixels after
  obtain ⟨hclosed, -, hrest, hmark, -⟩ :=
    stampImage_closedForm pixels 1 2 2 2 (by decide) (by decide) (by decide)
  exact ⟨hclosed 0 (by decide), hclosed 1 (by decide), hrest 12 (by decide), hmark⟩

end WaterMark.Seq
