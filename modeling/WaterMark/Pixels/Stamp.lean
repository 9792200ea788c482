import Mathlib.Data.List.GetD
import Mathlib.Data.Int.Order.Basic
import Mathlib.Tactic.IntervalCases
import Mathlib.Tactic.Ring

/-! # Stamping one picture

The body shared by the stamping loops of all versions, with the bytes that it
touches, and the loop of the sequential program. A picture is the planar byte
array behind `CImg::data()`: red, green and blue planes one after the other.
-/

namespace WaterMark.Pixels

/-- The bytes behind an `unsigned char *`. -/
abbrev Buffer := List UInt8

/-- `*(b + off)`. A read outside the buffer yields 0; the log of a run tells
whether there is one. -/
def load (b : Buffer) (off : ℤ) : UInt8 := if 0 ≤ off then b[off.toNat]?.getD 0 else 0

/-- `*(b + off) = v`, where the `int` is converted to `unsigned char`. A write
outside the buffer is lost; the log of a run tells whether there is one. -/
def store (b : Buffer) (off : ℤ) (v : ℕ) : Buffer :=
  if 0 ≤ off then b.set off.toNat (UInt8.ofNat v) else b

theorem load_natCast (b : Buffer) (n : ℕ) : load b (n : ℤ) = b[n]?.getD 0 := by
  simp [load]

theorem store_natCast (b : Buffer) (n v : ℕ) :
    store b (n : ℤ) v = b.set n (UInt8.ofNat v) := by
  simp [store]

inductive Access where
  | mark (off : ℤ)
  | image (off : ℤ)
deriving DecidableEq

/-- The image being stamped and the bytes touched so far, oldest first. -/
structure Machine where
  img : Buffer
  log : List Access
deriving DecidableEq

def readMark (ptrMarker : Buffer) (off : ℤ) : StateM Machine UInt8 :=
  fun s => (load ptrMarker off, { s with log := s.log ++ [.mark off] })

def readImage (off : ℤ) : StateM Machine UInt8 :=
  fun s => (load s.img off, { s with log := s.log ++ [.image off] })

def writeImage (off : ℤ) (v : ℕ) : StateM Machine Unit :=
  fun s => ((), ⟨store s.img off v, s.log ++ [.image off]⟩)

section
variable (ptrMarker : Buffer) (off : ℤ) (v : ℕ) (s : Machine)

@[simp] theorem run_readMark : (readMark ptrMarker off).run s =
    pure (load ptrMarker off, { s with log := s.log ++ [.mark off] }) := rfl

@[simp] theorem run_readImage : (readImage off).run s =
    pure (load s.img off, { s with log := s.log ++ [.image off] }) := rfl

@[simp] theorem run_writeImage : (writeImage off v).run s =
    pure ((), ⟨store s.img off v, s.log ++ [.image off]⟩) := rfl

end

def greyValue (red green blue : UInt8) : ℕ := (red.toNat + green.toNat + blue.toNat) / 3

/-- `avgGreyValue`, the mean of the grey value and the mark byte. -/
def avgGreyValue (grey : ℕ) (mark : UInt8) : ℕ := (grey + mark.toNat) / 2

/-- The body of the stamping loops at pixel `markOff`, with plane stride
`imgNmbPx` (called `pixNmb` in the versions that stamp whole pictures). -/
def stampPixel (ptrMarker : Buffer) (imgNmbPx markOff : ℤ) : StateM Machine Unit := do
  let m ← readMark ptrMarker markOff
  if m.toNat < 50 then
    let red ← readImage markOff
    let green ← readImage (markOff + imgNmbPx)
    let blue ← readImage (markOff + 2 * imgNmbPx)
    let m ← readMark ptrMarker markOff
    let avg := avgGreyValue (greyValue red green blue) m
    writeImage markOff avg
    writeImage (markOff + imgNmbPx) avg
    writeImage (markOff + 2 * imgNmbPx) avg

/-- `for (int y = 0; y < count; y++)` over the pixels `offset + y`. -/
def stampLoop (ptrMarker : Buffer) (imgNmbPx offset : ℤ) : ℕ → StateM Machine Unit
  | 0 => pure ()
  | count + 1 => do
    stampLoop ptrMarker imgNmbPx offset count
    stampPixel ptrMarker imgNmbPx (offset + count)

/-- The loop of the sequential program over one image, `pixNmb` being
`heightMark * widthMark`. -/
def seqLoop (ptrMark : Buffer) (heightMark widthMark : ℤ) (img : Buffer) : Machine :=
  let pixNmb := heightMark * widthMark
  ((stampLoop ptrMark pixNmb 0 pixNmb.toNat).run ⟨img, []⟩).2

/-! ## What the body does to the image -/

/-- The threshold of the marker's black pixels. -/
def Dark (ptrMarker : Buffer) (x : ℕ) : Prop := (ptrMarker[x]?.getD 0).toNat < 50

instance (ptrMarker : Buffer) (x : ℕ) : Decidable (Dark ptrMarker x) :=
  inferInstanceAs (Decidable (_ < _))

theorem load_lt_iff_dark (ptrMarker : Buffer) (x : ℕ) :
    (load ptrMarker (x : ℤ)).toNat < 50 ↔ Dark ptrMarker x := by
  rw [load_natCast, Dark]

/-- The value that stamping stores for pixel `x` of a picture with planes of
`N` pixels. -/
def pixelValue (ptrMarker img : Buffer) (N x : ℕ) : ℕ :=
  avgGreyValue (greyValue (img[x]?.getD 0) (img[x + N]?.getD 0) (img[x + 2 * N]?.getD 0))
    (ptrMarker[x]?.getD 0)

def setPixel (img : Buffer) (N x v : ℕ) : Buffer :=
  ((img.set x (UInt8.ofNat v)).set (x + N) (UInt8.ofNat v)).set (x + 2 * N) (UInt8.ofNat v)

theorem store_setPixel (img : Buffer) (N x v : ℕ) :
    store (store (store img (x : ℤ) v) ((x : ℤ) + N) v) ((x : ℤ) + 2 * N) v =
      setPixel img N x v := by
  have hg : (x : ℤ) + N = ((x + N : ℕ) : ℤ) := by push_cast; rfl
  have hb : (x : ℤ) + 2 * N = ((x + 2 * N : ℕ) : ℤ) := by push_cast; rfl
  rw [hg, hb, store_natCast, store_natCast, store_natCast, setPixel]

theorem load_pixelValue (ptrMarker img : Buffer) (N x : ℕ) :
    avgGreyValue (greyValue (load img (x : ℤ)) (load img ((x : ℤ) + N))
      (load img ((x : ℤ) + 2 * N))) (load ptrMarker (x : ℤ)) = pixelValue ptrMarker img N x := by
  have hg : (x : ℤ) + N = ((x + N : ℕ) : ℤ) := by push_cast; rfl
  have hb : (x : ℤ) + 2 * N = ((x + 2 * N : ℕ) : ℤ) := by push_cast; rfl
  rw [hg, hb, load_natCast, load_natCast, load_natCast, load_natCast, pixelValue]

def pixelAccesses (ptrMarker : Buffer) (N x : ℕ) : List Access :=
  if Dark ptrMarker x then
    [.mark x, .image x, .image (x + N), .image (x + 2 * N), .mark x,
      .image x, .image (x + N), .image (x + 2 * N)]
  else [.mark x]

/-- The body in terms of positions: it stores one value in the three planes of
a dark pixel and leaves the others alone. -/
theorem stampPixel_run (ptrMarker : Buffer) (N x : ℕ) (s : Machine) :
    (stampPixel ptrMarker N x).run s = pure ((),
      ⟨if Dark ptrMarker x then setPixel s.img N x (pixelValue ptrMarker s.img N x) else s.img,
        s.log ++ pixelAccesses ptrMarker N x⟩) := by
  by_cases hd : Dark ptrMarker x
  · rw [if_pos hd, pixelAccesses, if_pos hd, ← load_pixelValue, ← store_setPixel]
    simp [stampPixel, load_lt_iff_dark, hd]
  · rw [if_neg hd, pixelAccesses, if_neg hd]
    simp [stampPixel, load_lt_iff_dark, hd]

theorem stampLoop_succ (ptrMarker : Buffer) (N n : ℕ) (s : Machine) :
    ((stampLoop ptrMarker N 0 (n + 1)).run s).2 =
      let t := ((stampLoop ptrMarker N 0 n).run s).2
      ⟨if Dark ptrMarker n then setPixel t.img N n (pixelValue ptrMarker t.img N n) else t.img,
        t.log ++ pixelAccesses ptrMarker N n⟩ := by
  have h := stampPixel_run ptrMarker N n ((stampLoop ptrMarker N 0 n).run s).2
  rw [← zero_add (n : ℤ)] at h
  exact congrArg Prod.snd h

end WaterMark.Pixels
