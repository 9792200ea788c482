import WaterMark.Pixels.ChunkLoops
import WaterMark.Pixels.WholePicture

/-! # Images and marks of any sizes

No version compares an image with the mark: number of pixels and plane stride
come from the mark alone. A pair is stamped within its buffers, and the three
bytes of a pixel together, exactly when the sizes fit or there is nothing to
stamp.
-/

namespace WaterMark.Pixels

/-- A loaded picture: `CImg` has no picture with some of its dimensions 0 and
others not. -/
structure Picture extends Mark where
  dimensions : 1 ≤ width ∧ 1 ≤ height ∧ 1 ≤ spectrum ∨ width = 0 ∧ height = 0 ∧ spectrum = 0

def Access.imageOff : Access → Option ℤ
  | .mark _ => none
  | .image off => some off

/-- The byte is in the mark's own buffer or in the image's own buffer. -/
def Access.Within (mark image : Buffer) : Access → Prop
  | .mark off => 0 ≤ off ∧ off < mark.length
  | .image off => 0 ≤ off ∧ off < image.length

/-- The bytes touched by one iteration of a stamping loop when the image holds
`img`. -/
def touched (mark : Buffer) (stride markOff : ℤ) (img : Buffer) : List Access :=
  ((stampPixel mark stride markOff).run ⟨img, []⟩).2.log

/-- An iteration stays within the buffers, and if it touches the image, the
bytes averaged and then overwritten are the red, green and blue byte of one
pixel of this image. -/
structure IterationSafe (mark image : Picture) (accesses : List Access) : Prop where
  within : ∀ a ∈ accesses, a.Within mark.data image.data
  samePixel : accesses.filterMap Access.imageOff = [] ∨
    3 ≤ image.spectrum ∧ ∃ p < image.pixels, accesses.filterMap Access.imageOff =
      [(p : ℤ), p + image.pixels, p + 2 * image.pixels,
        p, p + image.pixels, p + 2 * image.pixels]

/-- All iterations of a loop over `count` pixels from `offset` on are safe,
whatever other threads have written to the image by then. -/
def LoopSafe (mark image : Picture) (stride offset : ℤ) (count : ℕ) : Prop :=
  ∀ y < count, ∀ img, IterationSafe mark image (touched mark.data stride (offset + y) img)

def SeqSafe (mark image : Picture) : Prop :=
  let pixNmb : ℤ := mark.height * mark.width
  LoopSafe mark image pixNmb 0 pixNmb.toNat

def WorkerSafe (mark image : Picture) (c : ChunkInfo) : Prop :=
  LoopSafe mark image c.imgNmbPx c.offset (c.chunksRow * c.markWidth).toNat

def MapSafe (mark image : Picture) (nw : ℕ) : Prop :=
  ∀ i : Fin nw, WorkerSafe mark image (infoVector mark.height mark.width nw i)

def FarmSafe (mark image : Picture) : Prop :=
  let pixNmb := mark.size / 3
  LoopSafe mark image pixNmb 0 pixNmb

/-! ## One iteration -/

variable {mark image : Picture} {N x : ℕ}

theorem touched_eq (mark : Buffer) (N x : ℕ) (img : Buffer) :
    touched mark N x img = pixelAccesses mark N x := by
  rw [touched, stampPixel_run]
  rfl

theorem pixels_le_length (mark : Picture) : mark.pixels ≤ mark.data.length := by
  rw [mark.length_data, Mark.pixels]
  obtain ⟨-, -, hspectrum⟩ | ⟨hwidth, -, -⟩ := mark.dimensions
  · exact Nat.le_mul_of_pos_right _ hspectrum
  · simp [hwidth]

/-- An image with the mark's number of pixels and three channels. -/
def SameSize (mark image : Picture) : Prop := image.pixels = mark.pixels ∧ 3 ≤ image.spectrum

instance : Decidable (SameSize mark image) := inferInstanceAs (Decidable (_ ∧ _))

theorem imageOffs_pixelAccesses (mark : Buffer) (N x : ℕ) :
    (pixelAccesses mark N x).filterMap Access.imageOff =
      if Dark mark x then [(x : ℤ), x + N, x + 2 * N, x, x + N, x + 2 * N] else [] := by
  unfold pixelAccesses
  split_ifs <;> rfl

/-- At a pixel of the mark an iteration is safe if it has nothing to stamp or
the sizes fit. -/
theorem iterationSafe_iff (hx : x < mark.pixels) :
    IterationSafe mark image (pixelAccesses mark.data mark.pixels x) ↔
      ¬ Dark mark.data x ∨ SameSize mark image := by
  have hmark : x < mark.data.length := hx.trans_le (pixels_le_length mark)
  by_cases hdark : Dark mark.data x
  · constructor
    · intro h
      obtain hnone | ⟨hchannels, p, hp, hoffs⟩ := h.samePixel
      · rw [imageOffs_pixelAccesses, if_pos hdark] at hnone
        exact absurd hnone (by simp)
      · rw [imageOffs_pixelAccesses, if_pos hdark] at hoffs
        -- the red bytes give the pixel, the green ones then the stride
        simp only [List.cons.injEq] at hoffs
        exact Or.inr ⟨by omega, hchannels⟩
    · rintro (hlight | ⟨hpixels, hchannels⟩)
      · exact absurd hdark hlight
      have hlength : 3 * mark.pixels ≤ image.data.length := by
        have hsize : image.data.length = image.pixels * image.spectrum := image.length_data
        rw [hsize, hpixels, Nat.mul_comm]
        exact Nat.mul_le_mul_left _ hchannels
      refine ⟨?_, Or.inr ⟨hchannels, x, by omega, ?_⟩⟩
      · intro a ha
        have hinside := inside_pixelAccesses le_rfl hx ha
        cases a with
        | mark off =>
          exact ⟨hinside.1, hinside.2.trans_le (by exact_mod_cast pixels_le_length mark)⟩
        | image off => exact ⟨hinside.1, hinside.2.trans_le (by exact_mod_cast hlength)⟩
      · rw [imageOffs_pixelAccesses, if_pos hdark, hpixels]
  · rw [pixelAccesses, if_neg hdark]
    refine iff_of_true ⟨?_, Or.inl rfl⟩ (Or.inl hdark)
    intro a ha
    obtain rfl := List.mem_singleton.mp ha
    exact ⟨Int.natCast_nonneg x, by exact_mod_cast hmark⟩

/-! ## The loops of the programs -/

/-- The pair can be stamped: the sizes fit or the mark has no dark pixel. -/
def Stampable (mark image : Picture) : Prop :=
  SameSize mark image ∨ ∀ x < mark.pixels, ¬ Dark mark.data x

instance : Decidable (Stampable mark image) := inferInstanceAs (Decidable (_ ∨ _))

theorem stampable_iff : Stampable mark image ↔
    ∀ x < mark.pixels, ¬ Dark mark.data x ∨ SameSize mark image := by
  by_cases hsize : SameSize mark image
  · simp [Stampable, hsize]
  · simp [Stampable, hsize]

theorem loopSafe_iff {offset count : ℕ} (hin : offset + count ≤ mark.pixels) :
    LoopSafe mark image (mark.pixels : ℕ) offset count ↔
      ∀ y < count, ¬ Dark mark.data (offset + y) ∨ SameSize mark image := by
  have hiteration (y : ℕ) (hy : y < count) (img : Buffer) :
      IterationSafe mark image (touched mark.data (mark.pixels : ℕ) (offset + y) img) ↔
        ¬ Dark mark.data (offset + y) ∨ SameSize mark image := by
    have htouched := touched_eq mark.data mark.pixels (offset + y) img
    rw [Int.natCast_add] at htouched
    rw [htouched]
    exact iterationSafe_iff (by omega)
  constructor
  · intro h y hy
    exact (hiteration y hy []).mp (h y hy [])
  · intro h y hy img
    exact (hiteration y hy img).mpr (h y hy)

theorem loopSafe_pixels_iff :
    LoopSafe mark image (mark.pixels : ℕ) 0 mark.pixels ↔ Stampable mark image := by
  have hloop : LoopSafe mark image (mark.pixels : ℕ) (0 : ℕ) mark.pixels ↔
      ∀ y < mark.pixels, ¬ Dark mark.data (0 + y) ∨ SameSize mark image :=
    loopSafe_iff (Nat.zero_add mark.pixels).le
  simp only [Nat.zero_add] at hloop
  rw [stampable_iff, ← hloop]
  rfl

theorem seqSafe_iff : SeqSafe mark image ↔ Stampable mark image := by
  have hpixels : (mark.height : ℤ) * mark.width = (mark.pixels : ℕ) := by
    rw [Mark.pixels, Nat.mul_comm]
    push_cast
    rfl
  simp only [SeqSafe, hpixels, Int.toNat_natCast]
  exact loopSafe_pixels_iff

theorem farmSafe_iff (hplanes : mark.size / 3 = mark.pixels) :
    FarmSafe mark image ↔ Stampable mark image := by
  simp only [FarmSafe, hplanes]
  exact loopSafe_pixels_iff

theorem workerSafe_iff {nw : ℕ} (i : Fin nw) :
    WorkerSafe mark image (infoVector mark.height mark.width nw i) ↔
      ∀ y < rowsOf mark.height nw i * mark.width,
        ¬ Dark mark.data (chunkStart mark.height mark.width nw i + y) ∨ SameSize mark image := by
  have hpixels : mark.height * mark.width = mark.pixels := Nat.mul_comm ..
  have hcount : (((rowsOf mark.height nw i : ℕ) : ℤ) * (mark.width : ℕ)).toNat =
      rowsOf mark.height nw i * mark.width := by
    rw [← Int.natCast_mul, Int.toNat_natCast]
  have hend : chunkStart mark.height mark.width nw i + rowsOf mark.height nw i * mark.width ≤
      mark.pixels := by
    rw [← chunkStart_succ, ← hpixels]
    exact chunkStart_le i.isLt
  simp only [WorkerSafe, infoVector_eq, chunk, hcount, hpixels]
  exact loopSafe_iff hend

/-- The chunks cover the mark. -/
theorem mapSafe_iff {nw : ℕ} (hnw : 1 ≤ nw) : MapSafe mark image nw ↔ Stampable mark image := by
  have hpixels : mark.height * mark.width = mark.pixels := Nat.mul_comm ..
  rw [MapSafe, stampable_iff]
  constructor
  · intro h x hx
    obtain ⟨i, hi, hle, hlt⟩ := exists_owner hnw (hpixels ▸ hx)
    rw [chunkStart_succ] at hlt
    have hy := (workerSafe_iff ⟨i, hi⟩).mp (h ⟨i, hi⟩)
      (x - chunkStart mark.height mark.width nw i) (by simp only; omega)
    rwa [Nat.add_sub_cancel' hle] at hy
  · intro h i
    apply (workerSafe_iff i).mpr
    intro y hy
    have hle := chunkStart_le (h := mark.height) (w := mark.width) (Nat.succ_le_of_lt i.isLt)
    rw [chunkStart_succ, hpixels] at hle
    exact h _ (by omega)

def blackMark : Picture := ⟨⟨2, 1, 3, List.replicate 6 0, rfl⟩, by decide⟩

def rowImage (n : ℕ) (hn : 1 ≤ n) : Picture :=
  ⟨⟨n, 1, 3, List.replicate (n * 1 * 3) 255, List.length_replicate ..⟩,
    Or.inl ⟨hn, le_rfl, show 1 ≤ 3 by decide⟩⟩

end WaterMark.Pixels
