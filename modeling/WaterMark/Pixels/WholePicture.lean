import WaterMark.Pixels.Stamped

/-! # Workers that stamp whole pictures

The workers of the two farms take a third of the size of the marker's data both
as the number of pixels and as the plane stride. The sequential program takes
`height*width`. The two agree on markers with three channels.
-/

namespace WaterMark.Pixels

/-- A loaded marker, a `CImg<unsigned char>` of depth 1. -/
structure Mark where
  width : ℕ
  height : ℕ
  spectrum : ℕ
  data : Buffer
  length_data : data.length = width * height * spectrum

/-- `CImg::size()`. -/
def Mark.size (markImg : Mark) : ℕ := markImg.width * markImg.height * markImg.spectrum

def Mark.pixels (markImg : Mark) : ℕ := markImg.width * markImg.height

/-- A stamping loop over `pixNmb` pixels with plane stride `pixNmb`. -/
def stampWhole (mark : Buffer) (pixNmb : ℕ) (img : Buffer) : Machine :=
  ((stampLoop mark pixNmb 0 pixNmb).run ⟨img, []⟩).2

/-- The stamping loop of `worker` in the farm. -/
def farmWorker (markImg : Mark) (img : Buffer) : Machine :=
  let pixNmb := markImg.size / 3
  stampWhole markImg.data pixNmb img

/-- The stamping loop of `Worker_farm::svc`, whose `pixNmb` is set by the
constructor. -/
def workerFarmSvc (markImg : Mark) (img : Buffer) : Machine :=
  let pixNmb := markImg.size / 3
  stampWhole markImg.data pixNmb img

/-- The byte is one of the marker's first `N` or of the image's first `3*N`. -/
def Access.Inside (N : ℕ) : Access → Prop
  | .mark off => 0 ≤ off ∧ off < N
  | .image off => 0 ≤ off ∧ off < 3 * N

/-- The loop touches only the bytes of the marker's pixels and leaves the image
of the sequential loop. -/
structure AgreesWithSeq (markImg : Mark) (img : Buffer) (m : Machine) : Prop where
  inside : ∀ a ∈ m.log, a.Inside markImg.pixels
  same : m.img = (seqLoop markImg.data markImg.height markImg.width img).img

/-! ## The bytes touched -/

theorem log_stampLoop (mark : Buffer) (N offset n : ℕ) (s : Machine) :
    (((stampLoop mark N offset n).run s).2).log =
      s.log ++ (List.range n).flatMap fun y => pixelAccesses mark N (offset + y) := by
  induction n with
  | zero =>
    rw [List.range_zero, List.flatMap_nil, List.append_nil]
    rfl
  | succ n ih =>
    have hpixel : (((stampLoop mark N offset (n + 1)).run s).2).log =
        (((stampLoop mark N offset n).run s).2).log ++ pixelAccesses mark N (offset + n) :=
      congrArg (fun r => r.2.log)
        (stampPixel_run mark N (offset + n) ((stampLoop mark N offset n).run s).2)
    rw [hpixel, ih, List.range_succ, List.flatMap_append, List.flatMap_singleton,
      List.append_assoc]

theorem mem_log_stampWhole {mark img : Buffer} {pixNmb : ℕ} {a : Access} :
    a ∈ (stampWhole mark pixNmb img).log ↔ ∃ x < pixNmb, a ∈ pixelAccesses mark pixNmb x := by
  have hlog : (stampWhole mark pixNmb img).log = [] ++ _ :=
    log_stampLoop mark pixNmb 0 pixNmb ⟨img, []⟩
  rw [hlog]
  simp

theorem mark_mem_pixelAccesses (mark : Buffer) (N x : ℕ) :
    Access.mark x ∈ pixelAccesses mark N x := by
  unfold pixelAccesses
  split <;> simp

theorem inside_pixelAccesses {mark : Buffer} {N n x : ℕ} (hN : N ≤ n) (hx : x < N) {a : Access}
    (ha : a ∈ pixelAccesses mark N x) : a.Inside n := by
  unfold pixelAccesses at ha
  split at ha <;> simp only [List.mem_cons, List.not_mem_nil, or_false] at ha
  · rcases ha with rfl | rfl | rfl | rfl | rfl | rfl | rfl | rfl <;> simp only [Access.Inside] <;>
      omega
  · rw [ha]
    simp only [Access.Inside]
    omega

/-- The loop stays inside exactly when it does not overrun the pixels. -/
theorem inside_stampWhole_iff (mark img : Buffer) (pixNmb n : ℕ) :
    (∀ a ∈ (stampWhole mark pixNmb img).log, a.Inside n) ↔ pixNmb ≤ n := by
  constructor
  · intro h
    by_contra hlt
    have hmem : Access.mark n ∈ (stampWhole mark pixNmb img).log :=
      mem_log_stampWhole.mpr ⟨n, by omega, mark_mem_pixelAccesses mark pixNmb n⟩
    have := (h _ hmem).2
    omega
  · intro hle a ha
    obtain ⟨x, hx, hax⟩ := mem_log_stampWhole.mp ha
    exact inside_pixelAccesses hle hx hax

/-! ## The image left behind -/

theorem stampWhole_img (markImg : Mark) (img : Buffer) :
    (stampWhole markImg.data markImg.pixels img).img =
      (seqLoop markImg.data markImg.height markImg.width img).img := by
  have hN : (markImg.height : ℤ) * markImg.width = (markImg.pixels : ℕ) := by
    rw [Mark.pixels, Nat.mul_comm]
    push_cast
    rfl
  simp only [seqLoop, hN, Int.toNat_natCast, stampWhole]

theorem stampedOn_seqLoop_pixels (markImg : Mark) (img : Buffer) :
    StampedOn markImg.data img markImg.pixels (fun _ => True)
      (seqLoop markImg.data markImg.height markImg.width img).img := by
  rw [Mark.pixels, Nat.mul_comm]
  exact stampedOn_seqLoop markImg.data img markImg.height markImg.width

theorem pixelValue_white {mark : Buffer} {N x : ℕ} (hx : x < N) (hdark : Dark mark x) :
    pixelValue mark (List.replicate (3 * N) 255) N x ≤ 152 := by
  have hget (p : ℕ) (hp : p < 3 * N) : (List.replicate (3 * N) (255 : UInt8))[p]?.getD 0 = 255 := by
    simp [hp]
  have hmark : (mark[x]?.getD 0).toNat < 50 := hdark
  have h255 : (255 : UInt8).toNat = 255 := rfl
  rw [pixelValue, hget x (by omega), hget (x + N) (by omega), hget (x + 2 * N) (by omega)]
  simp only [avgGreyValue, greyValue, h255]
  omega

/-- A loop over too few pixels agrees on every image exactly when there is
nothing to stamp: on a white image the blue byte of a dark pixel shows the
difference. -/
theorem short_loop_same_iff (markImg : Mark) {pixNmb : ℕ}
    (hshort : 3 * pixNmb ≤ 2 * markImg.pixels) :
    (∀ img : Buffer, 3 * markImg.pixels ≤ img.length →
      (stampWhole markImg.data pixNmb img).img =
        (seqLoop markImg.data markImg.height markImg.width img).img) ↔
      ∀ x < markImg.pixels, ¬ Dark markImg.data x := by
  constructor
  · intro hall x hx hdark
    have hseq := stampedOn_seqLoop_pixels markImg (List.replicate (3 * markImg.pixels) 255)
    rw [← hall _ (by simp)] at hseq
    have hloop : StampedOn markImg.data (List.replicate (3 * markImg.pixels) 255) pixNmb
        (· < pixNmb) (stampWhole markImg.data pixNmb _).img := stampedOn_stampLoop _ _ le_rfl
    obtain ⟨hlt, hmod⟩ := (plane_position hx (x + 2 * markImg.pixels)).mpr (by simp)
    -- the sequential loop stores a dark value at the blue byte, the short loop never gets there
    have hbyte := hseq.stamped _ (by simpa using hlt) hlt trivial (by rw [hmod]; exact hdark)
    rw [hloop.kept _ (fun h => by omega), hmod] at hbyte
    have hnat := congrArg UInt8.toNat hbyte
    have hvalue := pixelValue_white hx hdark
    have h255 : (255 : UInt8).toNat = 255 := rfl
    rw [UInt8.toNat_ofNat'] at hnat
    simp only [List.getElem?_replicate, if_pos hlt, Option.getD_some, h255] at hnat
    omega
  · intro hwhite img _
    have hseq := stampedOn_seqLoop_pixels markImg img
    have hloop : StampedOn markImg.data img pixNmb (· < pixNmb)
        (stampWhole markImg.data pixNmb img).img := stampedOn_stampLoop _ _ le_rfl
    have hkept : StampedOn markImg.data img pixNmb (· < pixNmb)
        (seqLoop markImg.data markImg.height markImg.width img).img :=
      ⟨hseq.length_eq, fun p _ _ hlt hd => absurd hd (hwhite _ (by omega)),
        fun p _ => hseq.kept p fun h3 _ => hwhite _ (Nat.mod_lt p (by omega))⟩
    exact hloop.unique hkept fun x _ => Iff.rfl

/-! ## The markers on which the versions agree -/

/-- A third of the data's size is the number of pixels: three channels, no
pixel, or a few tiny markers where the division rounds the excess away. -/
def Mark.ThreePlanes (markImg : Mark) : Prop :=
  markImg.spectrum = 3 ∨ markImg.pixels = 0 ∨ markImg.spectrum = 4 ∧ markImg.pixels ≤ 2 ∨
    markImg.spectrum = 5 ∧ markImg.pixels = 1

theorem threePlanes_iff (markImg : Mark) :
    markImg.size / 3 = markImg.pixels ↔ markImg.ThreePlanes := by
  have hsize : markImg.size = markImg.pixels * markImg.spectrum := rfl
  rw [hsize, Mark.ThreePlanes]
  generalize markImg.pixels = n
  generalize markImg.spectrum = s
  rcases lt_or_ge s 6 with hs | hs
  · interval_cases s <;> omega
  · rcases Nat.eq_zero_or_pos n with rfl | hn
    · simp
    · have hle : n * 6 ≤ n * s := Nat.mul_le_mul_left n hs
      omega

theorem stampWhole_agrees_iff (markImg : Mark) :
    (∀ img : Buffer, 3 * markImg.pixels ≤ img.length →
      AgreesWithSeq markImg img (stampWhole markImg.data (markImg.size / 3) img)) ↔
      markImg.ThreePlanes ∨
        markImg.spectrum < 3 ∧ ∀ x < markImg.pixels, ¬ Dark markImg.data x := by
  have hsize : markImg.size = markImg.pixels * markImg.spectrum := rfl
  constructor
  · intro hall
    rcases lt_trichotomy (markImg.size / 3) markImg.pixels with hlt | heq | hgt
    · have hs : markImg.spectrum < 3 := by
        by_contra hge
        have := Nat.mul_le_mul_left markImg.pixels (Nat.le_of_not_lt hge)
        omega
      have hle := Nat.mul_le_mul_left markImg.pixels (Nat.le_of_lt_succ hs)
      apply Or.inr
      apply And.intro hs
      exact (short_loop_same_iff markImg (by omega)).mp fun img himg => (hall img himg).same
    · exact Or.inl ((threePlanes_iff markImg).mp heq)
    · have hin := (hall (List.replicate (3 * markImg.pixels) 0) (by simp)).inside
      rw [inside_stampWhole_iff] at hin
      omega
  · rintro (hthree | ⟨hs, hwhite⟩) img himg
    · rw [(threePlanes_iff markImg).mpr hthree]
      exact ⟨(inside_stampWhole_iff _ _ _ _).mpr le_rfl, stampWhole_img markImg img⟩
    · have hle := Nat.mul_le_mul_left markImg.pixels (Nat.le_of_lt_succ hs)
      refine ⟨(inside_stampWhole_iff _ _ _ _).mpr (by omega), ?_⟩
      exact (short_loop_same_iff markImg (by omega)).mpr hwhite img himg

/-- The farm workers of both libraries keep to the marker's pixels and leave the
sequential image, for every image, exactly when the marker has three planes or
has fewer and none of its pixels is dark. -/
theorem farm_stamping_agrees_iff (markImg : Mark) :
    (∀ img : Buffer, 3 * markImg.pixels ≤ img.length →
      AgreesWithSeq markImg img (farmWorker markImg img) ∧
        AgreesWithSeq markImg img (workerFarmSvc markImg img)) ↔
      markImg.ThreePlanes ∨
        markImg.spectrum < 3 ∧ ∀ x < markImg.pixels, ¬ Dark markImg.data x := by
  rw [← stampWhole_agrees_iff]
  exact ⟨fun h img himg => (h img himg).1, fun h img himg => ⟨h img himg, h img himg⟩⟩

def greyMark : Mark := ⟨3, 1, 1, [0, 0, 0], rfl⟩

theorem farmWorker_greyMark :
    ¬ AgreesWithSeq greyMark (List.replicate 9 255) (farmWorker greyMark (List.replicate 9 255)) :=
  fun h => absurd h.same (by decide)

end WaterMark.Pixels
