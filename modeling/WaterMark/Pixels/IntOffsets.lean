import WaterMark.Library.CheckedInt
import WaterMark.Pixels.ChunkLoops
import WaterMark.Seq.ClosedForm

/-! # The offsets as machine integers

The split and the stamping loops once more, with every `int` operation checked
against the values from 0 to `2^31-1`. For pictures whose three planes have at
most `2^31-1` bytes no check fails.
-/

namespace WaterMark.Pixels
open CheckedInt WaterMark.Seq

def offsetRange : Range := ⟨0, 2 ^ 31 - 1⟩

/-! ## The programs with checked operations -/

/-- `if (lastRow == i) chunksRow=chunksRow-1`. -/
def chunksRowInt (lastRow chunksRow : ℤ) (i : ℕ) : Option ℤ :=
  if lastRow = i then offsetRange.sub chunksRow 1 else some chunksRow

/-- Iteration `i` of the loop on workers, with `i++`. -/
def splitStepInt (imgNmbPx lastRow markWidth : ℤ) (s : SplitVars) (i : ℕ) : Option SplitVars := do
  let chunksRow ← chunksRowInt lastRow s.chunksRow i
  let offset ← offsetRange.mul s.rowAssigned markWidth
  let rowAssigned ← offsetRange.add s.rowAssigned chunksRow
  let _ ← offsetRange.add i 1
  pure ⟨chunksRow, rowAssigned,
    s.infoVector ++ [⟨imgNmbPx, chunksRow, markWidth, offset⟩]⟩

def rowSplitInt (markHeight markWidth : ℤ) (nw : ℕ) : Option (List ChunkInfo) := do
  let imgNmbPx ← offsetRange.mul markHeight markWidth
  let quotient ← offsetRange.div markHeight nw
  let chunksRow ← offsetRange.add quotient 1
  let lastRow ← offsetRange.mod markHeight nw
  let s ← (List.range nw).foldlM (splitStepInt imgNmbPx lastRow markWidth) ⟨chunksRow, 0, []⟩
  pure s.infoVector

/-- `greyValue` and `avgGreyValue`. -/
def avgInt (red green blue mark : UInt8) : Option ℤ := do
  let sum ← offsetRange.add red.toNat green.toNat
  let sum ← offsetRange.add sum blue.toNat
  let grey ← offsetRange.div sum 3
  let sum ← offsetRange.add grey mark.toNat
  offsetRange.div sum 2

/-- The offsets of the green and the blue byte of pixel `x`. -/
def planeOffsets (x pixNmb : ℤ) : Option (ℤ × ℤ) := do
  let greenOff ← offsetRange.add x pixNmb
  let twice ← offsetRange.mul pixNmb 2
  let blueOff ← offsetRange.add x twice
  pure (greenOff, blueOff)

def ChunkInfo.finishedInt (c : ChunkInfo) (s : LoopState) : Option Bool := do
  let count ← offsetRange.mul c.chunksRow c.markWidth
  pure (decide (s.pc = .test) && decide (count ≤ s.y))

def ChunkInfo.bodyStepInt (c : ChunkInfo) (ptrMarker : Buffer) (s : LoopState) (img : Buffer) :
    Option (LoopState × Buffer) := do
  let markOff ← offsetRange.add c.offset s.y
  match s.pc with
  | .test =>
    if (load ptrMarker markOff).toNat < 50 then pure (⟨s.y, .read⟩, img)
    else do
      let y ← offsetRange.add s.y 1
      pure (⟨y.toNat, .test⟩, img)
  | .read => do
    let (greenOff, blueOff) ← planeOffsets markOff c.imgNmbPx
    let avg ← avgInt (load img markOff) (load img greenOff) (load img blueOff)
      (load ptrMarker markOff)
    pure (⟨s.y, .write avg.toNat⟩, img)
  | .write avg => do
    let (greenOff, blueOff) ← planeOffsets markOff c.imgNmbPx
    let y ← offsetRange.add s.y 1
    pure (⟨y.toNat, .test⟩, store (store (store img markOff avg) greenOff avg) blueOff avg)

/-- The body of the loops that stamp whole pictures, with `x++`. -/
def stampAtInt (ptrMark imageData : Ptr) (pixNmb : ℤ) (pixels : Ptr → Buffer) (x : ℕ) :
    Option (Ptr → Buffer) := do
  let _ ← offsetRange.add x 1
  if (load (pixels ptrMark) x).toNat < 50 then
    let (greenOff, blueOff) ← planeOffsets x pixNmb
    let avg ← avgInt (load (pixels imageData) x) (load (pixels imageData) greenOff)
      (load (pixels imageData) blueOff) (load (pixels ptrMark) x)
    let pixels := storeAt pixels imageData x avg.toNat
    let pixels := storeAt pixels imageData greenOff avg.toNat
    pure (storeAt pixels imageData blueOff avg.toNat)
  else pure pixels

def stampImageInt (ptrMark imageData : Ptr) (heightMark widthMark : ℤ) (pixels : Ptr → Buffer) :
    Option (Ptr → Buffer) := do
  let pixNmb ← offsetRange.mul heightMark widthMark
  (List.range pixNmb.toNat).foldlM (stampAtInt ptrMark imageData pixNmb) pixels

/-- The loop of `worker` in the farm, for a mark with `size` bytes: the exact
and the checked one. -/
def farmImage (ptrMark imageData : Ptr) (size : ℕ) (pixels : Ptr → Buffer) : Ptr → Buffer :=
  let pixNmb := size / 3
  (List.range pixNmb).foldl (stampAt ptrMark imageData pixNmb) pixels

def farmImageInt (ptrMark imageData : Ptr) (size : ℕ) (pixels : Ptr → Buffer) :
    Option (Ptr → Buffer) := do
  let pixNmb ← offsetRange.fit (size / 3 : ℕ)
  (List.range pixNmb.toNat).foldlM (stampAtInt ptrMark imageData pixNmb) pixels

/-! ## No check fails -/

theorem has_offsetRange {n : ℕ} : offsetRange.Has n ↔ n ≤ 2 ^ 31 - 1 := by
  simp only [Range.Has, offsetRange]
  omega

theorem offsetRange_min : offsetRange.min ≤ 0 := le_rfl

theorem toNat_le (b : UInt8) : b.toNat ≤ 255 := Nat.le_of_lt_succ b.toNat_lt

theorem avgInt_eq (red green blue mark : UInt8) :
    avgInt red green blue mark = some (avgGreyValue (greyValue red green blue) mark : ℤ) := by
  have hred := toNat_le red
  have hgreen := toNat_le green
  have hblue := toNat_le blue
  have hmark := toNat_le mark
  have hsum : red.toNat + green.toNat + blue.toNat ≤ 2 ^ 31 - 1 := by omega
  have hgrey : greyValue red green blue + mark.toNat ≤ 2 ^ 31 - 1 := by
    simp only [greyValue]
    omega
  have hfirst : offsetRange.add red.toNat green.toNat = some ((red.toNat + green.toNat : ℕ) : ℤ) :=
    Range.add_natCast (has_offsetRange.mpr (by omega))
  have hthird : offsetRange.div (red.toNat + green.toNat + blue.toNat : ℕ) 3 =
      some (greyValue red green blue : ℤ) :=
    Range.div_natCast three_pos offsetRange_min (has_offsetRange.mpr hsum)
  have hhalf : offsetRange.div (greyValue red green blue + mark.toNat : ℕ) 2 =
      some (avgGreyValue (greyValue red green blue) mark : ℤ) :=
    Range.div_natCast two_pos offsetRange_min (has_offsetRange.mpr hgrey)
  rw [avgInt, bind_of_some hfirst, bind_of_some (Range.add_natCast (has_offsetRange.mpr hsum)),
    bind_of_some hthird, bind_of_some (Range.add_natCast (has_offsetRange.mpr hgrey)), hhalf]

/-- The offsets of a pixel of planes that fit. -/
theorem planeOffsets_eq {x N : ℕ} (hx : x < N) (hfit : 3 * N ≤ 2 ^ 31 - 1) :
    planeOffsets x N = some ((x : ℤ) + N, (x : ℤ) + 2 * N) := by
  have htwice : offsetRange.mul N 2 = some ((N * 2 : ℕ) : ℤ) :=
    Range.mul_natCast (n := N) (m := 2) (has_offsetRange.mpr (by omega))
  have hgreen : offsetRange.add x N = some ((x + N : ℕ) : ℤ) :=
    Range.add_natCast (has_offsetRange.mpr (by omega))
  have hblue : offsetRange.add x (N * 2 : ℕ) = some ((x + N * 2 : ℕ) : ℤ) :=
    Range.add_natCast (has_offsetRange.mpr (by omega))
  rw [planeOffsets, bind_of_some hgreen, bind_of_some htwice, bind_of_some hblue,
    Int.natCast_add, Int.natCast_add, Nat.mul_comm, Int.natCast_mul]
  rfl

theorem chunksRowInt_eq {h nw i : ℕ} (hfit : rowsOf h nw i ≤ 2 ^ 31 - 1) :
    chunksRowInt (h % nw : ℕ) ((h / nw : ℕ) + (if i ≤ h % nw then 1 else 0)) i =
      some ((rowsOf h nw i : ℕ) : ℤ) := by
  have hstep := chunksRow_step h nw i
  unfold chunksRowInt
  by_cases hi : ((h % nw : ℕ) : ℤ) = i
  · rw [if_pos hi] at hstep ⊢
    rw [Range.sub, hstep, Range.fit_eq (has_offsetRange.mpr hfit)]
  · rw [if_neg hi] at hstep ⊢
    rw [hstep]

/-- One round of the split, from the loop variables of the earlier rounds. -/
theorem splitStepInt_eq {h w nw i : ℕ} (hw : 1 ≤ w) (hfit : 3 * (h * w) ≤ 2 ^ 31 - 1) (hi : i < nw)
    (hmax : nw ≤ 2 ^ 31 - 1) (infoVector : List ChunkInfo) :
    splitStepInt (h * w : ℕ) (h % nw : ℕ) w
        ⟨(h / nw : ℕ) + (if i ≤ h % nw then 1 else 0), rowsBefore h nw i, infoVector⟩ i =
      some ⟨rowsOf h nw i, rowsBefore h nw (i + 1), infoVector ++ [chunk h w nw i]⟩ := by
  have hh : h ≤ h * w := Nat.le_mul_of_pos_right h hw
  have hle : rowsBefore h nw (i + 1) ≤ h := by
    have := rowsBefore_mono h nw (Nat.succ_le_of_lt hi)
    rwa [rowsBefore_all h (by omega)] at this
  have hnext := rowsBefore_succ h nw i
  have hchunk : chunksRowInt (h % nw : ℕ) ((h / nw : ℕ) + (if i ≤ h % nw then 1 else 0)) i =
      some ((rowsOf h nw i : ℕ) : ℤ) := chunksRowInt_eq (by omega)
  have hoffset : offsetRange.mul (rowsBefore h nw i) w = some ((rowsBefore h nw i * w : ℕ) : ℤ) :=
    Range.mul_natCast (has_offsetRange.mpr
      ((Nat.mul_le_mul_right w (by omega : rowsBefore h nw i ≤ h)).trans (by omega)))
  have hassigned : offsetRange.add (rowsBefore h nw i) (rowsOf h nw i) =
      some ((rowsBefore h nw (i + 1) : ℕ) : ℤ) := by
    rw [hnext]
    exact Range.add_natCast (has_offsetRange.mpr (by omega))
  have hcounter : offsetRange.add i 1 = some ((i : ℤ) + 1) :=
    Range.succ_natCast (has_offsetRange.mpr (by omega))
  rw [splitStepInt, bind_of_some hchunk, bind_of_some hoffset, bind_of_some hassigned,
    bind_of_some hcounter]
  rfl

theorem rowSplitInt_eq {h w nw : ℕ} (hw : 1 ≤ w) (hfit : 3 * (h * w) ≤ 2 ^ 31 - 1) (hnw : 1 ≤ nw)
    (hmax : nw ≤ 2 ^ 31 - 1) : rowSplitInt h w nw = some (rowSplit h w nw) := by
  have hh : h ≤ h * w := Nat.le_mul_of_pos_right h hw
  have hheight : offsetRange.Has h := has_offsetRange.mpr (by omega)
  have hpx : offsetRange.mul h w = some ((h * w : ℕ) : ℤ) :=
    Range.mul_natCast (has_offsetRange.mpr (by omega))
  have hquot : offsetRange.div h nw = some ((h / nw : ℕ) : ℤ) :=
    Range.div_natCast hnw offsetRange_min hheight
  have hlast : offsetRange.mod h nw = some ((h % nw : ℕ) : ℤ) :=
    Range.mod_natCast hnw offsetRange_min hheight
  have hdivLe := Nat.div_le_self h nw
  have hrows : offsetRange.add (h / nw : ℕ) 1 = some ((h : ℤ).tdiv nw + 1) := by
    rw [Int.ofNat_tdiv]
    exact Range.succ_natCast (has_offsetRange.mpr (by omega))
  have hloop : (List.range nw).foldlM (splitStepInt (h * w : ℕ) (h % nw : ℕ) w)
      ⟨(h : ℤ).tdiv nw + 1, 0, []⟩ =
      some ((List.range nw).foldl (splitStep h w nw) ⟨(h : ℤ).tdiv nw + 1, 0, []⟩) := by
    apply foldlM_range
    intro i hi
    rw [splitVars_eq, splitStep_eq]
    exact splitStepInt_eq hw hfit hi hmax _
  rw [rowSplitInt, bind_of_some hpx, bind_of_some hquot, bind_of_some hrows, bind_of_some hlast,
    bind_of_some hloop, rowSplit]
  rfl

section
variable {h w nw N : ℕ} {ptrMark : Buffer}

theorem finishedInt_eq (hfit : 3 * (h * w) ≤ 2 ^ 31 - 1) (i : Fin nw) (s : LoopState) :
    (infoVector h w nw i).finishedInt s = some ((infoVector h w nw i).finished s) := by
  have hle : rowsOf h nw i * w ≤ h * w := by
    have := chunkStart_le (w := w) (h := h) (Nat.succ_le_of_lt i.isLt)
    rw [chunkStart_succ] at this
    omega
  have hcount : offsetRange.mul (rowsOf h nw i) w = some ((rowsOf h nw i * w : ℕ) : ℤ) :=
    Range.mul_natCast (has_offsetRange.mpr (by omega))
  rw [infoVector_eq, ChunkInfo.finishedInt, ChunkInfo.finished, chunk, bind_of_some hcount,
    Int.natCast_mul]
  rfl

theorem bodyStepInt_eq (hfit : 3 * (h * w) ≤ 2 ^ 31 - 1) (i : Fin nw) {s : LoopState} (img : Buffer)
    (hx : chunkStart h w nw i + s.y < h * w) :
    (infoVector h w nw i).bodyStepInt ptrMark s img =
      some ((infoVector h w nw i).bodyStep ptrMark s img) := by
  have hoffset : (infoVector h w nw i).offset = (chunkStart h w nw i : ℕ) := by
    rw [infoVector_eq]
    rfl
  have hmark : offsetRange.add (infoVector h w nw i).offset s.y =
      some ((chunkStart h w nw i + s.y : ℕ) : ℤ) := by
    rw [hoffset]
    exact Range.add_natCast (has_offsetRange.mpr (by omega))
  have hplanes := planeOffsets_eq hx hfit
  have hcounter : offsetRange.add s.y 1 = some ((s.y : ℤ) + 1) :=
    Range.succ_natCast (has_offsetRange.mpr (by omega))
  have hnext : ((s.y : ℤ) + 1).toNat = s.y + 1 := by omega
  rw [ChunkInfo.bodyStepInt, bind_of_some hmark, ChunkInfo.bodyStep, offset_add, imgNmbPx_eq]
  cases s.pc with
  | test =>
    simp only
    split_ifs
    · rfl
    · rw [bind_of_some hcounter, hnext]
      rfl
  | read =>
    simp only
    rw [bind_of_some hplanes, bind_of_some (avgInt_eq ..), Int.toNat_natCast]
    rfl
  | write avg =>
    simp only
    rw [bind_of_some hplanes, bind_of_some hcounter, hnext]
    rfl

theorem stampAtInt_eq (ptrMark imageData : Ptr) (pixels : Ptr → Buffer) {x : ℕ} (hx : x < N)
    (hfit : 3 * N ≤ 2 ^ 31 - 1) :
    stampAtInt ptrMark imageData N pixels x = some (stampAt ptrMark imageData N pixels x) := by
  have hcounter : offsetRange.add x 1 = some ((x : ℤ) + 1) :=
    Range.succ_natCast (has_offsetRange.mpr (by omega))
  rw [stampAtInt, bind_of_some hcounter, stampAt, mul_comm (N : ℤ) 2]
  split_ifs
  · rw [bind_of_some (planeOffsets_eq hx hfit)]
    simp only
    rw [bind_of_some (avgInt_eq ..), Int.toNat_natCast]
    rfl
  · rfl

theorem foldlM_stampAtInt (ptrMark imageData : Ptr) (pixels : Ptr → Buffer)
    (hfit : 3 * N ≤ 2 ^ 31 - 1) :
    (List.range N).foldlM (stampAtInt ptrMark imageData N) pixels =
      some ((List.range N).foldl (stampAt ptrMark imageData N) pixels) :=
  foldlM_range fun _ hx => stampAtInt_eq ptrMark imageData _ hx hfit

theorem stampImageInt_eq (ptrMark imageData : Ptr) (pixels : Ptr → Buffer)
    (hfit : 3 * (h * w) ≤ 2 ^ 31 - 1) :
    stampImageInt ptrMark imageData h w pixels =
      some (stampImage ptrMark imageData h w pixels) := by
  have hpx : offsetRange.mul h w = some ((h * w : ℕ) : ℤ) :=
    Range.mul_natCast (has_offsetRange.mpr (by omega))
  rw [stampImageInt, bind_of_some hpx, Int.toNat_natCast, foldlM_stampAtInt _ _ _ hfit, stampImage,
    ← Int.natCast_mul, Int.toNat_natCast]

theorem farmImageInt_eq (ptrMark imageData : Ptr) {size : ℕ} (pixels : Ptr → Buffer)
    (hfit : size ≤ 2 ^ 31 - 1) :
    farmImageInt ptrMark imageData size pixels =
      some (farmImage ptrMark imageData size pixels) := by
  have hpx : offsetRange.fit (size / 3 : ℕ) = some ((size / 3 : ℕ) : ℤ) :=
    Range.fit_eq (has_offsetRange.mpr (by omega))
  rw [farmImageInt, bind_of_some hpx, Int.toNat_natCast,
    foldlM_stampAtInt _ _ _ (by omega), farmImage]

end

/-! ## Exactness -/

structure Apart (bytes red green blue : ℤ) : Prop where
  red_green : red ≠ green
  red_blue : red ≠ blue
  green_blue : green ≠ blue
  red_mem : 0 ≤ red ∧ red < bytes
  green_mem : 0 ≤ green ∧ green < bytes
  blue_mem : 0 ≤ blue ∧ blue < bytes

theorem apart_planes {x N : ℕ} (hx : x < N) : Apart (3 * N : ℕ) x (x + N) (x + 2 * N) where
  red_green := by omega
  red_blue := by omega
  green_blue := by omega
  red_mem := by omega
  green_mem := by omega
  blue_mem := by omega

/-- In pictures whose three planes have at most `2^31-1` bytes no `int` leaves
the values from 0 to `2^31-1`: not in the split, not in a worker's loop at any
moment of any interleaving, and not in the loops over whole pictures. The three
offsets of every iteration are different bytes of the planes. -/
theorem intOffsets_exact (markWidth markHeight nw : ℕ) (hwidth : 1 ≤ markWidth)
    (hfit : 3 * markWidth * markHeight ≤ 2 ^ 31 - 1) (hnw : 1 ≤ nw) (hmax : nw ≤ 2 ^ 31 - 1) :
    rowSplitInt markHeight markWidth nw = some (rowSplit markHeight markWidth nw) ∧
    (∀ ptrMark img s, Relation.ReflTransGen
        (PixelStep ptrMark (infoVector markHeight markWidth nw)) ⟨fun _ => .start, img⟩ s →
      ∀ i, let c := infoVector markHeight markWidth nw i
        c.finishedInt (s.loop i) = some (c.finished (s.loop i)) ∧
        (c.finished (s.loop i) = false →
          c.bodyStepInt ptrMark (s.loop i) s.img = some (c.bodyStep ptrMark (s.loop i) s.img) ∧
          let markOff := c.offset + (s.loop i).y
          Apart (3 * markWidth * markHeight : ℕ) markOff (markOff + c.imgNmbPx)
            (markOff + 2 * c.imgNmbPx))) ∧
    (∀ ptrMark imageData pixels,
      stampImageInt ptrMark imageData markHeight markWidth pixels =
        some (stampImage ptrMark imageData markHeight markWidth pixels) ∧
      farmImageInt ptrMark imageData (3 * markWidth * markHeight) pixels =
        some (farmImage ptrMark imageData (3 * markWidth * markHeight) pixels)) ∧
    ∀ x < markHeight * markWidth, Apart (3 * markWidth * markHeight : ℕ) x
      (x + (markHeight * markWidth : ℕ)) (x + 2 * (markHeight * markWidth : ℕ)) := by
  have hbytes : 3 * markWidth * markHeight = 3 * (markHeight * markWidth) := by ring
  rw [hbytes] at hfit ⊢
  refine ⟨rowSplitInt_eq hwidth hfit hnw hmax, ?_, ?_, fun x hx => apart_planes hx⟩
  · intro ptrMark img s hrun i
    refine ⟨finishedInt_eq hfit i _, fun hfin => ?_⟩
    have hx : chunkStart markHeight markWidth nw i + (s.loop i).y < markHeight * markWidth :=
      ((PixelInv.run hrun).inChunk i).lt_of_running hfin |>.trans_le (chunkStart_le i.isLt)
    apply And.intro (bodyStepInt_eq hfit i s.img hx)
    rw [offset_add, imgNmbPx_eq]
    exact apart_planes hx
  · intro ptrMark imageData pixels
    exact ⟨stampImageInt_eq ptrMark imageData pixels hfit,
      farmImageInt_eq ptrMark imageData pixels hfit⟩

/-- The widest mark of one row, for two workers. -/
theorem intOffsets_exact_widest :
    rowSplitInt 1 715827882 2 = some (rowSplit 1 715827882 2) :=
  (intOffsets_exact 715827882 1 2 (by decide) (by decide) (by decide) (by decide)).1

end WaterMark.Pixels
