import Mathlib.Algebra.Order.BigOperators.Group.Finset
import Mathlib.Data.Fintype.Basic
import Mathlib.Logic.Relation
import WaterMark.Library.TaggedLog
import WaterMark.Pixels.Split
import WaterMark.Pixels.Stamped

/-! # The workers' loops on one picture

The loop of a map's worker in atomic steps: test the mark byte, read the three
colour bytes, write them. The loops of all workers of a map run on one picture
in any order; whatever the order, they leave the picture that the sequential
loop leaves.
-/

namespace WaterMark.Pixels

inductive BodyPc where
  | test
  | read
  | write (avg : ℕ)
deriving DecidableEq

/-- The loop counter `y` and the place in the body. -/
structure LoopState where
  y : ℕ
  pc : BodyPc
deriving DecidableEq

def LoopState.start : LoopState := ⟨0, .test⟩

namespace ChunkInfo

/-- The loop condition `y < chunksRow*markWidth` has failed. -/
def finished (c : ChunkInfo) (s : LoopState) : Bool :=
  decide (s.pc = .test) && decide (c.chunksRow * c.markWidth ≤ s.y)

/-- The next atomic step of the loop of `worker`. -/
def bodyStep (c : ChunkInfo) (ptrMarker : Buffer) (s : LoopState) (img : Buffer) :
    LoopState × Buffer :=
  let markOff := c.offset + s.y
  let redOff := markOff
  let greenOff := markOff + c.imgNmbPx
  let blueOff := markOff + 2 * c.imgNmbPx
  match s.pc with
  | .test =>
    if (load ptrMarker markOff).toNat < 50 then (⟨s.y, .read⟩, img) else (⟨s.y + 1, .test⟩, img)
  | .read =>
    let grey := greyValue (load img redOff) (load img greenOff) (load img blueOff)
    (⟨s.y, .write (avgGreyValue grey (load ptrMarker markOff))⟩, img)
  | .write avg =>
    (⟨s.y + 1, .test⟩, store (store (store img redOff avg) greenOff avg) blueOff avg)

def loopRank (c : ChunkInfo) (s : LoopState) : ℕ :=
  match s.pc with
  | .test => 3 * ((c.chunksRow * c.markWidth).toNat - s.y)
  | .read => 3 * ((c.chunksRow * c.markWidth).toNat - s.y - 1) + 2
  | .write _ => 3 * ((c.chunksRow * c.markWidth).toNat - s.y - 1) + 1

theorem loopRank_bodyStep (c : ChunkInfo) (ptrMarker img : Buffer) {s : LoopState}
    (h : c.finished s = false) : c.loopRank (c.bodyStep ptrMarker s img).1 < c.loopRank s := by
  obtain ⟨y, pc⟩ := s
  cases pc with
  | test =>
    have hy : (y : ℤ) < c.chunksRow * c.markWidth := by simpa [finished] using h
    simp only [bodyStep]
    split_ifs <;> simp only [loopRank] <;> omega
  | read => simp only [bodyStep, loopRank]; omega
  | write avg => simp only [bodyStep, loopRank]; omega

theorem bodyStep_ne_start (c : ChunkInfo) (ptrMarker : Buffer) (s : LoopState) (img : Buffer) :
    (c.bodyStep ptrMarker s img).1 ≠ .start := by
  obtain ⟨y, pc⟩ := s
  cases pc with
  | test =>
    simp only [bodyStep]
    split_ifs <;> simp [LoopState.start]
  | read | write avg => simp [bodyStep, LoopState.start]

end ChunkInfo

/-- The chunk handed to worker `i` of `nw`: entry `i` of `infoVector`. -/
def infoVector (markHeight markWidth nw : ℕ) (i : Fin nw) : ChunkInfo :=
  (rowSplit markHeight markWidth nw).get ⟨i, by rw [length_rowSplit]; exact i.isLt⟩

theorem infoVector_eq (h w : ℕ) {nw : ℕ} (i : Fin nw) : infoVector h w nw i = chunk h w nw i := by
  simp [infoVector, rowSplit_eq]

structure PixelState (nw : ℕ) where
  loop : Fin nw → LoopState
  img : Buffer

inductive PixelStep (ptrMark : Buffer) {nw : ℕ} (info : Fin nw → ChunkInfo) :
    PixelState nw → PixelState nw → Prop
  | worker (s : PixelState nw) (i : Fin nw) (h : (info i).finished (s.loop i) = false) :
      PixelStep ptrMark info s
        ⟨Function.update s.loop i ((info i).bodyStep ptrMark (s.loop i) s.img).1,
          ((info i).bodyStep ptrMark (s.loop i) s.img).2⟩

/-! ## The invariant of one step -/

section Invariant
variable {ptrMark orig : Buffer} {h w nw : ℕ}

def Done (h w nw : ℕ) (loop : Fin nw → LoopState) (x : ℕ) : Prop :=
  ∃ i : Fin nw, chunkStart h w nw i ≤ x ∧ x < chunkStart h w nw i + (loop i).y

/-- A loop stays in its chunk; between test and write it is at a dark pixel, and
the value to be written is the one for the original picture. -/
structure InChunk (ptrMark orig : Buffer) (h w nw i : ℕ) (s : LoopState) : Prop where
  bound : chunkStart h w nw i + s.y ≤ chunkStart h w nw (i + 1)
  inside : s.pc ≠ .test → chunkStart h w nw i + s.y < chunkStart h w nw (i + 1) ∧
    Dark ptrMark (chunkStart h w nw i + s.y)
  value : ∀ avg, s.pc = .write avg →
    avg = pixelValue ptrMark orig (h * w) (chunkStart h w nw i + s.y)

theorem InChunk.start {i : ℕ} : InChunk ptrMark orig h w nw i .start where
  bound := chunkStart_mono h w nw (Nat.le_succ i)
  inside hpc := absurd rfl hpc
  value avg hpc := by simp [LoopState.start] at hpc

theorem finished_iff {i : Fin nw} {s : LoopState} : (infoVector h w nw i).finished s = true ↔
    s.pc = .test ∧ chunkStart h w nw (i + 1) ≤ chunkStart h w nw i + s.y := by
  have hcount : ((rowsOf h nw i : ℕ) : ℤ) * (w : ℕ) ≤ s.y ↔ rowsOf h nw i * w ≤ s.y := by
    rw [← Nat.cast_mul, Nat.cast_le]
  simp only [infoVector_eq, ChunkInfo.finished, chunk, Bool.and_eq_true, decide_eq_true_eq,
    hcount, chunkStart_succ, Nat.add_le_add_iff_left]

theorem InChunk.lt_of_running {i : Fin nw} {s : LoopState} (hi : InChunk ptrMark orig h w nw i s)
    (hrun : (infoVector h w nw i).finished s = false) :
    chunkStart h w nw i + s.y < chunkStart h w nw (i + 1) := by
  by_contra hge
  by_cases hpc : s.pc = .test
  · exact Bool.false_ne_true (hrun ▸ finished_iff.mpr ⟨hpc, by omega⟩)
  · exact hge (hi.inside hpc).1

theorem offset_add (i : Fin nw) (y : ℕ) :
    (infoVector h w nw i).offset + (y : ℤ) = (chunkStart h w nw i + y : ℕ) := by
  rw [infoVector_eq]
  simp [chunk, chunkStart]

theorem imgNmbPx_eq (i : Fin nw) : (infoVector h w nw i).imgNmbPx = (h * w : ℕ) := by
  rw [infoVector_eq]
  rfl

/-- The steps of worker `i` in terms of the pixel it has reached. -/
theorem bodyStep_eq (i : Fin nw) (s : LoopState) (img : Buffer) :
    (infoVector h w nw i).bodyStep ptrMark s img =
      let x := chunkStart h w nw i + s.y
      match s.pc with
      | .test => if Dark ptrMark x then (⟨s.y, .read⟩, img) else (⟨s.y + 1, .test⟩, img)
      | .read => (⟨s.y, .write (pixelValue ptrMark img (h * w) x)⟩, img)
      | .write avg => (⟨s.y + 1, .test⟩, setPixel img (h * w) x avg) := by
  simp only [ChunkInfo.bodyStep, offset_add, imgNmbPx_eq, load_pixelValue, store_setPixel,
    load_lt_iff_dark]

/-- The next pixel of a running loop has not been passed by any worker. -/
theorem not_done_next {loop : Fin nw → LoopState} {i : Fin nw}
    (hloops : ∀ j : Fin nw, InChunk ptrMark orig h w nw j (loop j))
    (hlt : chunkStart h w nw i + (loop i).y < chunkStart h w nw (i + 1)) :
    ¬ Done h w nw loop (chunkStart h w nw i + (loop i).y) := by
  rintro ⟨j, hj, hjlt⟩
  have hbound := (hloops j).bound
  have hij : (i : ℕ) = j :=
    piece_unique (chunkStart_mono h w nw) ⟨Nat.le_add_right _ _, hlt⟩ ⟨hj, by omega⟩
  obtain rfl : i = j := Fin.ext hij
  omega

theorem done_update_same {loop : Fin nw → LoopState} {i : Fin nw} {s : LoopState}
    (hy : s.y = (loop i).y) (x : ℕ) :
    Done h w nw loop x ↔ Done h w nw (Function.update loop i s) x := by
  have hcount (j : Fin nw) : (Function.update loop i s j).y = (loop j).y := by
    by_cases hj : j = i
    · subst hj; simp [hy]
    · simp [hj]
  simp only [Done, hcount]

theorem done_update_succ {loop : Fin nw → LoopState} {i : Fin nw} {s : LoopState}
    (hy : s.y = (loop i).y + 1) (x : ℕ) :
    (Done h w nw loop x ∨ x = chunkStart h w nw i + (loop i).y) ↔
      Done h w nw (Function.update loop i s) x := by
  constructor
  · rintro (⟨j, hj⟩ | rfl)
    · by_cases hji : j = i
      · subst hji
        exact ⟨j, hj.1, by rw [Function.update_self]; omega⟩
      · exact ⟨j, hj.1, by rw [Function.update_of_ne hji]; exact hj.2⟩
    · exact ⟨i, by omega, by rw [Function.update_self]; omega⟩
  · rintro ⟨j, hj⟩
    by_cases hji : j = i
    · subst hji
      rw [Function.update_self] at hj
      by_cases hx : x = chunkStart h w nw j + (loop j).y
      · exact Or.inr hx
      · exact Or.inl ⟨j, hj.1, by omega⟩
    · rw [Function.update_of_ne hji] at hj
      exact Or.inl ⟨j, hj⟩

theorem InChunk.next {i : ℕ} {y : ℕ} (hlt : chunkStart h w nw i + y < chunkStart h w nw (i + 1)) :
    InChunk ptrMark orig h w nw i ⟨y + 1, .test⟩ where
  bound := hlt
  inside hpc := absurd rfl hpc
  value avg hpc := by simp at hpc

/-- One step of one worker: the picture stays stamped on the pixels done, and
the worker's loop stays in order. -/
theorem bodyStep_stampedOn {loop : Fin nw → LoopState} {img : Buffer} {i : Fin nw}
    (hst : StampedOn ptrMark orig (h * w) (Done h w nw loop) img)
    (hloops : ∀ j : Fin nw, InChunk ptrMark orig h w nw j (loop j))
    (hrun : (infoVector h w nw i).finished (loop i) = false) :
    let r := (infoVector h w nw i).bodyStep ptrMark (loop i) img
    StampedOn ptrMark orig (h * w) (Done h w nw (Function.update loop i r.1)) r.2 ∧
      InChunk ptrMark orig h w nw i r.1 := by
  have hi := hloops i
  have hlt := hi.lt_of_running hrun
  have hxN : chunkStart h w nw i + (loop i).y < h * w :=
    lt_of_lt_of_le hlt (chunkStart_le i.isLt)
  have hnot := not_done_next hloops hlt
  have hsame {s : LoopState} (hy : s.y = (loop i).y) :=
    hst.congr fun z _ => done_update_same (s := s) hy z
  rw [bodyStep_eq]
  cases hpc : (loop i).pc with
  | test =>
    by_cases hd : Dark ptrMark (chunkStart h w nw i + (loop i).y)
    · simp only [if_pos hd]
      exact ⟨hsame rfl, hi.bound, fun _ => ⟨hlt, hd⟩, fun avg hw => by simp at hw⟩
    · simp only [if_neg hd]
      exact ⟨(hst.skip hd).congr fun z _ => done_update_succ rfl z, InChunk.next hlt⟩
  | read =>
    simp only [hst.pixelValue_eq hxN hnot]
    have hin := hi.inside (by simp [hpc])
    refine ⟨hsame rfl, hi.bound, fun _ => hin, fun avg hw => ?_⟩
    exact (BodyPc.write.inj hw).symm
  | write avg =>
    have hin := hi.inside (by simp [hpc])
    simp only [hi.value avg hpc]
    exact ⟨(hst.write hxN hin.2).congr fun z _ => done_update_succ rfl z, InChunk.next hlt⟩

/-- What holds of the loops and the picture in every run from `orig`. -/
structure PixelInv (ptrMark orig : Buffer) (h w : ℕ) {nw : ℕ} (s : PixelState nw) : Prop where
  stampedOn : StampedOn ptrMark orig (h * w) (Done h w nw s.loop) s.img
  inChunk : ∀ i : Fin nw, InChunk ptrMark orig h w nw i (s.loop i)

theorem PixelInv.start : PixelInv ptrMark orig h w (⟨fun _ : Fin nw => .start, orig⟩) where
  stampedOn := StampedOn.start.congr fun x _ => by
    simp only [false_iff]
    rintro ⟨i, hle, hlt⟩
    simp only [LoopState.start] at hlt
    omega
  inChunk _ := InChunk.start

theorem PixelInv.step {s s' : PixelState nw} (hI : PixelInv ptrMark orig h w s)
    (hs : PixelStep ptrMark (infoVector h w nw) s s') : PixelInv ptrMark orig h w s' := by
  obtain ⟨i, hrun⟩ := hs
  obtain ⟨hst, hloops⟩ := bodyStep_stampedOn hI.stampedOn hI.inChunk hrun
  refine ⟨hst, fun j => ?_⟩
  by_cases hj : j = i
  · subst hj
    simpa using hloops
  · simpa [hj] using hI.inChunk j

/-- When every worker has passed its chunk, the picture is the sequential one. -/
theorem img_eq_seqLoop (hnw : 0 < nw) {loop : Fin nw → LoopState} {img : Buffer}
    (hst : StampedOn ptrMark orig (h * w) (Done h w nw loop) img)
    (hend : ∀ i : Fin nw, chunkStart h w nw (i + 1) ≤ chunkStart h w nw i + (loop i).y) :
    img = (seqLoop ptrMark h w orig).img := by
  apply hst.unique (stampedOn_seqLoop ptrMark orig h w)
  intro x hx
  obtain ⟨i, hi, hle, hlt⟩ := exists_owner hnw hx
  have hpast : chunkStart h w nw (i + 1) ≤ chunkStart h w nw i + (loop ⟨i, hi⟩).y := hend ⟨i, hi⟩
  exact iff_of_true ⟨⟨i, hi⟩, hle, hlt.trans_le hpast⟩ trivial

end Invariant

def PixelState.rank {nw : ℕ} (info : Fin nw → ChunkInfo) (s : PixelState nw) : ℕ :=
  ∑ i, (info i).loopRank (s.loop i)

theorem PixelStep.rank_lt {ptrMark : Buffer} {nw : ℕ} {info : Fin nw → ChunkInfo}
    {s s' : PixelState nw} (h : PixelStep ptrMark info s s') : s'.rank info < s.rank info := by
  obtain ⟨i, hrun⟩ := h
  have hi := (info i).loopRank_bodyStep ptrMark s.img hrun
  refine Finset.sum_lt_sum (fun j _ => ?_) ⟨i, Finset.mem_univ i, by simpa using hi⟩
  by_cases hj : j = i
  · subst hj
    simpa using hi.le
  · simp [hj]

variable {ptrMark img : Buffer} {h w nw : ℕ}

theorem PixelInv.run {s : PixelState nw}
    (hrun : Relation.ReflTransGen (PixelStep ptrMark (infoVector h w nw))
      ⟨fun _ => .start, img⟩ s) : PixelInv ptrMark img h w s := by
  induction hrun with
  | refl => exact PixelInv.start
  | tail _ hstep ih => exact ih.step hstep

/-- The loops of the workers always come to an end. -/
theorem exists_finished (s : PixelState nw) :
    ∃ t, Relation.ReflTransGen (PixelStep ptrMark (infoVector h w nw)) s t ∧
      ∀ i, (infoVector h w nw i).finished (t.loop i) = true := by
  induction hn : s.rank (infoVector h w nw) using Nat.strong_induction_on generalizing s with
  | _ n ih =>
    by_cases hfin : ∀ i, (infoVector h w nw i).finished (s.loop i) = true
    · exact ⟨s, .refl, hfin⟩
    · simp only [not_forall, Bool.not_eq_true] at hfin
      obtain ⟨i, hi⟩ := hfin
      have hstep : PixelStep ptrMark (infoVector h w nw) s _ := .worker s i hi
      obtain ⟨t, ht, hend⟩ := ih _ (hn ▸ hstep.rank_lt) _ rfl
      exact ⟨t, .head hstep ht, hend⟩

/-- Map stamping refines sequential stamping: in every interleaving of the steps
of the workers' loops, once all loops have finished the picture is byte for
byte the one of the sequential loop; and every run can be brought to this end. -/
theorem chunkLoops_refine_seqLoop (ptrMark img : Buffer) (markHeight markWidth nw : ℕ)
    (hnw : 1 ≤ nw) (s : PixelState nw)
    (hrun : Relation.ReflTransGen (PixelStep ptrMark (infoVector markHeight markWidth nw))
      ⟨fun _ => .start, img⟩ s) :
    ((∀ i, (infoVector markHeight markWidth nw i).finished (s.loop i) = true) →
        s.img = (seqLoop ptrMark markHeight markWidth img).img) ∧
      ∃ t, Relation.ReflTransGen (PixelStep ptrMark (infoVector markHeight markWidth nw)) s t ∧
        ∀ i, (infoVector markHeight markWidth nw i).finished (t.loop i) = true := by
  have hI := PixelInv.run hrun
  refine ⟨fun hend => img_eq_seqLoop hnw hI.stampedOn fun i => ?_, exists_finished s⟩
  exact (finished_iff.mp (hend i)).2

/-- Two workers on a mark of two rows, in each of them a dark pixel and a light one, take
turns. -/
theorem chunkLoops_refine_seqLoop_twoRows :
    [50, 100, 74, 100, 50, 100, 74, 100, 50, 100, 74, 100] =
      (seqLoop [0, 200, 49, 50] 2 2 (List.replicate 12 100)).img :=
  (chunkLoops_refine_seqLoop [0, 200, 49, 50] (List.replicate 12 100) 2 2 2 (by decide) _
    (.tail (.tail (.tail (.tail (.tail (.tail (.tail (.tail .refl
      (.worker _ 0 (by decide))) (.worker _ 1 (by decide))) (.worker _ 0 (by decide)))
      (.worker _ 1 (by decide))) (.worker _ 0 (by decide))) (.worker _ 1 (by decide)))
      (.worker _ 0 (by decide))) (.worker _ 1 (by decide)))).1 (by decide)

end WaterMark.Pixels
