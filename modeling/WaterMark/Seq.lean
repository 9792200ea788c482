import WaterMark.Memory

/-! # The sequential program

The images are stamped and saved one after the other.
-/

namespace WaterMark.Seq
open Pixels

def savePath (i : ℤ) : String := "markedImage/img_" ++ toString i ++ "_Seq.jpg"

/-- One round of the loop over `imageToMark`. -/
def stampAndSave (st : ImageStream) (ptrMark : Buffer) (heightMark widthMark : ℤ)
    (mem : Memory Unit Unit) (i : ℕ) : Memory Unit Unit :=
  let mem := mem.write (st.pix i) (seqLoop ptrMark heightMark widthMark (mem.pixels (st.pix i))).img
  mem.record () [.save i (savePath i) (st.img i) (mem.pixels (st.data (st.img i)))]

def run (st : ImageStream) (ptrMark : Buffer) (heightMark widthMark : ℤ) (pixels : Ptr → Buffer) :
    Memory Unit Unit :=
  (List.range st.size).foldl (stampAndSave st ptrMark heightMark widthMark) ⟨pixels, []⟩

def output (st : ImageStream) (ptrMark : Buffer) (heightMark widthMark : ℤ)
    (pixels : Ptr → Buffer) : List (ℤ × Buffer) :=
  ((run st ptrMark heightMark widthMark pixels).events.map Prod.snd).filterMap Event.output

/-- Image `k` as the sequential loop stamps it. -/
def stamped (st : ImageStream) (ptrMark : Buffer) (heightMark widthMark : ℤ)
    (pixels : Ptr → Buffer) (k : ℕ) : ℤ × Buffer :=
  (k, (seqLoop ptrMark heightMark widthMark (pixels (st.pix k))).img)

variable (st : ImageStream) (ptrMark : Buffer) (heightMark widthMark : ℤ) (pixels : Ptr → Buffer)

/-- After `n` rounds the first `n` images are saved and the others untouched. -/
private theorem rounds {n : ℕ} (hn : n ≤ st.size) :
    let mem := (List.range n).foldl (stampAndSave st ptrMark heightMark widthMark) ⟨pixels, []⟩
    (∀ k, n ≤ k → k < st.size → mem.pixels (st.pix k) = pixels (st.pix k)) ∧
      (mem.events.map Prod.snd).filterMap Event.output =
        (List.range n).map (stamped st ptrMark heightMark widthMark pixels) := by
  induction n with
  | zero => exact ⟨fun k _ _ => rfl, rfl⟩
  | succ n ih =>
    rcases ih (by omega) with ⟨hkept, hout⟩
    rw [List.range_succ, List.foldl_append, List.map_append, List.foldl_cons, List.foldl_nil]
    generalize (List.range n).foldl (stampAndSave st ptrMark heightMark widthMark) _ = mem at *
    have hpix : st.data (st.img n) = st.pix n := (st.pix_eq (by omega)).symm
    constructor
    · intro k hnk hk
      have hne : st.pix k ≠ st.pix n := fun he => by
        have := (st.pix_inj hk (by omega)).mp he
        omega
      simp only [stampAndSave, Memory.record, Memory.write, Function.update_of_ne hne]
      exact hkept k (by omega) hk
    · simp only [stampAndSave, Memory.record, Memory.write, hpix, Function.update_self,
        List.map_append, List.filterMap_append, hout, hkept n le_rfl (by omega)]
      rfl

theorem output_eq : output st ptrMark heightMark widthMark pixels =
    (List.range st.size).map (stamped st ptrMark heightMark widthMark pixels) :=
  (rounds st ptrMark heightMark widthMark pixels le_rfl).2

end WaterMark.Seq
