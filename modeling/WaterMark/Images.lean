import Mathlib.Data.List.GetD
import Mathlib.Data.List.Nodup

/-! # Pointers and the images of the stream -/

namespace WaterMark

abbrev Ptr := ℕ

abbrev NULL : Ptr := 0

/-- The images that `main` loads: the `CImg` objects in stream order, and the
pixel array that `data()` returns for each object. The pixel arrays are pairwise
distinct and no pointer is null. -/
structure ImageStream where
  imgVector : List Ptr
  data : Ptr → Ptr
  img_ne_null : ∀ p ∈ imgVector, p ≠ NULL
  data_ne_null : ∀ p ∈ imgVector, data p ≠ NULL
  data_nodup : (imgVector.map data).Nodup

namespace ImageStream
variable (st : ImageStream)

/-- `main` pushes `image->data()` beside each image. -/
def dataImgVector : List Ptr := st.imgVector.map st.data

def size : ℕ := st.imgVector.length

@[simp] theorem length_imgVector : st.imgVector.length = st.size := rfl

theorem img_nodup : st.imgVector.Nodup := st.data_nodup.of_map

/-- `imgVector[j]`. -/
def img (j : ℕ) : Ptr := st.imgVector.getD j NULL

/-- `dataImgVector[j]`. -/
def pix (j : ℕ) : Ptr := st.dataImgVector.getD j NULL

theorem img_eq {j : ℕ} (hj : j < st.size) : st.img j = st.imgVector[j] :=
  List.getD_eq_getElem _ _ hj

theorem pix_eq {j : ℕ} (hj : j < st.size) : st.pix j = st.data (st.img j) := by
  have hj' : j < st.dataImgVector.length := by simpa [dataImgVector] using hj
  rw [pix, List.getD_eq_getElem _ _ hj', img_eq st hj]
  exact List.getElem_map st.data

theorem img_ne {j : ℕ} (hj : j < st.size) : st.img j ≠ NULL := by
  rw [img_eq st hj]
  exact st.img_ne_null _ (List.getElem_mem hj)

theorem pix_ne {j : ℕ} (hj : j < st.size) : st.pix j ≠ NULL := by
  rw [pix_eq st hj, img_eq st hj]
  exact st.data_ne_null _ (List.getElem_mem hj)

theorem img_inj {j k : ℕ} (hj : j < st.size) (hk : k < st.size) : st.img j = st.img k ↔ j = k := by
  rw [img_eq st hj, img_eq st hk]
  exact st.img_nodup.getElem_inj_iff

theorem pix_inj {j k : ℕ} (hj : j < st.size) (hk : k < st.size) : st.pix j = st.pix k ↔ j = k := by
  constructor
  · intro h
    rw [pix_eq st hj, pix_eq st hk, img_eq st hj, img_eq st hk] at h
    apply st.data_nodup.getElem_inj_iff.mp
    rw [List.getElem_map, List.getElem_map]
    · exact h
    · simpa using hk
    · simpa using hj
  · rintro rfl
    rfl

theorem map_img : (List.range st.size).map st.img = st.imgVector := by
  apply List.ext_getElem
  · simp
  · intro j hj hj'
    rw [List.getElem_map, List.getElem_range]
    exact st.img_eq hj'

end ImageStream

/-- Streams of one, two and six images, for runs on fixed inputs. -/
def oneImage : ImageStream := ⟨[1], fun _ => 2, by decide, by decide, by decide⟩

def twoImages : ImageStream := ⟨[1, 3], fun p => p + 1, by decide, by decide, by decide⟩

def sixImages : ImageStream :=
  ⟨[1, 3, 5, 7, 9, 11], fun p => p + 1, by decide, by decide, by decide⟩

end WaterMark
