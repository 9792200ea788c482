import Mathlib.Data.Int.Order.Basic
import Mathlib.Logic.Function.Iterate
import WaterMark.Images

/-! # Loading the images

`main` of the farm and of three timing versions fills a vector of images and a
vector of their pixel arrays, and the emitter reads both by the index of the
first. Only the farm keeps them in step and to the number of images asked for.
-/

namespace WaterMark.Loading

structure Loaded where
  allocated : ℕ
  imgVector : List Ptr
  dataVector : List Ptr
deriving DecidableEq

def Loaded.start : Loaded := ⟨0, [], []⟩

inductive Version where
  | farm
  | farmTest
  | mapTest
  | ffFarmTest
deriving DecidableEq

section
variable (alloc : ℕ → Ptr) (data : Ptr → Ptr)

/-- A new image, the one that the allocator returns next, in the vector of
images only. -/
def pushImage (s : Loaded) : Loaded :=
  ⟨s.allocated + 1, s.imgVector ++ [alloc s.allocated], s.dataVector⟩

def pushBoth (s : Loaded) : Loaded :=
  ⟨s.allocated + 1, s.imgVector ++ [alloc s.allocated], s.dataVector ++ [data (alloc s.allocated)]⟩

/-- `for (int j = first; j < imageNumber; j++)` over `pushBoth`. -/
def loadLoop (first imageNumber : ℤ) (s : Loaded) : Loaded :=
  (pushBoth alloc data)^[(imageNumber - first).toNat] s

/-- The images that `main` loads. -/
def Version.load (imageNumber : ℤ) : Version → Loaded
  | .farm => loadLoop alloc data 0 imageNumber .start
  | .farmTest => loadLoop alloc data 1 imageNumber (pushImage alloc .start)
  | .mapTest => loadLoop alloc data 1 imageNumber .start
  | .ffFarmTest => loadLoop alloc data 0 imageNumber (pushBoth alloc data .start)

end

/-- What the emitter reads in its loop over `j < imgVector.size()`: the image and
the pixel array at `j`, the latter `none` past the end of its vector. -/
def Loaded.emitted (s : Loaded) : List (Option Ptr × Option Ptr) :=
  (List.range s.imgVector.length).map fun j => (s.imgVector[j]?, s.dataVector[j]?)

/-- Both vectors have `imageNumber` entries that belong together, and as many
tasks are emitted, each with the pixels of its own image. -/
structure Paired (data : Ptr → Ptr) (imageNumber : ℤ) (s : Loaded) : Prop where
  images : s.imgVector.length = imageNumber
  pixels : s.dataVector.length = imageNumber
  aligned : ∀ (j : ℕ) (p : Ptr), s.imgVector[j]? = some p → s.dataVector[j]? = some (data p)
  tasks : ∀ t ∈ s.emitted, ∃ p, t = (some p, some (data p))
  processed : s.emitted.length = imageNumber

/-! ## The vectors -/

section
variable {alloc : ℕ → Ptr} {data : Ptr → Ptr} {s : Loaded}

def newImages (alloc : ℕ → Ptr) (k n : ℕ) : List Ptr := (List.range n).map fun i => alloc (k + i)

@[simp] theorem length_newImages (k n : ℕ) : (newImages alloc k n).length = n := by
  simp [newImages]

theorem newImages_succ (k n : ℕ) : newImages alloc k (n + 1) =
    newImages alloc k n ++ [alloc (k + n)] := by
  simp [newImages, List.range_succ]

theorem getElem?_newImages (k n j : ℕ) :
    (newImages alloc k n)[j]? = if j < n then some (alloc (k + j)) else none := by
  rw [newImages, List.getElem?_map]
  by_cases hj : j < n
  · rw [List.getElem?_range hj, if_pos hj, Option.map_some]
  · rw [List.getElem?_eq_none (by simpa using hj), if_neg hj, Option.map_none]

theorem iterate_pushBoth (n : ℕ) : (pushBoth alloc data)^[n] s =
    ⟨s.allocated + n, s.imgVector ++ newImages alloc s.allocated n,
      s.dataVector ++ (newImages alloc s.allocated n).map data⟩ := by
  induction n with
  | zero => simp [newImages]
  | succ n ih => simp [Function.iterate_succ_apply', ih, pushBoth, newImages_succ, Nat.add_assoc]

theorem load_farm (imageNumber : ℤ) : Version.load alloc data imageNumber .farm =
    ⟨imageNumber.toNat, newImages alloc 0 imageNumber.toNat,
      (newImages alloc 0 imageNumber.toNat).map data⟩ := by
  simp [Version.load, loadLoop, iterate_pushBoth, Loaded.start]

theorem load_farmTest (imageNumber : ℤ) : Version.load alloc data imageNumber .farmTest =
    ⟨1 + (imageNumber - 1).toNat, alloc 0 :: newImages alloc 1 (imageNumber - 1).toNat,
      (newImages alloc 1 (imageNumber - 1).toNat).map data⟩ := by
  simp [Version.load, loadLoop, iterate_pushBoth, pushImage, Loaded.start]

theorem load_mapTest (imageNumber : ℤ) : Version.load alloc data imageNumber .mapTest =
    ⟨(imageNumber - 1).toNat, newImages alloc 0 (imageNumber - 1).toNat,
      (newImages alloc 0 (imageNumber - 1).toNat).map data⟩ := by
  simp [Version.load, loadLoop, iterate_pushBoth, Loaded.start]

theorem load_ffFarmTest (imageNumber : ℤ) : Version.load alloc data imageNumber .ffFarmTest =
    ⟨1 + imageNumber.toNat, alloc 0 :: newImages alloc 1 imageNumber.toNat,
      data (alloc 0) :: (newImages alloc 1 imageNumber.toNat).map data⟩ := by
  simp [Version.load, loadLoop, iterate_pushBoth, pushBoth, Loaded.start]

/-- The timing version of the farm pairs each image with the pixels of the next
one, and reads the last pixels past the end. -/
theorem emitted_farmTest {imageNumber : ℤ} {j : ℕ} (hj : j < imageNumber) :
    (Version.load alloc data imageNumber .farmTest).emitted[j]? =
      some (some (alloc j),
        if (j : ℤ) + 1 < imageNumber then some (data (alloc (j + 1))) else none) := by
  have hlt : j < (imageNumber - 1).toNat + 1 := by omega
  have himage : (alloc 0 :: newImages alloc 1 (imageNumber - 1).toNat)[j]? = some (alloc j) := by
    cases j with
    | zero => rfl
    | succ j =>
      rw [List.getElem?_cons_succ, getElem?_newImages, if_pos (by omega), Nat.add_comm]
  have hpixels : ((newImages alloc 1 (imageNumber - 1).toNat).map data)[j]? =
      if (j : ℤ) + 1 < imageNumber then some (data (alloc (j + 1))) else none := by
    rw [List.getElem?_map, getElem?_newImages]
    by_cases hnext : (j : ℤ) + 1 < imageNumber
    · rw [if_pos (by omega), if_pos hnext, Option.map_some, Nat.add_comm]
    · rw [if_neg (by omega), if_neg hnext, Option.map_none]
  rw [load_farmTest, Loaded.emitted, List.getElem?_map, List.getElem?_range (by simpa using hlt),
    Option.map_some, himage, hpixels]

theorem paired_of_map {imageNumber : ℤ} {images : List Ptr} {k : ℕ}
    (hlength : images.length = imageNumber) :
    Paired data imageNumber ⟨k, images, images.map data⟩ where
  images := hlength
  pixels := by rw [List.length_map]; exact hlength
  aligned j p hp := by rw [List.getElem?_map, hp, Option.map_some]
  tasks t ht := by
    obtain ⟨j, hj, rfl⟩ := List.mem_map.mp ht
    have hlt : j < images.length := List.mem_range.mp hj
    exact ⟨images[j], by simp [hlt]⟩
  processed := by simpa [Loaded.emitted] using hlength

/-- Whatever the number of images, of the four programs only the farm builds
vectors that belong together and hold the images asked for. -/
theorem load_paired_iff (alloc : ℕ → Ptr) (data : Ptr → Ptr) (version : Version)
    (imageNumber : ℤ) (hn : 1 ≤ imageNumber) :
    Paired data imageNumber (version.load alloc data imageNumber) ↔ version = .farm := by
  constructor
  · intro h
    cases version with
    | farm => rfl
    | farmTest =>
      have hlength := h.pixels
      simp only [load_farmTest, List.length_map, length_newImages] at hlength
      omega
    | mapTest =>
      have hlength := h.images
      simp only [load_mapTest, length_newImages] at hlength
      omega
    | ffFarmTest =>
      have hlength := h.images
      simp only [load_ffFarmTest, List.length_cons, length_newImages] at hlength
      omega
  · rintro rfl
    rw [load_farm]
    exact paired_of_map (by rw [length_newImages]; omega)

theorem load_paired_farm :
    Paired (· + 10) 2 (Version.load (· + 1) (· + 10) 2 .farm) :=
  (load_paired_iff (· + 1) (· + 10) .farm 2 (by decide)).mpr rfl

/-- Two images asked for, at 1 and 2, with pixels at 11 and 12: the timing
version of the farm stamps the second image under the name of the first and
reads past the end for the second; that of the map processes one image; that of
the FastFlow farm three. -/
theorem load_twoImages :
    (Version.load (· + 1) (· + 10) 2 .farmTest).emitted = [(some 1, some 12), (some 2, none)] ∧
    (Version.load (· + 1) (· + 10) 2 .mapTest).emitted = [(some 1, some 11)] ∧
    (Version.load (· + 1) (· + 10) 2 .ffFarmTest).emitted.length = 3 ∧
    ¬ ∀ version : Version, Paired (· + 10) 2 (version.load (· + 1) (· + 10) 2) := by
  refine ⟨by decide, by decide, by decide, fun h => ?_⟩
  have hlength := (h .mapTest).images
  exact absurd hlength (by decide)

end

end WaterMark.Loading
