import Mathlib.Logic.ExistsUnique
import WaterMark.Pixels.Split

/-! # The row split tiles the mark

The split as each program with maps makes it. The chunks follow each other from
the first pixel of the mark to its last one, the larger ones first.
-/

namespace WaterMark.Pixels

def ChunkInfo.Holds (c : ChunkInfo) (x : ℤ) : Prop :=
  c.offset ≤ x ∧ x < c.offset + c.chunksRow * c.markWidth

/-- The chunks cut the pixels of the mark into consecutive runs of rows, one for
each worker, whose sizes differ by one row at most. -/
structure RowTiling (markHeight markWidth n : ℕ) (chunks : List ChunkInfo) : Prop where
  length_eq : chunks.length = n
  width_eq : ∀ c ∈ chunks, c.markWidth = markWidth
  first : ∀ c : ChunkInfo, chunks[0]? = some c → c.offset = 0
  next : ∀ (i : ℕ) (c c' : ChunkInfo), chunks[i]? = some c → chunks[i + 1]? = some c' →
    c'.offset = c.offset + c.chunksRow * markWidth
  last : ∀ c : ChunkInfo, chunks[n - 1]? = some c →
    c.offset + c.chunksRow * markWidth = (markHeight : ℤ) * markWidth
  nonneg : ∀ c ∈ chunks, 0 ≤ c.chunksRow
  balanced : ∀ (i j : ℕ) (c c' : ChunkInfo), i ≤ j → chunks[i]? = some c →
    chunks[j]? = some c' → c'.chunksRow ≤ c.chunksRow ∧ c.chunksRow ≤ c'.chunksRow + 1
  owner : ∀ x : ℤ, 0 ≤ x → x < (markHeight : ℤ) * markWidth →
    ∃! i : ℕ, ∃ c : ChunkInfo, chunks[i]? = some c ∧ 0 < c.chunksRow * c.markWidth ∧ c.Holds x

/-! ## The chunks of `rowSplit` -/

variable {h w n : ℕ}

theorem getElem?_rowSplit {i : ℕ} {c : ChunkInfo} :
    (rowSplit h w n)[i]? = some c ↔ i < n ∧ c = chunk h w n i := by
  rw [rowSplit_eq, List.getElem?_map]
  by_cases hi : i < n
  · simp [hi, eq_comm]
  · simp [hi]

theorem mem_rowSplit {c : ChunkInfo} : c ∈ rowSplit h w n ↔ ∃ i < n, c = chunk h w n i := by
  rw [List.mem_iff_getElem?]
  simp only [getElem?_rowSplit]

theorem chunk_offset (h w n i : ℕ) : (chunk h w n i).offset = chunkStart h w n i := rfl

theorem chunk_end (h w n i : ℕ) :
    (chunk h w n i).offset + (chunk h w n i).chunksRow * w = chunkStart h w n (i + 1) := by
  rw [chunkStart_succ, chunk_offset]
  simp [chunk]

theorem chunk_holds_iff {i x : ℕ} :
    (chunk h w n i).Holds x ↔ chunkStart h w n i ≤ x ∧ x < chunkStart h w n (i + 1) := by
  have hend : (chunk h w n i).offset + (chunk h w n i).chunksRow * (chunk h w n i).markWidth =
      chunkStart h w n (i + 1) := chunk_end h w n i
  rw [ChunkInfo.Holds, hend, chunk_offset]
  norm_cast

/-- Later workers receive no more rows, and one row less at most. -/
theorem rowsOf_balanced {i j : ℕ} (hij : i ≤ j) :
    rowsOf h n j ≤ rowsOf h n i ∧ rowsOf h n i ≤ rowsOf h n j + 1 := by
  simp only [rowsOf]
  split_ifs <;> omega

theorem rowSplit_owner (hn : 1 ≤ n) {x : ℕ} (hx : x < h * w) :
    ∃! i : ℕ, ∃ c : ChunkInfo, (rowSplit h w n)[i]? = some c ∧
      0 < c.chunksRow * c.markWidth ∧ c.Holds x := by
  obtain ⟨i, hi, hpiece⟩ := exists_owner hn hx
  have hholds := chunk_holds_iff.mpr hpiece
  -- a chunk that holds a pixel is not empty
  have hpos : 0 < (chunk h w n i).chunksRow * (chunk h w n i).markWidth := by
    have := hholds.1.trans_lt hholds.2
    omega
  refine ⟨i, ⟨_, getElem?_rowSplit.mpr ⟨hi, rfl⟩, hpos, hholds⟩, ?_⟩
  rintro j ⟨c, hc, -, hxc⟩
  obtain ⟨-, rfl⟩ := getElem?_rowSplit.mp hc
  exact piece_unique (chunkStart_mono h w n) (chunk_holds_iff.mp hxc) hpiece

theorem rowSplit_tiling (hn : 1 ≤ n) : RowTiling h w n (rowSplit h w n) where
  length_eq := length_rowSplit h w n
  width_eq c hc := by
    obtain ⟨i, -, rfl⟩ := mem_rowSplit.mp hc
    rfl
  first c hc := by
    obtain ⟨-, rfl⟩ := getElem?_rowSplit.mp hc
    simp [chunk_offset, chunkStart]
  next i c c' hc hc' := by
    obtain ⟨-, rfl⟩ := getElem?_rowSplit.mp hc
    obtain ⟨-, rfl⟩ := getElem?_rowSplit.mp hc'
    rw [chunk_end, chunk_offset]
  last c hc := by
    obtain ⟨-, rfl⟩ := getElem?_rowSplit.mp hc
    rw [chunk_end, Nat.sub_add_cancel hn, chunkStart, rowsBefore_all h hn]
    push_cast
    rfl
  nonneg c hc := by
    obtain ⟨i, -, rfl⟩ := mem_rowSplit.mp hc
    exact Int.natCast_nonneg (rowsOf h n i)
  balanced i j c c' hij hc hc' := by
    obtain ⟨-, rfl⟩ := getElem?_rowSplit.mp hc
    obtain ⟨-, rfl⟩ := getElem?_rowSplit.mp hc'
    have hrows := rowsOf_balanced (h := h) (n := n) hij
    simp only [chunk]
    omega
  owner x h0 hx := by
    lift x to ℕ using h0
    exact rowSplit_owner hn (by exact_mod_cast hx)

/-! ## The four programs -/

/-- `infoVector` of the map. -/
def mapInfo (markHeight markWidth : ℤ) (nw : ℕ) : List ChunkInfo := rowSplit markHeight markWidth nw

/-- `infoChunk` of the FastFlow map. -/
def ffMapInfo (markHeight markWidth : ℤ) (nw : ℕ) : List ChunkInfo :=
  rowSplit markHeight markWidth nw

/-- `infoVector` of the FastFlow farm of maps, for the workers of one map. -/
def ffFarmMapInfo (markHeight markWidth : ℤ) (nWorkerMap : ℕ) : List ChunkInfo :=
  rowSplit markHeight markWidth nWorkerMap

/-- Round `k` of the loop on maps: the split starts anew and its chunks go to
the end of `infoVector[k]`. -/
def splitMap (markHeight markWidth : ℤ) (nWorkerMap : ℕ) (infoVector : List (List ChunkInfo))
    (k : ℕ) : List (List ChunkInfo) :=
  infoVector.modify k fun v =>
    ((List.range nWorkerMap).foldl (splitStep markHeight markWidth nWorkerMap)
      ⟨markHeight.tdiv nWorkerMap + 1, 0, v⟩).infoVector

/-- `infoVector` of the farm of maps, at first one empty vector for each map. -/
def farmMapInfo (markHeight markWidth : ℤ) (nmbMap nWorkerMap : ℕ) : List (List ChunkInfo) :=
  (List.range nmbMap).foldl (splitMap markHeight markWidth nWorkerMap) (List.replicate nmbMap [])

/-- The first `k` maps have their chunks, the others have none yet. -/
private theorem getElem?_splitMaps (markHeight markWidth : ℤ) (nWorkerMap nmbMap k i : ℕ) :
    ((List.range k).foldl (splitMap markHeight markWidth nWorkerMap)
      (List.replicate nmbMap []))[i]? =
      if i < nmbMap then
        some (if i < k then rowSplit markHeight markWidth nWorkerMap else [])
      else none := by
  induction k with
  | zero => simp [List.getElem?_replicate]
  | succ k ih =>
    rw [List.range_succ, List.foldl_append, List.foldl_cons, List.foldl_nil, splitMap,
      List.getElem?_modify, ih]
    by_cases hk : k = i
    · subst hk
      by_cases hlt : k < nmbMap
      · simp [hlt, rowSplit]
      · simp [hlt]
    · have hlt : i < k + 1 ↔ i < k := by omega
      simp [hk, hlt]

theorem farmMapInfo_eq (markHeight markWidth : ℤ) (nmbMap nWorkerMap : ℕ) :
    farmMapInfo markHeight markWidth nmbMap nWorkerMap =
      List.replicate nmbMap (rowSplit markHeight markWidth nWorkerMap) := by
  apply List.ext_getElem?
  intro i
  rw [farmMapInfo, getElem?_splitMaps, List.getElem?_replicate]
  split_ifs <;> rfl

/-- In each of the four programs with maps the split tiles the mark, for any mark
and any positive number of workers. -/
theorem rowSplit_tiles (markHeight markWidth nmbMap n : ℕ) (hn : 1 ≤ n) :
    RowTiling markHeight markWidth n (mapInfo markHeight markWidth n) ∧
    RowTiling markHeight markWidth n (ffMapInfo markHeight markWidth n) ∧
    RowTiling markHeight markWidth n (ffFarmMapInfo markHeight markWidth n) ∧
    (farmMapInfo markHeight markWidth nmbMap n).length = nmbMap ∧
    ∀ v ∈ farmMapInfo markHeight markWidth nmbMap n, RowTiling markHeight markWidth n v := by
  have htile : RowTiling markHeight markWidth n (rowSplit markHeight markWidth n) :=
    rowSplit_tiling hn
  refine ⟨htile, htile, htile, ?_⟩
  rw [farmMapInfo_eq]
  apply And.intro (List.length_replicate ..)
  intro v hv
  rw [List.eq_of_mem_replicate hv]
  exact htile

/-- Three workers on a mark of two rows: the last chunk is empty. -/
theorem rowSplit_tiles_twoRows :
    (mapInfo 2 5 3).map ChunkInfo.chunksRow = [1, 1, 0] ∧ RowTiling 2 5 3 (mapInfo 2 5 3) :=
  ⟨by decide, (rowSplit_tiles 2 5 1 3 (by decide)).1⟩

end WaterMark.Pixels
