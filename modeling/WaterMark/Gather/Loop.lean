import WaterMark.Gather.Pool
import WaterMark.Library.MessageLoop

/-! # The loop of the gather

`gather` of the map and of the farm of maps is one loop around the counting of
results. The loop builds the file name of a complete image in a string that it
resets afterwards, and it returns when it has counted the end of stream of every
worker.
-/

namespace WaterMark.Gather
open MessageLoop

/-- What becomes of a complete image: `ptrImg->save(path.c_str())` or
`delete ptrImg`. -/
inductive Disposal where
  | save (path : String) (ptrImg : Ptr)
  | delete (ptrImg : Ptr)
deriving DecidableEq

structure Completion where
  imageId : ℤ
  path : String
  disposal : Disposal
deriving DecidableEq

/-- What distinguishes the loops: the path before the number of an image is
appended, the disposal of a complete image, and what is printed on return. -/
structure LoopCode where
  path : String
  dispose : String → Ptr → Disposal
  onReturn : ℤ → List String

/-- The variables that outlive an iteration, and the completions so far, oldest
first. -/
structure LoopVars where
  pool : Pool
  path : String
  nullNmb : ℤ
  imgNumber : ℤ
  complete : List Completion

namespace LoopCode

/-- The body of `while(true)`, after its pop. -/
def body (code : LoopCode) (nw : ℤ) (g : LoopVars) (workerResult : Result) :
    Control LoopVars (LoopVars × List String) :=
  let ptrImg := workerResult.2
  if ptrImg = NULL then
    let nullNmb := g.nullNmb + 1
    if nullNmb = nw then .finish ({ g with nullNmb := nullNmb }, code.onReturn g.imgNumber)
    else .next { g with nullNmb := nullNmb }
  else
    let imageId := workerResult.1
    let (pool, full) := poolStep nw g.pool imageId
    if full then
      let path := g.path ++ (toString imageId ++ ".jpg")
      .next {
        g with
        pool := pool
        path := code.path
        imgNumber := g.imgNumber + 1
        complete := g.complete ++ [⟨imageId, path, code.dispose path ptrImg⟩] }
    else .next { g with pool := pool }

def start (code : LoopCode) : LoopVars := ⟨∅, code.path, 0, 0, []⟩

/-- The function on the sequence of messages that it pops. -/
def gather (code : LoopCode) (nw : ℤ) (msgs : List Result) :
    Outcome LoopVars (LoopVars × List String) Result :=
  run (code.body nw) code.start msgs

end LoopCode

def farmMapLoop (mapID : ℤ) : LoopCode where
  path := "markedImageFarmMap/img_"
  dispose path ptrImg := .save path ptrImg
  onReturn imgNumber :=
    ["Map: " ++ toString mapID ++ "- Process: " ++ toString imgNumber ++ " images!"]

/-- The parameters of the `gather` of the map, which has no `imgNumber` and where
the statement that saves the image is commented out. -/
def mapLoop : LoopCode where
  path := "markedImageMap/img_"
  dispose _ ptrImg := .delete ptrImg
  onReturn _ := []

inductive Version where
  | farmMap (mapID : ℤ)
  | map

def Version.code : Version → LoopCode
  | .farmMap mapID => farmMapLoop mapID
  | .map => mapLoop

/-! ## The variables after a sequence of messages -/

namespace LoopCode
variable (code : LoopCode) {nw : ℕ} {msgs rest : List Result} {g : LoopVars}
  {printed : List String}

def completion (r : Result) : Completion :=
  let path := code.path ++ (toString r.1 ++ ".jpg")
  ⟨r.1, path, code.dispose path r.2⟩

def after (nw : ℕ) (msgs : List Result) : LoopVars where
  pool := (collect nw msgs).pool
  path := code.path
  nullNmb := nullCount msgs
  imgNumber := (collect nw msgs).complete.length
  complete := (collect nw msgs).complete.map code.completion

theorem start_eq (nw : ℕ) : code.start = code.after nw [] := rfl

theorem after_snoc_null {m : Result} (hm : m.2 = NULL) :
    code.after nw (msgs ++ [m]) =
      { code.after nw msgs with nullNmb := (nullCount msgs : ℤ) + 1 } := by
  rw [after, after, collect_snoc_null nw msgs hm, nullCount_snoc_null msgs hm]
  push_cast
  rfl

theorem body_null {m : Result} (hm : m.2 = NULL) :
    code.body nw (code.after nw msgs) m =
      if nullCount msgs + 1 = nw then
        .finish (code.after nw (msgs ++ [m]),
          code.onReturn (code.after nw (msgs ++ [m])).imgNumber)
      else .next (code.after nw (msgs ++ [m])) := by
  have hlast : (nullCount msgs : ℤ) + 1 = nw ↔ nullCount msgs + 1 = nw := by omega
  rw [after_snoc_null code hm]
  simp only [body, if_pos hm]
  by_cases h : nullCount msgs + 1 = nw
  · rw [if_pos (by exact hlast.mpr h), if_pos h]
    rfl
  · rw [if_neg (by exact fun h' => h (hlast.mp h')), if_neg h]
    rfl

theorem body_result {m : Result} (hm : m.2 ≠ NULL) :
    code.body nw (code.after nw msgs) m = .next (code.after nw (msgs ++ [m])) := by
  simp only [body, if_neg hm]
  by_cases hfull : (poolStep nw (collect nw msgs).pool m.1).2 = true
  · rw [if_pos (by exact hfull), after, after, collect_snoc_full hm hfull,
      nullCount_snoc_ne msgs hm]
    simp [completion]
  · rw [if_neg (by exact hfull), after, after, collect_snoc_part hm hfull,
      nullCount_snoc_ne msgs hm]

theorem gather_eq_waiting (hnw : 1 ≤ nw) :
    code.gather nw msgs = .waiting g ↔ nullCount msgs < nw ∧ g = code.after nw msgs := by
  constructor
  · intro h
    refine run_invariant (I := fun msgs g => nullCount msgs < nw ∧ g = code.after nw msgs)
      ⟨hnw, code.start_eq nw⟩ ?_ h
    rintro msgs g m g' ⟨hn, rfl⟩ hbody
    by_cases hm : m.2 = NULL
    · rw [body_null code hm] at hbody
      split_ifs at hbody with hlast
      cases hbody
      rw [nullCount_snoc_null msgs hm]
      exact ⟨by omega, rfl⟩
    · rw [body_result code hm] at hbody
      cases hbody
      rw [nullCount_snoc_ne msgs hm]
      exact ⟨hn, rfl⟩
  · rintro ⟨hn, rfl⟩
    induction msgs using List.reverseRecOn with
    | nil => rfl
    | append_singleton msgs m ih =>
      by_cases hm : m.2 = NULL
      · rw [nullCount_snoc_null msgs hm] at hn
        have hbody : code.body nw (code.after nw msgs) m =
            .next (code.after nw (msgs ++ [m])) := by
          rw [body_null code hm, if_neg (by omega)]
        exact run_snoc_next (ih (by omega)) hbody
      · rw [nullCount_snoc_ne msgs hm] at hn
        exact run_snoc_next (ih hn) (body_result code hm)

/-- The loop returns on the `nw`-th end. -/
theorem gather_eq_returned (hnw : 1 ≤ nw) :
    code.gather nw msgs = .returned (g, printed) rest ↔
      ∃ before m, msgs = before ++ m :: rest ∧ m.2 = NULL ∧ nullCount before + 1 = nw ∧
        g = code.after nw (before ++ [m]) ∧ printed = code.onReturn g.imgNumber := by
  rw [gather, run_eq_returned]
  constructor
  · rintro ⟨before, m, g', rfl, hbefore, hbody⟩
    obtain ⟨-, rfl⟩ := (gather_eq_waiting code hnw).mp hbefore
    by_cases hm : m.2 = NULL
    · rw [body_null code hm] at hbody
      split_ifs at hbody with hlast
      cases hbody
      exact ⟨before, m, rfl, hm, hlast, rfl, rfl⟩
    · rw [body_result code hm] at hbody
      cases hbody
  · rintro ⟨before, m, rfl, hm, hlast, rfl, rfl⟩
    refine ⟨before, m, code.after nw before, rfl, ?_, ?_⟩
    · exact (gather_eq_waiting code hnw).mpr ⟨by omega, rfl⟩
    · rw [body_null code hm, if_pos hlast]

/-- One more message changes the variables to those of the messages counted,
whether the loop returns on it or not. -/
theorem gather_snoc (hnw : 1 ≤ nw) (hwait : code.gather nw msgs = .waiting g) {m : Result}
    {g' : LoopVars} (h : code.gather nw (msgs ++ [m]) = .waiting g' ∨
      ∃ printed, code.gather nw (msgs ++ [m]) = .returned (g', printed) []) :
    g = code.after nw msgs ∧ g' = code.after nw (msgs ++ [m]) := by
  refine ⟨((gather_eq_waiting code hnw).mp hwait).2, ?_⟩
  rcases h with h | ⟨printed, h⟩
  · exact ((gather_eq_waiting code hnw).mp h).2
  · obtain ⟨before, m', hsplit, -, -, rfl, -⟩ := (gather_eq_returned code hnw).mp h
    rw [hsplit]

end LoopCode

/-! ## The loop counts -/

/-- The variables agree with the results received of each number: a completion
for every `nw` of them, and an entry for what is left. -/
structure LoopVars.Counted (nw : ℕ) (msgs : List Result) (g : LoopVars) : Prop where
  completed : ∀ k, (g.complete.map Completion.imageId).count k = resultCount k msgs / nw
  mem_pool : ∀ k, k ∈ g.pool ↔ resultCount k msgs % nw ≠ 0
  value : ∀ k ∈ g.pool, g.pool.lookup k = some (resultCount k msgs % nw : ℕ)

theorem LoopCode.counted_after (code : LoopCode) {nw : ℕ} (hnw : 1 ≤ nw) (msgs : List Result) :
    (code.after nw msgs).Counted nw msgs where
  completed k := by
    have hids : (code.after nw msgs).complete.map Completion.imageId =
        (collect nw msgs).complete.map Prod.fst := by
      rw [LoopCode.after, List.map_map]
      rfl
    rw [hids, count_complete hnw]
  mem_pool := (counts_collect hnw msgs).mem_iff
  value k hk := by
    have hcounts := counts_collect hnw msgs
    rw [LoopCode.after, hcounts k, if_neg ((hcounts.mem_iff k).mp hk)]

theorem resultCount_snoc (msgs : List Result) {m : Result} (hm : m.2 ≠ NULL) :
    resultCount m.1 (msgs ++ [m]) = resultCount m.1 msgs + 1 := by
  simp [resultCount, isResultOf, hm]

/-- The loop of `gather`: it returns on the `nw`-th end of stream and on no other
message; while it waits its variables agree with plain counting; and a message
completes an image exactly when it makes the count of its number a multiple of
`nw`, with the image of that message. -/
theorem gather_counts (version : Version) {nw : ℕ} (hnw : 1 ≤ nw) (msgs : List Result) :
    (∀ rest, (∃ r, version.code.gather nw msgs = .returned r rest) ↔
      ∃ before m, msgs = before ++ m :: rest ∧ m.2 = NULL ∧ nullCount before + 1 = nw) ∧
    ((∃ g, version.code.gather nw msgs = .waiting g) ↔ nullCount msgs < nw) ∧
    ∀ g, version.code.gather nw msgs = .waiting g →
      g.Counted nw msgs ∧
      ∀ m g', (version.code.gather nw (msgs ++ [m]) = .waiting g' ∨
          ∃ printed, version.code.gather nw (msgs ++ [m]) = .returned (g', printed) []) →
        g'.complete =
          if m.2 ≠ NULL ∧ nw ∣ resultCount m.1 (msgs ++ [m]) then
            g.complete ++ [version.code.completion m]
          else g.complete := by
  refine ⟨?_, ?_, ?_⟩
  · intro rest
    constructor
    · rintro ⟨⟨g, printed⟩, h⟩
      obtain ⟨before, m, hsplit, hm, hlast, -⟩ := (version.code.gather_eq_returned hnw).mp h
      exact ⟨before, m, hsplit, hm, hlast⟩
    · rintro ⟨before, m, hsplit, hm, hlast⟩
      exact ⟨_, (version.code.gather_eq_returned hnw).mpr
        ⟨before, m, hsplit, hm, hlast, rfl, rfl⟩⟩
  · constructor
    · rintro ⟨g, h⟩
      exact ((version.code.gather_eq_waiting hnw).mp h).1
    · intro hn
      exact ⟨_, (version.code.gather_eq_waiting hnw).mpr ⟨hn, rfl⟩⟩
  · intro g hwait
    constructor
    · obtain ⟨-, rfl⟩ := (version.code.gather_eq_waiting hnw).mp hwait
      exact version.code.counted_after hnw msgs
    · intro m g' hnext
      obtain ⟨rfl, rfl⟩ := version.code.gather_snoc hnw hwait hnext
      simp only [LoopCode.after, complete_collect_snoc hnw, Nat.dvd_iff_mod_eq_zero]
      by_cases hm : m.2 = NULL
      · rw [if_neg (by exact fun h => h.1 hm), if_neg (by exact fun h => h.1 hm)]
      · rw [resultCount_snoc msgs hm]
        split_ifs <;> simp

/-- Two workers. The second result of image 5 completes it, past an end of stream
and a result of image 6. -/
theorem gather_counts_two : ∃ g,
    mapLoop.gather (2 : ℕ) [(5, 7), (0, NULL), (6, 7), (5, 8)] = .waiting g ∧
      (g.complete.map Completion.imageId).count 5 = 1 ∧ 6 ∈ g.pool := by
  obtain ⟨-, hwait, hcounted⟩ :=
    gather_counts .map (show 1 ≤ 2 by decide) [(5, 7), (0, NULL), (6, 7), (5, 8)]
  obtain ⟨g, hg⟩ := hwait.mpr (by decide)
  have hg' := (hcounted g hg).1
  refine ⟨g, hg, hg'.completed 5, (hg'.mem_pool 6).mpr (by decide)⟩

end WaterMark.Gather
