import WaterMark.FastFlow.Map

/-! # What the FastFlow map saves

A worker numbers the images from 1 on, in stream order. So a number belongs to
one image, and the counter of a number inside `pool` is full when all workers
have sent their result of that image: the collector then saves the image, once.
-/

namespace WaterMark.FastFlow.Map
open ChannelNetwork TaggedLog Pixels Maps Gather

variable {st : ImageStream} {nw : ℕ}

def savedResult : Event Task → Option Result
  | .save imageId _ ptrImg _ => some (imageId, ptrImg)
  | _ => none

def saves (s : FarmState Task nw) : List Result :=
  (s.mem.events.map Prod.snd).filterMap savedResult

/-- The saves that concern image `k`, by their number or by their image. -/
def savesOf (st : ImageStream) (s : FarmState Task nw) (k : ℕ) : List Result :=
  (saves s).filter fun r => r.1 = (k : ℤ) + 1 ∨ r.2 = st.img k

theorem resultOf_fst_iff {k k' : ℕ} (hk : k < st.size) (hk' : k' < st.size) :
    (resultOf st k).1 = (resultOf st k').1 ↔ (resultOf st k).2 = (resultOf st k').2 := by
  simp only [resultOf, st.img_inj hk hk']
  omega

/-- Among results of images of the stream, those that concern image `k` are the
ones with its number. -/
theorem filter_results {results : List Result}
    (hstream : ∀ r ∈ results, ∃ j < st.size, r = resultOf st j) {k : ℕ} (hk : k < st.size) :
    results.filter (fun r => r.1 = (k : ℤ) + 1 ∨ r.2 = st.img k) =
      List.replicate ((results.map Prod.fst).count ((k : ℤ) + 1)) (resultOf st k) := by
  have hiff (r : Result) (hr : r ∈ results) :
      r.1 = (k : ℤ) + 1 ↔ r.2 = st.img k := by
    rcases hstream r hr with ⟨j, hj, rfl⟩
    exact resultOf_fst_iff hj hk
  have hcount : (results.map Prod.fst).count ((k : ℤ) + 1) = results.count (resultOf st k) := by
    rw [List.count, List.count, List.countP_map]
    apply List.countP_congr
    intro r hr
    simp only [beq_iff_eq, Function.comp_apply]
    exact ⟨fun he => Prod.ext he ((hiff r hr).mp he), fun he => congrArg Prod.fst he⟩
  rw [hcount, ← List.filter_beq]
  apply List.filter_congr
  intro r hr
  rw [Bool.eq_iff_iff, beq_iff_eq, decide_eq_true_iff]
  constructor
  · rintro (hnum | himg)
    · exact Prod.ext hnum ((hiff r hr).mp hnum)
    · exact Prod.ext ((hiff r hr).mpr himg) himg
  · intro he
    exact Or.inl (congrArg Prod.fst he)

section Run
variable {ptrMark : Buffer} {markHeight markWidth : ℕ} {pixels : Ptr → Buffer}
  {s : FarmState Task nw} {sent : List (ℕ × Task)} {log : List (Fin nw × Result)}

theorem mem_outs (hnw : 1 ≤ nw) (hF : (code st nw ptrMark markHeight markWidth).Flow s sent log)
    {i : Fin nw} {r : Result} (hr : r ∈ s.outs (.worker i) (.gatherQueue i)) :
    ∃ k < st.size, r = resultOf st k := by
  rcases hF.exists_done (delivers ptrMark markHeight markWidth hnw) i with ⟨done, hdone, hout, -⟩
  rw [hout] at hr
  have hmem := (numbered hF i).subset (((workerMap ptrMark).results_mono hdone).subset hr)
  rcases List.mem_map.mp hmem with ⟨k, hk, rfl⟩
  exact ⟨k, List.mem_range.mp hk, rfl⟩

theorem stamped_of_full (hnw : 1 ≤ nw)
    (hF : (code st nw ptrMark markHeight markWidth).Flow s sent log) {k : ℕ} (hk : k < st.size)
    (hfull : GatherMap.counts (log.map Prod.snd) (k + 1) = nw) (i : Fin nw) :
    .chunkDone (taskOf st k) ∈ s.mem.eventsOf (.worker i) := by
  have hD : (code st nw ptrMark markHeight markWidth).Delivers :=
    delivers ptrMark markHeight markWidth hnw
  rw [hF.counts_eq hD (numbered hF) hk] at hfull
  have hpassed : i ∈ Finset.univ.filter fun i => k < progress log i := by
    rw [Finset.eq_univ_of_card _ (hfull.trans (Fintype.card_fin nw).symm)]
    exact Finset.mem_univ i
  rcases hF.chunkDone hD (Finset.mem_filter.mp hpassed).2 with ⟨task, htask, hdone⟩
  -- the worker's task number `k` is that of image `k`
  rcases entries_sent_le hF.sends i with ⟨rest, hrest⟩
  have hget : (tasks st)[k]? = some task := by
    rw [← hrest, List.getElem?_append_left (List.getElem?_eq_some_iff.mp htask).1, htask]
  rw [tasks, List.getElem?_map, List.getElem?_range hk] at hget
  cases hget
  exact hdone

/-- The result in hand when the counter of a number inside `pool` is full. -/
theorem full_result (hnw : 1 ≤ nw)
    (hF : (code st nw ptrMark markHeight markWidth).Flow s sent log) {r : Result} {pool : ℤ → ℕ}
    (hloc : s.loc .collector = .svc r pool)
    (hfull : true ∈ (gatherMap st nw).outcomes (increment pool r.1) r.1)
    (hin : (gatherMap st nw).inPool r.1 = true) :
    ∃ k < st.size, r = resultOf st k ∧
      ∀ i, .chunkDone (taskOf st k) ∈ s.mem.eventsOf (.worker i) := by
  have hplace : (gatherMap st nw).HasCounted _ _ _ := hF.collector
  have hmem : r ∈ log.map Prod.snd ∧ GatherMap.counts (log.map Prod.snd) r.1 = nw := by
    rw [hloc] at hplace
    generalize log.map Prod.snd = msgs at hplace ⊢
    cases hplace with
    | svc h =>
      rw [← GatherMap.counts_snoc, GatherMap.outcomes, if_pos hin] at hfull
      exact ⟨List.mem_append_right _ (List.mem_singleton_self r),
        of_decide_eq_true (List.mem_singleton.mp hfull).symm⟩
  rcases hF.mem_log (delivers ptrMark markHeight markWidth hnw) (numbered hF) hmem.1 with
    ⟨k, hk, rfl⟩
  exact ⟨k, hk, rfl, stamped_of_full hnw hF hk hmem.2⟩

/-- A save under a number inside `pool` is that of an image whose chunks have all
been finished before. -/
theorem save_caused (hnw : 1 ≤ nw)
    (h : (code st nw ptrMark markHeight markWidth).program.Reachable ⟨pixels, []⟩ s)
    {before after : List (Thread nw × Event Task)} {t : Thread nw} {imageId : ℤ} {path : String}
    {ptrImg : Ptr} {picture : Buffer}
    (hsplit : s.mem.events = before ++ (t, .save imageId path ptrImg picture) :: after)
    (hin : (gatherMap st nw).inPool imageId = true) :
    t = .collector ∧ path = savePath imageId ∧ ∃ k < st.size, (imageId, ptrImg) = resultOf st k ∧
      ∀ i, (.worker i, .chunkDone (taskOf st k)) ∈ before := by
  have hsaves := Code.saves_caused (fun _ _ hstep => hstep) h
    (C := fun before r => (gatherMap st nw).inPool r.1 = true → ∃ k < st.size, r = resultOf st k ∧
      ∀ i, (.worker i, .chunkDone (taskOf st k)) ∈ before) ?_ ?_
  · by_cases ht : t = .collector
    · subst ht
      rcases hsaves before _ after hsplit imageId path ptrImg picture rfl with ⟨hpath, hdone⟩
      exact ⟨rfl, hpath, hdone hin⟩
    · rcases Code.exists_flow h with ⟨sent, log, hF⟩
      have hmem : (t, .save imageId path ptrImg picture) ∈ s.mem.events := by
        rw [hsplit]
        exact List.mem_append_right _ List.mem_cons_self
      rcases makes_worker (hF.makes ht hmem) with ⟨task, he⟩ | ⟨record, he⟩ <;> cases he
  · intro before new r hdone hin
    rcases hdone hin with ⟨k, hk, hr, hall⟩
    exact ⟨k, hk, hr, fun i => List.mem_append_left _ (hall i)⟩
  · intro s hs r pool hloc hfull hin
    rcases Code.exists_flow hs with ⟨sent, log, hF⟩
    rcases full_result hnw hF hloc hfull hin with ⟨k, hk, hr, hall⟩
    exact ⟨k, hk, hr, fun i => mem_entries.mp (hall i)⟩

/-- An image inside `pool` is saved when its counter is full, and only then. -/
theorem savesOf_of_handled (hnw : 1 ≤ nw)
    (hF : (code st nw ptrMark markHeight markWidth).Flow s sent log) {msgs : List Result}
    (hmsgs : msgs <+: log.map Prod.snd)
    (hhandled : (gatherMap st nw).Handled msgs (s.mem.eventsOf .collector)) {k : ℕ}
    (hk : k + 1 < st.size) : savesOf st s k =
      if nw ≤ GatherMap.counts msgs (k + 1) then [resultOf st k] else [] := by
  rcases hhandled.exists_completed hnw with ⟨completed, hsub, hsaved, hcount⟩
  have hstream (r : Result) (hr : r ∈ completed) : ∃ j < st.size, r = resultOf st j :=
    hF.mem_log (delivers ptrMark markHeight markWidth hnw) (numbered hF)
      (hmsgs.subset (hsub.subset hr))
  have hsaves : saves s = completed := by
    rw [saves, hF.filterMap_collector (f := savedResult), hsaved (g := id)
      ⟨fun _ _ => rfl, fun _ _ => rfl⟩, List.map_id]
    intro e he
    rcases makes_worker he with ⟨task, rfl⟩ | ⟨record, rfl⟩ <;> rfl
  have hin : (gatherMap st nw).inPool ((k : ℤ) + 1) = true :=
    decide_eq_true ⟨by omega, by omega⟩
  rw [savesOf, hsaves, filter_results hstream (by omega), hcount _ hin]
  by_cases hfull : nw ≤ GatherMap.counts msgs (k + 1)
  · rw [if_pos hfull, if_pos (by exact hfull), List.replicate_one]
  · rw [if_neg hfull, if_neg (by exact hfull), List.replicate_zero]

theorem savesOf_le (hnw : 1 ≤ nw)
    (h : (code st nw ptrMark markHeight markWidth).program.Reachable ⟨pixels, []⟩ s) {k : ℕ}
    (hk : k + 1 < st.size) : savesOf st s k <+: [resultOf st k] := by
  rcases Code.exists_flow h with ⟨sent, log, hF⟩
  rcases hF.exists_handled with ⟨msgs, hmsgs, hhandled⟩
  rw [savesOf_of_handled hnw hF hmsgs hhandled hk]
  split_ifs
  · exact List.prefix_rfl
  · exact List.nil_prefix

theorem savesOf_terminal (hnw : 1 ≤ nw)
    (h : (code st nw ptrMark markHeight markWidth).program.Reachable ⟨pixels, []⟩ s)
    (hterm : (code st nw ptrMark markHeight markWidth).program.Terminal s) {k : ℕ}
    (hk : k + 1 < st.size) : savesOf st s k = [resultOf st k] := by
  rcases Code.exists_flow h with ⟨sent, log, hF⟩
  have hD : (code st nw ptrMark markHeight markWidth).Delivers :=
    delivers ptrMark markHeight markWidth hnw
  have hend := hF.finished hD hterm
  have hpassed (i : Fin nw) : k < progress log i := by
    have hall : (workerMap ptrMark).results (entries (i : ℕ) sent) = _ :=
      (congrArg _ (entries_sent_all hF.sends hend.sends i)).trans (results_eq ptrMark)
    rw [progress, hend.taken, show (code st nw ptrMark markHeight markWidth).worker =
      workerMap ptrMark from rfl, hall, List.length_map, List.length_range]
    omega
  have hfull : GatherMap.counts (log.map Prod.snd) (k + 1) = nw := by
    rw [hF.counts_eq hD (numbered hF) (by omega), Finset.filter_true_of_mem fun i _ => hpassed i,
      Finset.card_univ, Fintype.card_fin]
  rw [savesOf_of_handled hnw hF List.prefix_rfl hend.collector hk, if_pos hfull.ge]

end Run

/-- The collector counts correctly inside `pool`: a number belongs to one image; a save
under it is that of this image, after all workers have finished their chunk of it; and
there is one such save at most. -/
structure Collects (st : ImageStream) (s : FarmState Task nw) : Prop where
  numbers : ∀ i i' r r', r ∈ s.outs (.worker i) (.gatherQueue i) →
    r' ∈ s.outs (.worker i') (.gatherQueue i') → (r.1 = r'.1 ↔ r.2 = r'.2)
  caused : ∀ before t imageId path ptrImg picture after,
    s.mem.events = before ++ (t, .save imageId path ptrImg picture) :: after →
    (gatherMap st nw).inPool imageId = true →
      t = .collector ∧ path = savePath imageId ∧
        ∃ k < st.size, (imageId, ptrImg) = resultOf st k ∧
          ∀ i, (.worker i, .chunkDone (taskOf st k)) ∈ before
  once : ∀ k, (gatherMap st nw).inPool (resultOf st k).1 = true →
    savesOf st s k <+: [resultOf st k]

theorem lt_of_inPool {k : ℕ} (hin : (gatherMap st nw).inPool (resultOf st k).1 = true) :
    k + 1 < st.size := by
  have hlt := (of_decide_eq_true hin).2
  simp only [resultOf] at hlt
  omega

/-- With the fields of the records at hand the collector counts correctly. -/
theorem collects {ptrMark : Buffer} {markHeight markWidth : ℕ} {pixels : Ptr → Buffer}
    (hnw : 1 ≤ nw) {s : FarmState Task nw}
    (h : (code st nw ptrMark markHeight markWidth).program.Reachable ⟨pixels, []⟩ s) :
    Collects st s where
  numbers i i' r r' hr hr' := by
    rcases Code.exists_flow h with ⟨sent, log, hF⟩
    rcases mem_outs hnw hF hr with ⟨k, hk, rfl⟩
    rcases mem_outs hnw hF hr' with ⟨k', hk', rfl⟩
    exact resultOf_fst_iff hk hk'
  caused before t imageId path ptrImg picture after hsplit hin := save_caused hnw h hsplit hin
  once k hin := savesOf_le hnw h (lt_of_inPool hin)

end WaterMark.FastFlow.Map
