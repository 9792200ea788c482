import WaterMark.Maps.Shared

/-! # The end of a run with shared queues

When no thread can go on, the ends of the stream have been taken, and since no
worker takes two of them each worker has taken one and has returned. Its own end
is the last message that it sends, so a gather that has counted the ends of all
its workers has received all results.
-/

namespace WaterMark.Maps.Code.Shares
open ChannelNetwork TaggedLog SharedQueue Pixels Gather

variable {ι J : Type} {nw : ℕ} [DecidableEq ι] [DecidableEq J] {P : Code ι J nw} {index : ι → ℕ}
  {tasks : ι → List J} {last : J} {stream : ι → List Result} {pixels : Ptr → Buffer}
  {s : NetState ι J nw}

/-! ## The workers -/

omit [DecidableEq J] in
theorem all_sent (hS : P.Shares index tasks last stream) (h : P.program.Reachable ⟨pixels, []⟩ s)
    (hterm : P.program.Terminal s) (m : ι) :
    (s.popped (.workerQueue (index m))).map Prod.snd ++ s.queue (.workerQueue (index m)) =
      tasks m ++ List.replicate (Feeds.workers m nw).card last := by
  rw [Feeds.sent_append hS.one_le_gather h,
    List.take_of_length_le (Feeds.scatter_finished hterm), hS.feed, Feeds.card_workers]

theorem marker_le (hS : P.Shares index tasks last stream) (h : P.program.Reachable ⟨pixels, []⟩ s)
    (m : ι) : ∀ t ∈ Feeds.workers m nw,
      (entries t (s.popped (.workerQueue (index m)))).count last ≤ 1 := by
  intro t ht
  obtain ⟨i, rfl⟩ := Feeds.mem_workers.mp ht
  exact (hS.worker_answered h m i).count_last_le hS.eof_last

/-- At the end of a run every worker has returned: one that waits has taken no end
of the stream, while all of them are taken and nobody takes two. -/
theorem worker_returned (hS : P.Shares index tasks last stream)
    (h : P.program.Reachable ⟨pixels, []⟩ s) (hterm : P.program.Terminal s) (m : ι) (i : Fin nw) :
    s.loc (.worker m i) = .returned := by
  have hwaits := WorkerCode.waits fun a ha => hterm.waits (t := .worker m i) (a := a) ha
  rcases hwaits with hx | ⟨n, hx, hq⟩
  · exact hx
  · rw [hS.queue_eq] at hq
    have hall := hS.all_sent h hterm m
    rw [hq, List.append_nil] at hall
    have hmarker : (s.ins (.worker m i) (.workerQueue (index m))).count last = 1 :=
      (hS.taken h m).marker_of_eq hall (hS.marker_le h m) _ (Feeds.mem_workers.mpr ⟨i, rfl⟩)
    have hplace := hS.worker_answered h m i
    rw [hx] at hplace
    rw [hplace.count_last_pop hS.eof_last] at hmarker
    cases hmarker

theorem worker_finished (hS : P.Shares index tasks last stream)
    (h : P.program.Reachable ⟨pixels, []⟩ s) (hterm : P.program.Terminal s) {m : ι}
    {t : Thread ι nw} (ht : t ∈ Feeds.workers m nw) :
    entries t (s.popped (.workerQueue (index m))) = stampedOf (s.mem.eventsOf t) ++ [last] ∧
      entries t (s.pushed (.gatherQueue m)) =
        (stampedOf (s.mem.eventsOf t)).map P.worker.result ++ [eos] := by
  obtain ⟨i, rfl⟩ := Feeds.mem_workers.mp ht
  have hplace := hS.worker_answered h m i
  rw [hS.worker_returned h hterm m i] at hplace
  obtain ⟨task, heof, hgot, hsent⟩ := hplace.returned_eq hS.plain
  have hmem : task ∈ s.ins (.worker m i) (.workerQueue (index m)) := by simp [hgot]
  have hlast : task = last := hS.eq_last h hmem heof
  rw [hlast] at hgot hsent
  rw [hS.image_last] at hsent
  exact ⟨hgot, hsent⟩

theorem marker_eq (hS : P.Shares index tasks last stream) (h : P.program.Reachable ⟨pixels, []⟩ s)
    (hterm : P.program.Terminal s) (m : ι) : ∀ t ∈ Feeds.workers m nw,
      (entries t (s.popped (.workerQueue (index m)))).count last = 1 := by
  intro t ht
  apply le_antisymm (hS.marker_le h m t ht)
  rw [(hS.worker_finished h hterm ht).1]
  exact List.one_le_count_iff.mpr (by simp)

theorem taken_all (hS : P.Shares index tasks last stream) (h : P.program.Reachable ⟨pixels, []⟩ s)
    (hterm : P.program.Terminal s) (m : ι) :
    (s.popped (.workerQueue (index m))).map Prod.snd =
      tasks m ++ List.replicate (Feeds.workers m nw).card last ∧
    s.queue (.workerQueue (index m)) = [] := by
  have hne : (Feeds.workers m nw).Nonempty := by
    rw [← Finset.card_pos, Feeds.card_workers]
    exact hS.one_le
  have hall := (hS.taken h m).eq_of_markers hne ((hS.proper m).last_notMem hS.eof_last) fun t ht =>
    (hS.marker_eq h hterm m t ht).ge
  refine ⟨hall, ?_⟩
  have hsent := hS.all_sent h hterm m
  rw [hall] at hsent
  exact List.append_right_eq_self.mp hsent

theorem stampedBy_perm (hS : P.Shares index tasks last stream)
    (h : P.program.Reachable ⟨pixels, []⟩ s) (hterm : P.program.Terminal s) (m : ι) :
    (stampedBy s m).Perm (tasks m) :=
  (hS.taken h m).perm (hS.taken_all h hterm m).1 (fun _ ht => (hS.worker_finished h hterm ht).1)
    (count_stampedBy s m)

/-! ## The gathers -/

theorem result_ne (hS : P.Shares index tasks last stream) (h : P.program.Reachable ⟨pixels, []⟩ s)
    {m : ι} {t : Thread ι nw} (ht : t ∈ Feeds.workers m nw) :
    ∀ r ∈ (stampedOf (s.mem.eventsOf t)).map P.worker.result, decide (r.2 = NULL) = false := by
  intro r hr
  obtain ⟨task, htask, rfl⟩ := List.mem_map.mp hr
  obtain ⟨i, rfl⟩ := Feeds.mem_workers.mp ht
  have hmem := (hS.stampedBy_subperm h m).subset (mem_stampedBy.mpr ⟨i, htask⟩)
  exact decide_eq_false ((hS.resultStream m).ne_null _ (hS.result_mem m task hmem))

theorem nullCount_pushed (hS : P.Shares index tasks last stream)
    (h : P.program.Reachable ⟨pixels, []⟩ s) (hterm : P.program.Terminal s) (m : ι) :
    nullCount ((s.pushed (.gatherQueue m)).map Prod.snd) = nw := by
  have hone (t : Thread ι nw) (ht : t ∈ Feeds.workers m nw) :
      nullCount (entries t (s.pushed (.gatherQueue m))) = 1 := by
    have hzero : ((stampedOf (s.mem.eventsOf t)).map P.worker.result).countP
        (fun r => decide (r.2 = NULL)) = 0 :=
      List.countP_eq_zero.mpr fun r hr => by simpa using hS.result_ne h ht r hr
    rw [(hS.worker_finished h hterm ht).2, nullCount, List.countP_append, hzero]
    rfl
  rw [nullCount, countP_eq_sum _ _ (Feeds.pushed_gather h m)]
  exact (Finset.sum_congr rfl hone).trans (by simp [Feeds.card_workers])

/-- At the end of a run a gather has received all that its workers sent: if it
waits its queue is empty, and if it has returned it has counted all ends. -/
theorem gatherLog_eq (hS : P.Shares index tasks last stream)
    (h : P.program.Reachable ⟨pixels, []⟩ s) (hterm : P.program.Terminal s) (m : ι) :
    Feeds.gatherLog s m = s.pushed (.gatherQueue m) := by
  have hplace := hS.gather_completed h m
  have hwaits := GatherCode.waits fun a ha => hterm.waits (t := .gather m) (a := a) ha
  rcases hwaits with ⟨g, hx⟩ | ⟨g, hx, hq⟩
  · rw [hx] at hplace
    have hnull := hplace.nullCount_returned
    rw [← Feeds.map_gatherLog h, hS.gather_nw m] at hnull
    apply eq_of_markers_seen (Feeds.gatherLog_le s m) (Feeds.pushed_gather h m)
      (p := fun r => decide (r.2 = NULL))
    · intro t ht
      exact ⟨_, _, (hS.worker_finished h hterm ht).2, hS.result_ne h ht⟩
    · rw [Feeds.card_workers]
      exact hnull.ge
  · exact Feeds.gatherLog_of_queue h hq

theorem resultCount_eq (hS : P.Shares index tasks last stream)
    (h : P.program.Reachable ⟨pixels, []⟩ s) (hterm : P.program.Terminal s) (m : ι) (k : ℤ) :
    resultCount k (s.ins (.gather m) (.gatherQueue m)) =
      resultCount k ((tasks m).map P.worker.result) := by
  have hsent (t : Thread ι nw) (ht : t ∈ Feeds.workers m nw) :
      (entries t (s.pushed (.gatherQueue m))).countP (isResultOf k) =
        (stampedOf (s.mem.eventsOf t)).countP (isResultOf k ∘ P.worker.result) := by
    rw [(hS.worker_finished h hterm ht).2, List.countP_append, List.countP_map]
    rfl
  rw [← Feeds.map_gatherLog h, hS.gatherLog_eq h hterm m, resultCount,
    countP_eq_sum _ _ (Feeds.pushed_gather h m), Finset.sum_congr rfl hsent, ← countP_stampedBy,
    (hS.stampedBy_perm h hterm m).countP_eq, resultCount, List.countP_map]

/-- At the end of a run all images are complete. -/
theorem complete_perm (hS : P.Shares index tasks last stream)
    (h : P.program.Reachable ⟨pixels, []⟩ s) (hterm : P.program.Terminal s) (m : ι) :
    (completeOf s m).Perm (stream m) := by
  apply (hS.complete_subperm h m).antisymm
  apply (hS.resultStream m).nodup.subperm
  intro r hr
  have hpos : 0 < ((completeOf s m).map Prod.fst).count r.1 := by
    rw [count_complete hS.one_le, hS.resultCount_eq h hterm, hS.chunks m r hr,
      Nat.div_self hS.one_le]
    exact Nat.one_pos
  obtain ⟨r', hr', hfst⟩ := List.mem_map.mp (List.count_pos_iff.mp hpos)
  rwa [← (hS.resultStream m).eq_of_fst (hS.complete_stamped h hr').1 hr hfst]

theorem pool_eq_empty (hS : P.Shares index tasks last stream)
    (h : P.program.Reachable ⟨pixels, []⟩ s) (hterm : P.program.Terminal s) (m : ι) :
    (collect nw (s.ins (.gather m) (.gatherQueue m))).pool = ∅ := by
  apply (counts_collect hS.one_le _).eq_empty
  intro k
  rw [hS.resultCount_eq h hterm]
  rcases Nat.eq_zero_or_pos (resultCount k ((tasks m).map P.worker.result)) with hzero | hpos
  · rw [hzero, Nat.zero_mod]
  · obtain ⟨r, hr, hk⟩ := List.countP_pos_iff.mp hpos
    obtain ⟨task, htask, rfl⟩ := List.mem_map.mp hr
    simp only [isResultOf, Bool.and_eq_true, decide_eq_true_eq] at hk
    rw [← hk.2, hS.chunks m _ (hS.result_mem m task htask), Nat.mod_self]

theorem gather_finished (hS : P.Shares index tasks last stream)
    (h : P.program.Reachable ⟨pixels, []⟩ s) (hterm : P.program.Terminal s) (m : ι) :
    s.loc (.gather m) = .returned ⟨∅, nw, (stream m).length⟩ ∧ s.queue (.gatherQueue m) = [] ∧
      ∃ complete completions, complete.Perm (stream m) ∧
        (P.gather m).Completions complete completions ∧
        s.mem.eventsOf (.gather m) = completions ++ (P.gather m).onReturn (stream m).length := by
  have hplace := hS.gather_completed h m
  have hwaits := GatherCode.waits fun a ha => hterm.waits (t := .gather m) (a := a) ha
  have hlog := hS.gatherLog_eq h hterm m
  have hends := hS.nullCount_pushed h hterm m
  rw [← hlog, Feeds.map_gatherLog h] at hends
  obtain ⟨completions, hx, hev, hevents⟩ :=
    hplace.finished (hwaits.imp id fun ⟨g, hg, _⟩ => ⟨g, hg⟩) (hends.trans (hS.gather_nw m).symm)
  rw [hS.gather_nw m] at hev
  have hperm := hS.complete_perm h hterm m
  have hlen : completions.length = (stream m).length := by
    rw [← hev.length_eq, hperm.length_eq]
  refine ⟨?_, Feeds.queue_of_gatherLog h hlog, _, completions, hperm, hev, by rw [hevents, hlen]⟩
  rw [hx, GatherCode.vars, hS.gather_nw, hS.pool_eq_empty h hterm, hends, hlen]

theorem shown_perm {α : Type} {f : Event J → Option α} {g : Result → α} {m : ι}
    (hS : P.Shares index tasks last stream) (h : P.program.Reachable ⟨pixels, []⟩ s)
    (hterm : P.program.Terminal s) (hshows : (P.gather m).Shows f g) :
    ((s.mem.eventsOf (.gather m)).filterMap f).Perm ((stream m).map g) := by
  obtain ⟨-, -, complete, completions, hperm, hev, hall⟩ := hS.gather_finished h hterm m
  rw [hall, hshows.events hev (Or.inr rfl)]
  exact hperm.map g

theorem queues_empty (hS : P.Shares index tasks last stream)
    (h : P.program.Reachable ⟨pixels, []⟩ s) (hterm : P.program.Terminal s) (q : Chan ι) :
    s.queue q = [] := by
  cases q with
  | gatherQueue m => exact (hS.gather_finished h hterm m).2.1
  | workerQueue k =>
    by_cases hk : ∃ m, k = index m
    · obtain ⟨m, rfl⟩ := hk
      exact (hS.taken_all h hterm m).2
    · apply Feeds.queue_unused hS.one_le_gather h
      rintro e he rfl
      exact hk (hS.routed e he)

end WaterMark.Maps.Code.Shares
