import WaterMark.FastFlow.Network
import WaterMark.Library.CommonStream

/-! # What flows through a farm

The tasks that the emitter has sent are those that the workers have received or
still have in their queues; the collector has taken results of the workers in
their order. When the workers number their results alike, the collector counts
how many of them have passed an image.
-/

namespace WaterMark.FastFlow
open ChannelNetwork TaggedLog Pixels Maps Gather

variable {J : Type} {nw : ℕ}

/-- The result of the `k`-th task of a worker, when it belongs to image `k`: the
counter of the worker is one ahead of the image. -/
def resultOf (st : ImageStream) (k : ℕ) : Result := (k + 1, st.img k)

/-- Results that carry each number once carry the numbers from 1 on. -/
theorem numbers_perm {st : ImageStream} {results : List Result}
    (hstream : ∀ r ∈ results, ∃ k < st.size, r = resultOf st k)
    (hone : ∀ k : ℕ, k < st.size → (results.map Prod.fst).count ((k : ℤ) + 1) = 1) :
    (results.map Prod.fst).Perm ((List.range st.size).map fun k : ℕ => (k : ℤ) + 1) := by
  apply List.perm_iff_count.mpr
  intro imageId
  by_cases hk : ∃ k < st.size, imageId = (k : ℤ) + 1
  · rcases hk with ⟨k, hk, rfl⟩
    have hnodup : ((List.range st.size).map fun k : ℕ => (k : ℤ) + 1).Nodup :=
      List.nodup_range.map fun a b he => by simpa using he
    rw [hone k hk,
      List.count_eq_one_of_mem hnodup (List.mem_map_of_mem (List.mem_range.mpr hk))]
  · rw [List.count_eq_zero.mpr, List.count_eq_zero.mpr]
    · intro hmem
      rcases List.mem_map.mp hmem with ⟨k, hk', rfl⟩
      exact hk ⟨k, List.mem_range.mp hk', rfl⟩
    · intro hmem
      rcases List.mem_map.mp hmem with ⟨r, hr, rfl⟩
      rcases hstream r hr with ⟨k, hk', rfl⟩
      exact hk ⟨k, hk', rfl⟩

theorem map_snd_perm {st : ImageStream} {results : List Result}
    (hstream : ∀ r ∈ results, ∃ k < st.size, r = resultOf st k)
    (hone : ∀ k : ℕ, k < st.size → (results.map Prod.fst).count ((k : ℤ) + 1) = 1) :
    (results.map Prod.snd).Perm st.imgVector := by
  -- the number of a result tells its image
  have himages : results.map Prod.snd =
      (results.map Prod.fst).map fun imageId => st.img (imageId.toNat - 1) := by
    rw [List.map_map]
    apply List.map_congr_left
    intro r hr
    rcases hstream r hr with ⟨k, -, rfl⟩
    simp [resultOf]
  rw [himages, ← st.map_img]
  have hperm := (numbers_perm hstream hone).map fun imageId => st.img (imageId.toNat - 1)
  rw [List.map_map] at hperm
  simpa [Function.comp_def] using hperm

namespace Code
variable {P : Code J nw} {pixels : Ptr → Buffer} {s : FarmState J nw}

/-- What flows through the farm: the tasks sent, with their workers, and the
results that the collector has taken, with theirs. -/
structure Flow (P : Code J nw) (s : FarmState J nw) (sent : List (ℕ × J))
    (log : List (Fin nw × Result)) : Prop where
  sends : Sent P.sends P.targets (s.loc .emitter) sent
  pushed : ∀ index, (s.pushed (.workerQueue index)).map Prod.snd = entries index sent
  received : ∀ i : Fin nw,
    s.ins (.worker i) (.workerQueue i) ++ s.queue (.workerQueue i) = entries (i : ℕ) sent
  worker : ∀ i, P.worker.HasAnswered (s.loc (.worker i)) (s.ins (.worker i) (.workerQueue i))
    (s.outs (.worker i) (.gatherQueue i)) (s.mem.eventsOf (.worker i))
  collected : ∀ i, entries i log ++ s.queue (.gatherQueue i) = s.outs (.worker i) (.gatherQueue i)
  collector : P.gather.HasCounted (s.loc .collector) (log.map Prod.snd) (s.mem.eventsOf .collector)
  emitter : s.mem.eventsOf .emitter = []

theorem exists_flow (h : P.program.Reachable ⟨pixels, []⟩ s) : ∃ sent log, P.Flow s sent log := by
  rcases P.placeTells h .emitter with ⟨⟨sent, hsent, houts⟩, hnil⟩
  rcases P.placeTells h .collector with ⟨log, hlog, hcollector⟩
  have hpushed (index : ℕ) : (s.pushed (.workerQueue index)).map Prod.snd = entries index sent := by
    rw [← outs_emitter h, houts]
  refine ⟨sent, log, sent_of_sends hsent, hpushed, fun i => ?_,
    fun i => P.placeTells h (.worker i), fun i => ?_, hcollector, hnil⟩
  · rw [ins_worker h, ← hpushed, h.conserved]
  · rw [outs_worker h, h.conserved, ← ins_collector h]
    exact congrArg (· ++ s.queue (.gatherQueue i)) (hlog i).symm

namespace Flow
variable {sent : List (ℕ × J)} {log : List (Fin nw × Result)}

theorem exists_done (hF : P.Flow s sent log) (hD : P.Delivers) (i : Fin nw) :
    ∃ done, done <+: entries (i : ℕ) sent ∧
      s.outs (.worker i) (.gatherQueue i) = P.worker.results done ∧
      P.worker.chunkEvents done <+: s.mem.eventsOf (.worker i) := by
  rcases (hF.worker i).exists_done with ⟨done, -, hev, ⟨hgot, hsent⟩ | ⟨task, heof, -, -⟩⟩
  · exact ⟨done, hgot.trans ⟨_, hF.received i⟩, hsent, hev⟩
  · rw [hD.eof] at heof
    cases heof

theorem log_le (hF : P.Flow s sent log) (hD : P.Delivers) (i : Fin nw) :
    entries i log <+: P.worker.results (entries (i : ℕ) sent) := by
  rcases hF.exists_done hD i with ⟨done, hdone, hout, -⟩
  have hlog : entries i log <+: s.outs (.worker i) (.gatherQueue i) := ⟨_, hF.collected i⟩
  rw [hout] at hlog
  exact hlog.trans (P.worker.results_mono hdone)

/-- A result is taken only after the chunk is stamped. -/
theorem chunkDone (hF : P.Flow s sent log) (hD : P.Delivers) {i : Fin nw} {k : ℕ}
    (hk : k < progress log i) : ∃ task, (entries (i : ℕ) sent)[k]? = some task ∧
      .chunkDone task ∈ s.mem.eventsOf (.worker i) := by
  rcases hF.exists_done hD i with ⟨done, hdone, hout, hev⟩
  have hlog : entries i log <+: P.worker.results done := hout ▸ ⟨_, hF.collected i⟩
  have hlt : k < done.length := by
    have := hlog.length_le
    rw [WorkerCode.length_results] at this
    exact hk.trans_le this
  refine ⟨done[k], ?_, hev.subset (P.worker.mem_chunkEvents (List.getElem_mem hlt))⟩
  rcases hdone with ⟨rest, hrest⟩
  rw [← hrest, List.getElem?_append_left hlt, List.getElem?_eq_getElem hlt]

/-! ## Who makes which event -/

theorem makes (hF : P.Flow s sent log) {t : Thread nw} (ht : t ≠ .collector) {e : Event J}
    (he : (t, e) ∈ s.mem.events) : P.worker.Makes e := by
  have hmem : e ∈ s.mem.eventsOf t := mem_entries.mpr he
  cases t with
  | emitter =>
    rw [hF.emitter] at hmem
    cases hmem
  | worker i => exact (hF.worker i).makes hmem
  | collector => exact absurd rfl ht

theorem filterMap_collector (hF : P.Flow s sent log) {α : Type} {f : Event J → Option α}
    (hf : ∀ e, P.worker.Makes e → f e = none) :
    (s.mem.events.map Prod.snd).filterMap f = (s.mem.eventsOf .collector).filterMap f := by
  apply filterMap_entries
  intro e he hne
  exact hf _ (hF.makes hne he)

theorem exists_handled (hF : P.Flow s sent log) :
    ∃ msgs, msgs <+: log.map Prod.snd ∧ P.gather.Handled msgs (s.mem.eventsOf .collector) := by
  have hplace := hF.collector
  generalize s.loc .collector = x at hplace
  generalize log.map Prod.snd = msgs at hplace ⊢
  cases hplace with
  | pop h => exact ⟨_, List.prefix_rfl, h⟩
  | svc h r => exact ⟨_, List.prefix_append _ _, h⟩

/-! ## The end of a run -/

structure Finished (P : Code J nw) (s : FarmState J nw) (sent : List (ℕ × J))
    (log : List (Fin nw × Result)) : Prop where
  sends : sent.map Prod.snd = P.sends
  taken : ∀ i, entries i log = P.worker.results (entries (i : ℕ) sent)
  outs : ∀ i, s.outs (.worker i) (.gatherQueue i) = P.worker.results (entries (i : ℕ) sent)
  worker : ∀ i, s.mem.eventsOf (.worker i) = P.worker.chunkEvents (entries (i : ℕ) sent)
  collector : P.gather.Handled (log.map Prod.snd) (s.mem.eventsOf .collector)

theorem worker_finished (hF : P.Flow s sent log) (hD : P.Delivers) (hterm : P.program.Terminal s)
    (i : Fin nw) :
    s.outs (.worker i) (.gatherQueue i) = P.worker.results (entries (i : ℕ) sent) ∧
      s.mem.eventsOf (.worker i) = P.worker.chunkEvents (entries (i : ℕ) sent) := by
  have hplace := hF.worker i
  rcases WorkerCode.waits fun a ha => hterm.waits (t := .worker i) (a := a) ha with
    hx | ⟨imageCounter, hx, hq⟩
  · rw [hx] at hplace
    generalize s.ins (.worker i) (.workerQueue i) = got at hplace
    generalize s.outs (.worker i) (.gatherQueue i) = out at hplace
    generalize s.mem.eventsOf (.worker i) = events at hplace
    cases hplace with
    | returned _ heof =>
      rw [hD.eof] at heof
      cases heof
  · have hgot := hF.received i
    rw [hq, List.append_nil] at hgot
    rw [hx, hgot] at hplace
    generalize s.outs (.worker i) (.gatherQueue i) = out at hplace ⊢
    generalize s.mem.eventsOf (.worker i) = events at hplace ⊢
    cases hplace with
    | pop _ => exact ⟨rfl, rfl⟩

theorem finished (hF : P.Flow s sent log) (hD : P.Delivers) (hterm : P.program.Terminal s) :
    Finished P s sent log := by
  have hworker := hF.worker_finished hD hterm
  rcases GatherMap.waits fun a ha => hterm.waits (t := .collector) (a := a) ha with
    ⟨pool, hx, hqueues⟩
  refine ⟨?_, fun i => ?_, fun i => (hworker i).1, fun i => (hworker i).2, ?_⟩
  · have hall : P.sends.length ≤ s.loc .emitter :=
      emitter_waits hD.targets_ne fun a ha => hterm.waits (t := .emitter) (a := a) ha
    rw [hF.sends.1, List.take_of_length_le hall]
  · have hcollected := hF.collected i
    rw [hqueues i, List.append_nil, (hworker i).1] at hcollected
    exact hcollected
  · have hplace := hF.collector
    rw [hx] at hplace
    generalize log.map Prod.snd = msgs at hplace ⊢
    cases hplace with
    | pop h => exact h

end Flow

/-- A save is caused by what holds of the result when its counter is full, in runs
whose steps may be restricted to a relation `R`. -/
theorem saves_caused {R : FarmState J nw → FarmState J nw → Prop}
    (hR : ∀ s s', R s s' → P.program.Step s s')
    (h : Relation.ReflTransGen R (P.program.initial ⟨pixels, []⟩) s)
    {C : List (Thread nw × Event J) → Result → Prop}
    (hmono : ∀ before new r, C before r → C (before ++ new) r)
    (hfull : ∀ s, Relation.ReflTransGen R (P.program.initial ⟨pixels, []⟩) s →
      ∀ r pool, s.loc .collector = .svc r pool →
        true ∈ P.gather.outcomes (increment pool r.1) r.1 → C s.mem.events r) :
    Justified (fun before e => ∀ imageId path ptrImg picture,
      e = (.collector, .save imageId path ptrImg picture) →
        path = savePath imageId ∧ C before (imageId, ptrImg)) s.mem.events := by
  refine Program.justified_of_run hR h Memory.events rfl fun s hs t f ha => ?_
  cases t with
  | emitter => exact absurd ha send_work_none
  | worker i =>
    rcases WorkerCode.work_events ha with ⟨es, hes⟩
    refine ⟨_, hes, .of_all fun before e he imageId path ptrImg picture hsave => ?_⟩
    rcases List.mem_map.mp he with ⟨e', -, rfl⟩
    cases hsave
  | collector =>
    rcases GatherMap.work_events ha with ⟨r, pool, full, hout, hloc, hes⟩
    refine ⟨_, hes, .of_all fun before e he imageId path ptrImg picture hsave => ?_⟩
    rcases List.mem_map.mp he with ⟨e', he', rfl⟩
    cases hsave
    cases full with
    | false =>
      cases List.mem_singleton.mp he'
    | true =>
      rcases List.mem_cons.mp he' with he' | he'
      · cases he'
      · cases List.mem_singleton.mp he'
        exact ⟨rfl, hmono _ _ _ (hfull s hs r pool hloc hout)⟩

/-! ## No run is infinite -/

def taskWeight (P : Code J nw) (task : J) : ℕ := 5 + ∑ i, (P.info task i).loopRank .start

def threadRank (P : Code J nw) : (t : Thread nw) → Loc J t → ℕ
  | .emitter => sendRank P.taskWeight P.sends
  | .worker i => WorkerCode.rank fun task => P.info task i
  | .collector => GatherMap.rank

def queues (nw : ℕ) : Finset (Chan (Fin nw)) :=
  (Finset.range nw).image .workerQueue ∪ Finset.univ.image .gatherQueue

theorem loopRank_le_taskWeight (P : Code J nw) (i : Fin nw) (task : J) :
    (P.info task i).loopRank .start + 5 ≤ P.taskWeight task := by
  have hi := Finset.single_le_sum (f := fun i => (P.info task i).loopRank .start)
    (fun _ _ => Nat.zero_le _) (Finset.mem_univ i)
  rw [taskWeight]
  omega

theorem ranking (hD : P.Delivers) :
    Ranking P.program P.threadRank (WorkerCode.weight P.taskWeight) (queues nw) where
  pop t x q next m ha := by
    cases t with
    | emitter => exact absurd ha send_pop_none
    | worker i =>
      refine ⟨?_, WorkerCode.rank_pop (P.loopRank_le_taskWeight i) ha⟩
      rw [WorkerCode.pop_queue ha]
      simp [queues]
    | collector =>
      refine ⟨?_, GatherMap.rank_pop P.taskWeight ha⟩
      rcases GatherMap.pop_queue ha with ⟨i, rfl⟩
      simp [queues]
  push t x q m next ha := by
    cases t with
    | emitter =>
      refine ⟨?_, sendRank_push P.taskWeight (fun e he => (mem_choices he).2) ha⟩
      rcases emitter_push ha with ⟨index, hindex, task, -, he⟩
      cases he
      simpa [queues] using hD.targets_lt _ index hindex
    | worker i =>
      refine ⟨?_, WorkerCode.rank_push P.taskWeight ha⟩
      rw [WorkerCode.push_queue ha]
      simp [queues]
    | collector => exact absurd ha GatherMap.push_none
  work t x mem f ha := by
    cases t with
    | emitter => exact absurd ha send_work_none
    | worker i => exact WorkerCode.rank_work ha
    | collector => exact GatherMap.rank_work ha

/-! ## The counting of the images -/

section Numbered
variable {st : ImageStream} {sent : List (ℕ × J)} {log : List (Fin nw × Result)}

/-- All workers number the images alike. -/
def Numbered (P : Code J nw) (st : ImageStream) (sent : List (ℕ × J)) : Prop :=
  ∀ i : Fin nw, P.worker.results (entries (i : ℕ) sent) <+: (List.range st.size).map (resultOf st)

theorem Flow.merges (hF : P.Flow s sent log) (hD : P.Delivers) (hN : P.Numbered st sent) :
    MergesPrefixes Finset.univ ((List.range st.size).map (resultOf st)) log where
  tags e _ := Finset.mem_univ e.1
  prefixes i _ := (hF.log_le hD i).trans (hN i)

/-- The counter of an image tells how many workers have passed it. -/
theorem Flow.counts_eq (hF : P.Flow s sent log) (hD : P.Delivers) (hN : P.Numbered st sent) {k : ℕ}
    (hk : k < st.size) : GatherMap.counts (log.map Prod.snd) (k + 1) =
      (Finset.univ.filter fun i => k < progress log i).card := by
  apply (hF.merges hD hN).countP_eq_card
  · intro j hj
    simp [resultOf]
  · simpa using hk

theorem Flow.mem_log (hF : P.Flow s sent log) (hD : P.Delivers) (hN : P.Numbered st sent)
    {r : Result} (hr : r ∈ log.map Prod.snd) : ∃ k < st.size, r = resultOf st k := by
  rcases List.mem_map.mp hr with ⟨e, he, rfl⟩
  rcases List.mem_map.mp ((hF.merges hD hN).mem_stream he) with ⟨k, hk, hek⟩
  exact ⟨k, List.mem_range.mp hk, hek.symm⟩

end Numbered

end Code

end WaterMark.FastFlow
