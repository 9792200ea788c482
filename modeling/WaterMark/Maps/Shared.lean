import Mathlib.Algebra.BigOperators.Fin
import WaterMark.Library.SharedQueue
import WaterMark.Maps.Events

/-! # Workers that share the queue of their map

The workers of a map compete for its tasks, and one of them may take several
chunks of an image and another none. But each task is taken once. So the gather
receives as many results of an image as the image has chunks, and the last of
them only when all chunks are stamped.
-/

namespace WaterMark.Maps
open ChannelNetwork TaggedLog SharedQueue Pixels Gather

variable {ι J : Type} {nw : ℕ}

/-- The result of a task, where its number does not depend on the counter. -/
def WorkerCode.result (c : WorkerCode J) (task : J) : Result := (c.number task 0, c.image task)

def stampedOf (events : List (Event J)) : List J := events.filterMap Event.stamped

theorem mem_stampedOf {events : List (Event J)} {task : J} :
    task ∈ stampedOf events ↔ .chunkDone task ∈ events := by
  rw [stampedOf, List.mem_filterMap]
  constructor
  · rintro ⟨e, he, hstamped⟩
    cases e with
    | chunkDone task' =>
      cases hstamped
      exact he
    | save | deleteImage | deleteTask | deleteInfo | deleteMark | access | printOut =>
      cases hstamped
  · intro he
    exact ⟨_, he, rfl⟩

/-! ## One worker -/

namespace WorkerCode
variable {c : WorkerCode J} {got : List J} {sent : List Result} {events : List (Event J)}
  {x : WorkerState J}

/-- The workers release nothing, and a result carries a number of its own. -/
structure Plain (c : WorkerCode J) : Prop where
  number_eq : ∀ task imageCounter, c.number task imageCounter = c.number task 0
  chunk_quiet : ∀ task, c.onChunk task = []
  return_quiet : c.onReturn = []

theorem Plain.results_eq (hc : c.Plain) (tasks : List J) :
    c.results tasks = tasks.map c.result := by
  apply List.ext_getElem
  · simp
  · intro k hk hk'
    simp [results, result, hc.number_eq _ k]

theorem Plain.stampedOf_chunkEvents (hc : c.Plain) (tasks : List J) :
    stampedOf (c.chunkEvents tasks) = tasks := by
  induction tasks with
  | nil => rfl
  | cons task tasks ih =>
    rw [chunkEvents, List.flatMap_cons, hc.chunk_quiet]
    exact congrArg (task :: ·) ih

theorem Proper.of_prefix (h : c.Proper got) {done : List J} (hle : done <+: got) :
    c.Proper done :=
  fun task htask => h task (hle.subset htask)

/-- A worker stamps tasks in the order in which it takes them. -/
theorem HasAnswered.stamped_le (h : c.HasAnswered x got sent events) (hc : c.Plain) :
    c.Proper (stampedOf events) ∧ stampedOf events <+: got := by
  cases h with
  | pop h =>
    rw [hc.stampedOf_chunkEvents]
    exact ⟨h, List.prefix_rfl⟩
  | stamp loop h =>
    rw [hc.stampedOf_chunkEvents]
    exact ⟨h.of_prefix (List.prefix_append _ _), List.prefix_append _ _⟩
  | propagate h =>
    rw [hc.stampedOf_chunkEvents]
    exact ⟨h, List.prefix_rfl⟩
  | propagateEos h heof | finish h heof =>
    rw [hc.stampedOf_chunkEvents]
    exact ⟨h, List.prefix_append _ _⟩
  | returned h heof =>
    rw [hc.return_quiet, List.append_nil, hc.stampedOf_chunkEvents]
    exact ⟨h, List.prefix_append _ _⟩

theorem HasAnswered.stamping {task : J} {loop : LoopState} {n : ℕ}
    (h : c.HasAnswered (.stamp task loop n) got sent events) (hc : c.Plain) :
    c.Proper got ∧ got = stampedOf events ++ [task] := by
  cases h with
  | stamp loop h =>
    rw [hc.stampedOf_chunkEvents]
    exact ⟨h, rfl⟩

theorem HasAnswered.exists_sent (h : c.HasAnswered x got sent events) (hc : c.Plain) :
    ∃ done, done <+: stampedOf events ∧ (sent = done.map c.result ∨
      ∃ task ∈ got, c.eof task = true ∧ sent = done.map c.result ++ [(0, c.image task)]) := by
  obtain ⟨done, -, hev, hsent⟩ := h.exists_done
  have hdone := hev.filterMap Event.stamped
  have hstamped : (c.chunkEvents done).filterMap Event.stamped = done :=
    hc.stampedOf_chunkEvents done
  rw [hstamped] at hdone
  rw [hc.results_eq] at hsent
  refine ⟨done, hdone, ?_⟩
  rcases hsent with ⟨-, hsent⟩ | ⟨task, heof, rfl, hsent⟩
  · exact Or.inl hsent
  · exact Or.inr ⟨task, by simp, heof, hsent⟩

theorem HasAnswered.returned_eq (h : c.HasAnswered .returned got sent events) (hc : c.Plain) :
    ∃ task, c.eof task = true ∧ got = stampedOf events ++ [task] ∧
      sent = (stampedOf events).map c.result ++ [(0, c.image task)] := by
  cases h with
  | @returned tasks task h heof =>
    rw [hc.return_quiet, List.append_nil, hc.stampedOf_chunkEvents, ← hc.results_eq]
    exact ⟨task, heof, rfl, rfl⟩

theorem Proper.last_notMem (h : c.Proper got) {last : J} (hlast : c.eof last = true) :
    last ∉ got := by
  intro hmem
  have hfalse := h last hmem
  rw [hlast] at hfalse
  cases hfalse

section Marker
variable [DecidableEq J] {last : J}

theorem Proper.count_last (h : c.Proper got) (hlast : c.eof last = true) : got.count last = 0 :=
  List.count_eq_zero_of_not_mem (h.last_notMem hlast)

theorem HasAnswered.count_last_le (h : c.HasAnswered x got sent events)
    (hlast : c.eof last = true) : got.count last ≤ 1 := by
  cases h with
  | pop h | stamp loop h | propagate h =>
    rw [h.count_last hlast]
    exact Nat.zero_le 1
  | propagateEos h heof | finish h heof | returned h heof =>
    rw [List.count_append, h.count_last hlast, Nat.zero_add]
    exact List.count_le_length

theorem HasAnswered.count_last_pop {n : ℕ} (h : c.HasAnswered (.pop n) got sent events)
    (hlast : c.eof last = true) : got.count last = 0 := by
  cases h with
  | pop h => exact h.count_last hlast

end Marker

end WorkerCode

/-! ## The workers of a map -/

/-- The workers of map `m` pop the queue `index m`, which is fed with the tasks
of the map and then with one end of the stream for each worker. The tasks are the
chunks of the images in `stream m`, `nw` of each. -/
structure Code.Shares (P : Code ι J nw) (index : ι → ℕ) (tasks : ι → List J) (last : J)
    (stream : ι → List Result) : Prop where
  one_le : 1 ≤ nw
  queue_eq : ∀ m i, P.queue m i = index m
  index_inj : Function.Injective index
  routed : ∀ e ∈ P.scatter, ∃ m, e.1 = index m
  feed : ∀ m, entries (index m) P.scatter = tasks m ++ List.replicate nw last
  proper : ∀ m, P.worker.Proper (tasks m)
  nodup : ∀ m, (tasks m).Nodup
  eof_last : P.worker.eof last = true
  image_last : P.worker.image last = NULL
  plain : P.worker.Plain
  resultStream : ∀ m, ResultStream (stream m)
  result_mem : ∀ m, ∀ task ∈ tasks m, P.worker.result task ∈ stream m
  chunks : ∀ m, ∀ r ∈ stream m, resultCount r.1 ((tasks m).map P.worker.result) = nw
  gather_nw : ∀ m, (P.gather m).nw = nw

def stampedBy [DecidableEq ι] (s : NetState ι J nw) (m : ι) : List J :=
  (List.finRange nw).flatMap fun i => stampedOf (s.mem.eventsOf (.worker m i))

theorem mem_stampedBy [DecidableEq ι] {s : NetState ι J nw} {m : ι} {task : J} :
    task ∈ stampedBy s m ↔ ∃ i, task ∈ stampedOf (s.mem.eventsOf (.worker m i)) := by
  simp [stampedBy]

theorem sum_workers [DecidableEq ι] (m : ι) (f : Thread ι nw → ℕ) :
    ∑ t ∈ Code.Feeds.workers m nw, f t =
      ((List.finRange nw).map fun i => f (.worker m i)).sum := by
  rw [Code.Feeds.workers, Finset.sum_image fun i _ i' _ he => by cases he; rfl, Fin.sum_univ_def]

theorem count_stampedBy [DecidableEq ι] [DecidableEq J] (s : NetState ι J nw) (m : ι) (task : J) :
    (stampedBy s m).count task =
      ∑ t ∈ Code.Feeds.workers m nw, (stampedOf (s.mem.eventsOf t)).count task := by
  rw [sum_workers, stampedBy, List.count_flatMap]
  rfl

theorem countP_stampedBy [DecidableEq ι] (s : NetState ι J nw) (m : ι) (p : J → Bool) :
    (stampedBy s m).countP p =
      ∑ t ∈ Code.Feeds.workers m nw, (stampedOf (s.mem.eventsOf t)).countP p := by
  rw [sum_workers, stampedBy, List.countP_flatMap]
  rfl

theorem Code.count_stamped [Fintype ι] [DecidableEq ι] [DecidableEq J] {P : Code ι J nw}
    (hnw : ∀ m, 1 ≤ (P.gather m).nw) {pixels : Ptr → Buffer} {s : NetState ι J nw}
    (h : P.program.Reachable ⟨pixels, []⟩ s)
    (hgather : ∀ m, stampedOf (s.mem.eventsOf (.gather m)) = []) (task : J) :
    (stampedOf (s.mem.events.map Prod.snd)).count task = ∑ m, (stampedBy s m).count task := by
  have hdisjoint : ((Finset.univ : Finset ι) : Set ι).PairwiseDisjoint
      fun m => Code.Feeds.workers m nw := by
    intro m _ m' _ hne
    apply Finset.disjoint_left.mpr
    intro t ht ht'
    obtain ⟨i, rfl⟩ := Code.Feeds.mem_workers.mp ht
    obtain ⟨i', he⟩ := Code.Feeds.mem_workers.mp ht'
    cases he
    exact hne rfl
  rw [stampedOf, count_filterMap_eq_sum Finset.univ _ fun e _ => Finset.mem_univ e.1]
  simp only [count_stampedBy]
  rw [← Finset.sum_biUnion hdisjoint]
  symm
  apply Finset.sum_subset (Finset.subset_univ _)
  intro t _ ht
  apply List.count_eq_zero_of_not_mem
  cases t with
  | scatter =>
    have hnil : s.mem.eventsOf .scatter = [] := (Code.placeTells hnw h .scatter).2
    change task ∉ (s.mem.eventsOf .scatter).filterMap Event.stamped
    rw [hnil]
    exact List.not_mem_nil
  | worker m i =>
    apply absurd _ ht
    exact Finset.mem_biUnion.mpr ⟨m, Finset.mem_univ m, Code.Feeds.mem_workers.mpr ⟨i, rfl⟩⟩
  | gather m =>
    rw [hgather]
    exact List.not_mem_nil

namespace Code.Shares
variable [DecidableEq ι] {P : Code ι J nw} {index : ι → ℕ} {tasks : ι → List J} {last : J}
  {stream : ι → List Result} {pixels : Ptr → Buffer} {s : NetState ι J nw}

omit [DecidableEq ι] in
theorem one_le_gather (hS : P.Shares index tasks last stream) (m : ι) : 1 ≤ (P.gather m).nw := by
  rw [hS.gather_nw]
  exact hS.one_le

theorem placeTells (hS : P.Shares index tasks last stream) (h : P.program.Reachable ⟨pixels, []⟩ s)
    (t : Thread ι nw) : P.PlaceTells t (s.loc t) (s.ins t) (s.outs t) (s.mem.eventsOf t) :=
  Code.placeTells hS.one_le_gather h t

theorem worker_answered (hS : P.Shares index tasks last stream)
    (h : P.program.Reachable ⟨pixels, []⟩ s) (m : ι) (i : Fin nw) :
    P.worker.HasAnswered (s.loc (.worker m i))
      (s.ins (.worker m i) (.workerQueue (index m))) (s.outs (.worker m i) (.gatherQueue m))
      (s.mem.eventsOf (.worker m i)) := by
  rw [← hS.queue_eq m i]
  exact hS.placeTells h (.worker m i)

theorem gather_completed (hS : P.Shares index tasks last stream)
    (h : P.program.Reachable ⟨pixels, []⟩ s) (m : ι) :
    (P.gather m).HasCompleted (s.loc (.gather m)) (s.ins (.gather m) (.gatherQueue m))
      (s.mem.eventsOf (.gather m)) :=
  hS.placeTells h (.gather m)

theorem popped_workers (hS : P.Shares index tasks last stream)
    (h : P.program.Reachable ⟨pixels, []⟩ s) (m : ι) :
    ∀ e ∈ s.popped (.workerQueue (index m)), e.1 ∈ Feeds.workers m nw := by
  apply h.popped_by (S := ↑(Feeds.workers m nw))
  intro t x next ha
  cases t with
  | scatter => exact absurd ha send_pop_none
  | worker m' i =>
    have hq := Chan.workerQueue.inj (WorkerCode.pop_queue ha)
    rw [hS.queue_eq] at hq
    cases hS.index_inj hq
    exact Feeds.mem_workers.mpr ⟨i, rfl⟩
  | gather m' => cases GatherCode.pop_queue ha

/-- The workers of a map compete for its tasks and for the ends of the stream. -/
theorem taken (hS : P.Shares index tasks last stream) (h : P.program.Reachable ⟨pixels, []⟩ s)
    (m : ι) : Taken (Feeds.workers m nw) (tasks m) last (s.popped (.workerQueue (index m))) where
  readers := hS.popped_workers h m
  le := by
    rw [Feeds.card_workers, ← hS.feed]
    exact List.IsPrefix.trans ⟨_, Feeds.sent_append hS.one_le_gather h (index m)⟩
      (entries_mono _ (List.take_prefix _ _))

section Stamped
variable [DecidableEq J]

omit [DecidableEq J] in
theorem stampedOf_le (hS : P.Shares index tasks last stream)
    (h : P.program.Reachable ⟨pixels, []⟩ s) {m : ι} {t : Thread ι nw}
    (ht : t ∈ Feeds.workers m nw) :
    P.worker.Proper (stampedOf (s.mem.eventsOf t)) ∧
      stampedOf (s.mem.eventsOf t) <+: entries t (s.popped (.workerQueue (index m))) := by
  obtain ⟨i, rfl⟩ := Feeds.mem_workers.mp ht
  exact (hS.worker_answered h m i).stamped_le hS.plain

theorem stampedBy_subperm (hS : P.Shares index tasks last stream)
    (h : P.program.Reachable ⟨pixels, []⟩ s) (m : ι) : (stampedBy s m).Subperm (tasks m) := by
  refine (hS.taken h m).subperm ?_ ?_ (count_stampedBy s m)
  · intro t ht
    exact (hS.stampedOf_le h ht).2.sublist
  · intro hmem
    obtain ⟨i, hi⟩ := mem_stampedBy.mp hmem
    exact ((hS.worker_answered h m i).stamped_le hS.plain).1.last_notMem hS.eof_last hi

omit [DecidableEq J] in
theorem taken_of_stamping (hS : P.Shares index tasks last stream)
    (h : P.program.Reachable ⟨pixels, []⟩ s) {m : ι} {i : Fin nw} {task : J} {loop : LoopState}
    {n : ℕ} (hloc : s.loc (.worker m i) = .stamp task loop n) :
    entries (.worker m i) (s.popped (.workerQueue (index m))) =
        stampedOf (s.mem.eventsOf (.worker m i)) ++ [task] ∧
      task ≠ last ∧ (.worker m i, task) ∈ s.popped (.workerQueue (index m)) := by
  have hplace := hS.worker_answered h m i
  rw [hloc] at hplace
  obtain ⟨hproper, hgot⟩ := hplace.stamping hS.plain
  have htask : task ∈ s.ins (.worker m i) (.workerQueue (index m)) := by simp [hgot]
  refine ⟨hgot, ?_, mem_entries.mp htask⟩
  rintro rfl
  exact hproper.last_notMem hS.eof_last htask

/-- A worker that is stamping is the only one with its task, and the chunk is
not stamped yet. -/
theorem stamping (hS : P.Shares index tasks last stream) (h : P.program.Reachable ⟨pixels, []⟩ s)
    {m : ι} {i : Fin nw} {task : J} {loop : LoopState} {n : ℕ}
    (hloc : s.loc (.worker m i) = .stamp task loop n) :
    task ∈ tasks m ∧ task ∉ stampedBy s m ∧
      ∀ i' loop' n', s.loc (.worker m i') = .stamp task loop' n' → i' = i := by
  obtain ⟨hgot, hne, hpopped⟩ := hS.taken_of_stamping h hloc
  have hunique {i' : Fin nw}
      (hmem : (.worker m i', task) ∈ s.popped (.workerQueue (index m))) : i' = i := by
    cases (hS.taken h m).reader_unique (hS.nodup m) hne hmem hpopped
    rfl
  refine ⟨(hS.taken h m).mem_msgs hpopped hne, ?_, ?_⟩
  · intro hstamped
    obtain ⟨i', hi'⟩ := mem_stampedBy.mp hstamped
    have hle := ((hS.worker_answered h m i').stamped_le hS.plain).2
    obtain rfl := hunique (mem_entries.mp (hle.subset hi'))
    have hcount := (hS.taken h m).count_entries_le (hS.nodup m) hne (.worker m i')
    rw [hgot, List.count_append, List.count_singleton_self] at hcount
    have hone := List.one_le_count_iff.mpr hi'
    omega
  · intro i' loop' n' hloc'
    exact hunique (hS.taken_of_stamping h hloc').2.2

end Stamped

/-! ## The gather -/

theorem eq_last (hS : P.Shares index tasks last stream) (h : P.program.Reachable ⟨pixels, []⟩ s)
    {m : ι} {t : Thread ι nw} {task : J}
    (ht : task ∈ entries t (s.popped (.workerQueue (index m))))
    (heof : P.worker.eof task = true) : task = last := by
  by_contra hne
  exact (hS.proper m).last_notMem heof ((hS.taken h m).mem_msgs (mem_entries.mp ht) hne)

theorem exists_sent (hS : P.Shares index tasks last stream)
    (h : P.program.Reachable ⟨pixels, []⟩ s) {m : ι} {t : Thread ι nw}
    (ht : t ∈ Feeds.workers m nw) : ∃ done, done <+: stampedOf (s.mem.eventsOf t) ∧
      (s.outs t (.gatherQueue m) = done.map P.worker.result ∨
        s.outs t (.gatherQueue m) = done.map P.worker.result ++ [eos]) := by
  obtain ⟨i, rfl⟩ := Feeds.mem_workers.mp ht
  obtain ⟨done, hdone, hsent⟩ := (hS.worker_answered h m i).exists_sent hS.plain
  refine ⟨done, hdone, ?_⟩
  rcases hsent with hsent | ⟨task, htask, heof, hsent⟩
  · exact Or.inl hsent
  · rw [hS.eq_last h htask heof, hS.image_last] at hsent
    exact Or.inr hsent

theorem received_le (h : P.program.Reachable ⟨pixels, []⟩ s) (m : ι) :
    s.ins (.gather m) (.gatherQueue m) <+: (s.pushed (.gatherQueue m)).map Prod.snd := by
  rw [Feeds.ins_gather h, h.conserved]
  exact List.prefix_append _ _

theorem mem_stream [DecidableEq J] (hS : P.Shares index tasks last stream)
    (h : P.program.Reachable ⟨pixels, []⟩ s) {m : ι} {r : Result}
    (hr : r ∈ s.ins (.gather m) (.gatherQueue m)) (hne : r.2 ≠ NULL) : r ∈ stream m := by
  obtain ⟨⟨t, r⟩, he, rfl⟩ := List.mem_map.mp ((received_le h m).subset hr)
  have ht := Feeds.pushed_gather h m _ he
  obtain ⟨done, hdone, hsent⟩ := hS.exists_sent h ht
  have hmem : r ∈ s.outs t (.gatherQueue m) := mem_entries.mpr he
  have hresult : r ∈ done.map P.worker.result := by
    rcases hsent with hsent | hsent
    · rwa [hsent] at hmem
    · rw [hsent] at hmem
      rcases List.mem_append.mp hmem with hmem | hmem
      · exact hmem
      · cases List.mem_singleton.mp hmem
        exact absurd rfl hne
  obtain ⟨task, htask, rfl⟩ := List.mem_map.mp hresult
  obtain ⟨i, rfl⟩ := Feeds.mem_workers.mp ht
  exact hS.result_mem m task
    ((hS.stampedBy_subperm h m).subset (mem_stampedBy.mpr ⟨i, hdone.subset htask⟩))

/-- A gather has received no more results of an image than chunks are stamped. -/
theorem resultCount_le (hS : P.Shares index tasks last stream)
    (h : P.program.Reachable ⟨pixels, []⟩ s) (m : ι) (k : ℤ) :
    resultCount k (s.ins (.gather m) (.gatherQueue m)) ≤
      (stampedBy s m).countP fun task => isResultOf k (P.worker.result task) :=
  calc resultCount k (s.ins (.gather m) (.gatherQueue m))
    _ ≤ resultCount k ((s.pushed (.gatherQueue m)).map Prod.snd) :=
      (received_le h m).sublist.countP_le
    _ = ∑ t ∈ Feeds.workers m nw, resultCount k (s.outs t (.gatherQueue m)) :=
      countP_eq_sum _ _ (Feeds.pushed_gather h m)
    _ ≤ ∑ t ∈ Feeds.workers m nw, (stampedOf (s.mem.eventsOf t)).countP fun task =>
        isResultOf k (P.worker.result task) := by
      apply Finset.sum_le_sum
      intro t ht
      obtain ⟨done, hdone, hsent⟩ := hS.exists_sent h ht
      have hcount : resultCount k (s.outs t (.gatherQueue m)) =
          done.countP fun task => isResultOf k (P.worker.result task) := by
        rcases hsent with hsent | hsent
        · rw [hsent, resultCount, List.countP_map]
          rfl
        · rw [hsent, resultCount, List.countP_append, List.countP_map]
          rfl
      rw [hcount]
      exact hdone.sublist.countP_le
    _ = (stampedBy s m).countP fun task => isResultOf k (P.worker.result task) :=
      (countP_stampedBy s m _).symm

section Complete
variable [DecidableEq J]

abbrev completeOf (s : NetState ι J nw) (m : ι) : List Result :=
  (collect nw (s.ins (.gather m) (.gatherQueue m))).complete

/-- When an image is complete, all its chunks are stamped. -/
theorem complete_stamped (hS : P.Shares index tasks last stream)
    (h : P.program.Reachable ⟨pixels, []⟩ s) {m : ι} {r : Result} (hr : r ∈ completeOf s m) :
    r ∈ stream m ∧ ∀ task ∈ tasks m, P.worker.result task = r → task ∈ stampedBy s m := by
  obtain ⟨hmem, hne⟩ := mem_complete hS.one_le hr
  have hstream := hS.mem_stream h hmem hne
  refine ⟨hstream, fun task htask hresult => ?_⟩
  have hpos : 1 ≤ resultCount r.1 (s.ins (.gather m) (.gatherQueue m)) / nw := by
    rw [← count_complete hS.one_le]
    exact List.one_le_count_iff.mpr (List.mem_map_of_mem hr)
  have hall : nw ≤ resultCount r.1 (s.ins (.gather m) (.gatherQueue m)) :=
    (Nat.one_le_div_iff hS.one_le).mp hpos
  have hchunks := hS.chunks m r hstream
  rw [resultCount, List.countP_map] at hchunks
  apply mem_of_countP_le (hS.stampedBy_subperm h m)
    (p := fun task => isResultOf r.1 (P.worker.result task))
  · exact hchunks.le.trans (hall.trans (hS.resultCount_le h m r.1))
  · exact htask
  · simp [isResultOf, hresult, hne]

theorem complete_subperm (hS : P.Shares index tasks last stream)
    (h : P.program.Reachable ⟨pixels, []⟩ s) (m : ι) :
    (completeOf s m).Subperm (stream m) := by
  apply List.Nodup.subperm
  · apply List.Nodup.of_map Prod.fst
    rw [List.nodup_iff_count_le_one]
    intro k
    rcases Nat.eq_zero_or_pos (((completeOf s m).map Prod.fst).count k) with hzero | hpos
    · omega
    · obtain ⟨r, hr, rfl⟩ := List.mem_map.mp (List.count_pos_iff.mp hpos)
      have hchunks := hS.chunks m r (hS.complete_stamped h hr).1
      rw [resultCount, List.countP_map] at hchunks
      have hle := (hS.resultCount_le h m r.1).trans ((hS.stampedBy_subperm h m).countP_le _)
      rw [count_complete hS.one_le, ← Nat.div_self hS.one_le]
      exact Nat.div_le_div_right (hle.trans hchunks.le)
  · intro r hr
    exact (hS.complete_stamped h hr).1

theorem gather_events (hS : P.Shares index tasks last stream)
    (h : P.program.Reachable ⟨pixels, []⟩ s) (m : ι) :
    ∃ complete completions printed, s.mem.eventsOf (.gather m) = completions ++ printed ∧
      complete.Subperm (stream m) ∧ (P.gather m).Completions complete completions ∧
      (printed = [] ∨ printed = (P.gather m).onReturn completions.length) := by
  have hplace := hS.gather_completed h m
  obtain ⟨k, completions, printed, hsplit, hev, hprinted⟩ := hplace.exists_completions
  rw [hS.gather_nw m] at hev
  exact ⟨_, completions, printed, hsplit,
    (List.take_sublist k _).subperm.trans (hS.complete_subperm h m), hev, hprinted⟩

theorem shown_subperm {α : Type} {f : Event J → Option α} {g : Result → α} {m : ι}
    (hS : P.Shares index tasks last stream) (h : P.program.Reachable ⟨pixels, []⟩ s)
    (hshows : (P.gather m).Shows f g) :
    ((s.mem.eventsOf (.gather m)).filterMap f).Subperm ((stream m).map g) := by
  obtain ⟨complete, completions, printed, hsplit, hle, hev, hprinted⟩ := hS.gather_events h m
  rw [hsplit, hshows.events hev hprinted]
  exact subperm_map g hle

/-- A gather completes an image only after all its chunks are stamped. -/
theorem caused (hS : P.Shares index tasks last stream) (h : P.program.Reachable ⟨pixels, []⟩ s) :
    Justified (fun before e => ∀ m, e.1 = .gather m →
      (∃ r, (r ∈ stream m ∧ ∀ task ∈ tasks m, P.worker.result task = r →
          ∃ i, (Thread.worker m i, Event.chunkDone task) ∈ before) ∧
        ∃ pixels, e.2 = (P.gather m).onComplete r pixels) ∨
      ∃ n, e.2 ∈ (P.gather m).onReturn n) s.mem.events := by
  refine justified_gather (fun s hs m r g hloc => ?_) h
  have hplace := hS.gather_completed hs m
  have hr : r ∈ (collect nw (s.ins (.gather m) (.gatherQueue m))).complete := by
    rw [hloc] at hplace
    generalize s.ins (.gather m) (.gatherQueue m) = msgs at hplace ⊢
    generalize s.mem.eventsOf (.gather m) = events at hplace
    cases hplace with
    | complete hn hfull hev =>
      rw [hS.gather_nw m] at hfull
      rw [hfull]
      simp
  obtain ⟨hstream, hdone⟩ := hS.complete_stamped hs hr
  refine ⟨hstream, fun task htask hresult => ?_⟩
  obtain ⟨i, hi⟩ := mem_stampedBy.mp (hdone task htask hresult)
  exact ⟨i, mem_entries.mp (mem_stampedOf.mp hi)⟩

end Complete

end Code.Shares

end WaterMark.Maps
