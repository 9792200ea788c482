import WaterMark.FastFlow.MapSaves
import WaterMark.Library.FreedReads

/-! # The records of the FastFlow map in memory

A message of the FastFlow map is a pointer to a `taskWorker` record that all workers
share. A worker reads `ptrDataImage` before its loop and `ptrImage` after it, and then
deletes the record. A read of a record that another worker has deleted finds whatever
its memory holds by then.
-/

namespace WaterMark.FastFlow.Map
open ChannelNetwork TaggedLog Pixels Maps Gather

variable {st : ImageStream} {nw : ℕ} {ptrMark : Buffer} {markHeight markWidth : ℕ}
  {pixels : Ptr → Buffer}

inductive Read where
  | ptrDataImage (record : ℕ)
  | ptrImage (record : ℕ)
deriving DecidableEq

def Read.record : Read → ℕ
  | .ptrDataImage record => record
  | .ptrImage record => record

def Read.assign (value : Ptr) : Read → WorkerState Task → WorkerState Task
  | .ptrDataImage _, .stamp imageInfo loop imageCounter =>
    .stamp { imageInfo with ptrDataImage := value } loop imageCounter
  | .ptrImage _, .stamp imageInfo loop imageCounter =>
    .stamp { imageInfo with ptrImage := value } loop imageCounter
  | _, x => x

/-- `ptrDataImg = imageInfo->ptrDataImage` before the loop, and `imageInfo->ptrImage`
when the loop is over. -/
def workerReads (infoChunk : ChunkInfo) : WorkerState Task → List Read
  | .stamp imageInfo loop _ =>
    (if loop = .start then [.ptrDataImage imageInfo.record] else []) ++
      if infoChunk.finished loop then [.ptrImage imageInfo.record] else []
  | _ => []

/-- What the memory of a deleted record holds when it is read. -/
abbrev Junk (nw : ℕ) := Memory (Thread nw) Task → Read → Ptr

def freed (mem : Memory (Thread nw) Task) (r : Read) : Bool :=
  decide (r.record ∈ (mem.events.map Prod.snd).filterMap Event.released)

def reads (markHeight markWidth : ℕ) (junk : Junk nw) :
    Reads (T := Thread nw) (Loc Task) (Memory (Thread nw) Task) Read where
  upon
    | .worker i => workerReads (infoVector markHeight markWidth nw i)
    | _ => fun _ => []
  freed := freed
  found
    | .worker _ => fun mem r => r.assign (junk mem r)
    | _ => fun _ _ x => x

variable (st nw ptrMark markHeight markWidth) in
/-- The farm that `main` runs, whose workers read the records from memory. -/
def program (junk : Junk nw) : Program (Thread nw) (@Chan.Msg (Fin nw) Task)
    (fun t => Loc Task t × List Read) (Watched (Memory (Thread nw) Task) Read) :=
  (code st nw ptrMark markHeight markWidth).program.reading (reads markHeight markWidth junk)

abbrev RecordState (nw : ℕ) := State (Thread nw) (@Chan.Msg (Fin nw) Task)
  (fun t => Loc Task t × List Read) (Watched (Memory (Thread nw) Task) Read)

/-- No deleted record has been read, or deleted once more. -/
structure Defined (mem : Watched (Memory (Thread nw) Task) Read) : Prop where
  read : mem.stale = []
  deleted : ((mem.mem.events.map Prod.snd).filterMap Event.released).Nodup

/-! ## Runs that read no deleted record -/

section Run
variable {junk : Junk nw} {s : RecordState nw}

theorem record_of_workerReads {infoChunk : ChunkInfo} {x : WorkerState Task} {r : Read}
    (hr : r ∈ workerReads infoChunk x) :
    ∃ imageInfo loop imageCounter, x = .stamp imageInfo loop imageCounter ∧
      r.record = imageInfo.record := by
  cases x with
  | stamp imageInfo loop imageCounter =>
    refine ⟨imageInfo, loop, imageCounter, rfl, ?_⟩
    rcases List.mem_append.mp hr with hr | hr
    · split_ifs at hr
      · rw [List.mem_singleton.mp hr]
        rfl
      · cases hr
    · split_ifs at hr
      · rw [List.mem_singleton.mp hr]
        rfl
      · cases hr
  | pop | propagate | propagateEos | finish | returned => cases hr

theorem length_workerReads_le (infoChunk : ChunkInfo) (x : WorkerState Task) :
    (workerReads infoChunk x).length ≤ 2 := by
  cases x with
  | stamp imageInfo loop imageCounter =>
    rw [workerReads, List.length_append]
    split_ifs <;> simp
  | pop | propagate | propagateEos | finish | returned => exact Nat.zero_le 2

/-- With the fields at hand, one worker or no image, what is read is not deleted. -/
theorem not_freed (hcond : nw = 1 ∨ st.size = 0) {s : FarmState Task nw}
    (h : (code st nw ptrMark markHeight markWidth).program.Reachable ⟨pixels, []⟩ s) {i : Fin nw}
    {infoChunk : ChunkInfo} {r : Read} (hr : r ∈ workerReads infoChunk (s.loc (.worker i))) :
    freed s.mem r = false := by
  obtain ⟨imageInfo, loop, imageCounter, hx, hrecord⟩ := record_of_workerReads hr
  obtain ⟨sent, log, hF⟩ := Code.exists_flow h
  have hheld := held_not_released hcond hF (.inr ⟨loop, imageCounter, hx⟩)
  rw [freed, hrecord]
  exact decide_eq_false hheld

/-- As long as the workers find what they look for, the fields might be at hand. -/
theorem reachable_unread
    (h : (program st nw ptrMark markHeight markWidth junk).Reachable ⟨⟨pixels, []⟩, []⟩ s)
    (hs : Defined s.mem) :
    (code st nw ptrMark markHeight markWidth).program.Reachable ⟨pixels, []⟩ s.unread :=
  Program.Reachable.unread h hs.read

theorem nodup_releases (hcond : nw = 1 ∨ st.size = 0) {s : FarmState Task nw}
    (h : (code st nw ptrMark markHeight markWidth).program.Reachable ⟨pixels, []⟩ s) :
    (releases s).Nodup := by
  obtain ⟨sent, log, hF⟩ := Code.exists_flow h
  have hworker (i : Fin nw) :
      ((s.mem.eventsOf (.worker i)).filterMap Event.released).Sublist
        ((tasks st).map Task.record) := by
    obtain ⟨done, held, hsplit, hreleased, -⟩ := exists_held hF i
    rw [hreleased]
    exact ((List.prefix_append done held).sublist.trans
      (hsplit ▸ (entries_sent_le hF.sends i).sublist)).map _
  by_cases hnil : releases s = []
  · rw [hnil]
    exact List.nodup_nil
  obtain ⟨record, hrecord⟩ := List.exists_mem_of_ne_nil _ hnil
  obtain ⟨i, hi⟩ := exists_releaser hF hrecord
  rcases hcond with rfl | hst
  · rw [releases, filterMap_entries (t := .worker i) fun e he hne => ?_]
    · exact (nodup_record st).sublist (hworker i)
    · obtain ⟨t, e⟩ := e
      refine Option.eq_none_iff_forall_ne_some.mpr fun record' hrel => ?_
      obtain ⟨i', rfl⟩ := worker_of_released hF he hrel
      exact hne (congrArg Thread.worker (Subsingleton.elim i' i))
  · have hmem := (hworker i).subset hi
    rw [tasks, hst] at hmem
    cases hmem

theorem defined (hcond : nw = 1 ∨ st.size = 0)
    (h : (program st nw ptrMark markHeight markWidth junk).Reachable ⟨⟨pixels, []⟩, []⟩ s) :
    Defined s.mem := by
  have hstale : s.mem.stale = [] := by
    refine Program.Reachable.stale_eq_nil (fun s hs t r hr => ?_) h
    cases t with
    | emitter => cases hr
    | worker i => exact not_freed hcond hs hr
    | collector => cases hr
  exact ⟨hstale, nodup_releases hcond (Program.Reachable.unread h hstale)⟩

/-- In a complete run all workers delete all records. -/
theorem nodup_releases_iff (hnw : 1 ≤ nw) {s : FarmState Task nw}
    (h : (code st nw ptrMark markHeight markWidth).program.Reachable ⟨pixels, []⟩ s)
    (hterm : (code st nw ptrMark markHeight markWidth).program.Terminal s) :
    (releases s).Nodup ↔ nw = 1 ∨ st.size = 0 := by
  refine ⟨fun hnodup => ?_, fun hcond => nodup_releases hcond h⟩
  by_contra hcond
  obtain ⟨sent, log, hF⟩ := Code.exists_flow h
  have hcount := count_releases hnw hF hterm 0
  rw [List.count_eq_one_of_mem List.nodup_range (List.mem_range.mpr (by omega))] at hcount
  have hle := List.nodup_iff_count_le_one.mp hnodup 0
  omega

theorem defined_terminal_iff (hnw : 1 ≤ nw)
    (h : (program st nw ptrMark markHeight markWidth junk).Reachable ⟨⟨pixels, []⟩, []⟩ s)
    (hterm : (program st nw ptrMark markHeight markWidth junk).Terminal s) :
    Defined s.mem ↔ nw = 1 ∨ st.size = 0 := by
  refine ⟨fun hs => ?_, fun hcond => defined hcond h⟩
  exact (nodup_releases_iff hnw (reachable_unread h hs) (Program.Terminal.unread hterm)).mp
    hs.deleted

end Run

/-! ## A call of `svc` without the other nodes -/

section Svc
variable {junk : Junk nw} {s s' : RecordState nw} {i : Fin nw}

structure Computes (st : ImageStream) (ptrMark : Buffer) (markHeight markWidth : ℕ)
    (junk : Junk nw) (i : Fin nw) (s s' : RecordState nw) : Prop where
  run : Relation.ReflTransGen (program st nw ptrMark markHeight markWidth junk).Step s s'
  loc : ∀ t ≠ .worker i, s'.loc t = s.loc t
  queue : s'.queue = s.queue
  pushed : s'.pushed = s.pushed

theorem Computes.refl : Computes st ptrMark markHeight markWidth junk i s s where
  run := .refl
  loc _ _ := rfl
  queue := rfl
  pushed := rfl

theorem Computes.trans {s'' : RecordState nw}
    (h : Computes st ptrMark markHeight markWidth junk i s s')
    (h' : Computes st ptrMark markHeight markWidth junk i s' s'') :
    Computes st ptrMark markHeight markWidth junk i s s'' where
  run := h.run.trans h'.run
  loc t ht := (h'.loc t ht).trans (h.loc t ht)
  queue := h'.queue.trans h.queue
  pushed := h'.pushed.trans h.pushed

theorem Computes.work
    {f : Watched (Memory (Thread nw) Task) Read → (WorkerState Task × List Read) ×
      Watched (Memory (Thread nw) Task) Read}
    (ha : .work f ∈ (program st nw ptrMark markHeight markWidth junk).actions (.worker i)
      (s.loc (.worker i))) :
    Computes st ptrMark markHeight markWidth junk i s (s.afterWork (.worker i) (f s.mem)) where
  run := .single (.work s (.worker i) f ha)
  loc _ ht := Function.update_of_ne ht ..
  queue := rfl
  pushed := rfl

theorem Computes.read {x : WorkerState Task} {r : Read} {rest : List Read}
    (hx : s.loc (.worker i) = (x, r :: rest)) :
    ∃ s', Computes st ptrMark markHeight markWidth junk i s s' ∧
      s'.loc (.worker i) =
        (if freed s.mem.mem r then r.assign (junk s.mem.mem r) x else x, rest) ∧
      s'.mem.mem = s.mem.mem := by
  have ha : .work ((reads markHeight markWidth junk).read (.worker i) x r rest) ∈
      (program st nw ptrMark markHeight markWidth junk).actions (.worker i)
        (s.loc (.worker i)) := by
    rw [hx]
    exact List.mem_singleton_self _
  refine ⟨_, .work ha, ?_, Reads.read_mem ..⟩
  simp only [State.afterWork, Function.update_self]
  exact Reads.read_fst ..

theorem Computes.act {x : WorkerState Task}
    {f : Memory (Thread nw) Task → WorkerState Task × Memory (Thread nw) Task}
    (hx : s.loc (.worker i) = (x, []))
    (ha : .work f ∈ ((workerMap ptrMark).actions (fun _ => infoVector markHeight markWidth nw i)
      (Thread.worker i) i i x : List (Action (@Chan.Msg (Fin nw) Task) _ _))) :
    ∃ s', Computes st ptrMark markHeight markWidth junk i s s' ∧
      s'.loc (.worker i) = ((f s.mem.mem).1,
        workerReads (infoVector markHeight markWidth nw i) (f s.mem.mem).1) ∧
      s'.mem.mem = (f s.mem.mem).2 := by
  have hmem : (Action.work f).reading (workerReads (infoVector markHeight markWidth nw i)) ∈
      (program st nw ptrMark markHeight markWidth junk).actions (.worker i)
        (s.loc (.worker i)) := by
    rw [hx]
    exact List.mem_map_of_mem ha
  exact ⟨_, .work hmem, Function.update_self .., rfl⟩

theorem Computes.loop {imageInfo : Task} {loop : LoopState} {imageCounter : ℕ}
    (hx : s.loc (.worker i) = (.stamp imageInfo loop imageCounter,
      if (infoVector markHeight markWidth nw i).finished loop
        then [.ptrImage imageInfo.record] else [])) :
    ∃ s' loop', Computes st ptrMark markHeight markWidth junk i s s' ∧
      s'.loc (.worker i) =
        (.stamp imageInfo loop' imageCounter, [.ptrImage imageInfo.record]) ∧
      (infoVector markHeight markWidth nw i).finished loop' = true ∧
      s'.mem.mem.events = s.mem.mem.events := by
  induction hk : (infoVector markHeight markWidth nw i).loopRank loop using
    Nat.strong_induction_on generalizing s loop with
  | _ k ih =>
    by_cases hend : (infoVector markHeight markWidth nw i).finished loop = true
    · rw [if_pos hend] at hx
      exact ⟨s, loop, .refl, hx, hend, rfl⟩
    · rw [if_neg hend] at hx
      have hrun := Bool.not_eq_true _ ▸ hend
      have hlt := (infoVector markHeight markWidth nw i).loopRank_bodyStep ptrMark
        (s.mem.mem.pixels imageInfo.ptrDataImage) hrun
      have hne := (infoVector markHeight markWidth nw i).bodyStep_ne_start ptrMark loop
        (s.mem.mem.pixels imageInfo.ptrDataImage)
      obtain ⟨s₁, hs₁, hx₁, hmem₁⟩ := @Computes.act st nw ptrMark markHeight markWidth junk s i
        _ _ hx (List.mem_singleton_self _)
      simp only [hrun, Bool.false_eq_true, if_false] at hx₁ hmem₁
      have hev₁ : s₁.mem.mem.events = s.mem.mem.events := by
        rw [hmem₁]
        rfl
      have hreads : workerReads (infoVector markHeight markWidth nw i) (.stamp imageInfo
          ((infoVector markHeight markWidth nw i).bodyStep ptrMark loop
            (s.mem.mem.pixels imageInfo.ptrDataImage)).1 imageCounter) = _ :=
        congrArg (· ++ _) (if_neg hne)
      obtain ⟨s', loop', hs', hx', hend', hev'⟩ :=
        ih _ (hk ▸ hlt) (hx₁.trans (congrArg _ hreads)) rfl
      exact ⟨s', loop', hs₁.trans hs', hx', hend', hev'.trans hev₁⟩

theorem assign_ptrDataImage (found : Bool) (p : Ptr) (imageInfo : Task) (loop : LoopState)
    (imageCounter : ℕ) :
    ∃ imageInfo', (if found then (Read.ptrDataImage imageInfo.record).assign p
          (.stamp imageInfo loop imageCounter)
        else .stamp imageInfo loop imageCounter) = .stamp imageInfo' loop imageCounter ∧
      imageInfo'.record = imageInfo.record ∧ imageInfo'.ptrImage = imageInfo.ptrImage := by
  cases found with
  | true => exact ⟨{ imageInfo with ptrDataImage := p }, rfl, rfl, rfl⟩
  | false => exact ⟨imageInfo, rfl, rfl, rfl⟩

theorem assign_ptrImage (found : Bool) (p : Ptr) (imageInfo : Task) (loop : LoopState)
    (imageCounter : ℕ) :
    ∃ imageInfo', (if found then (Read.ptrImage imageInfo.record).assign p
          (.stamp imageInfo loop imageCounter)
        else .stamp imageInfo loop imageCounter) = .stamp imageInfo' loop imageCounter ∧
      imageInfo'.record = imageInfo.record ∧
      imageInfo'.ptrImage = if found then p else imageInfo.ptrImage := by
  cases found with
  | true => exact ⟨{ imageInfo with ptrImage := p }, rfl, rfl, rfl⟩
  | false => exact ⟨imageInfo, rfl, rfl, rfl⟩

/-- From the first read to the `delete`: the worker has the image of the record, or what
has been put in its place. -/
theorem Computes.chunk {p : Ptr} {imageInfo : Task} {imageCounter : ℕ}
    (hx : s.loc (.worker i) = (.stamp imageInfo .start imageCounter,
      workerReads (infoVector markHeight markWidth nw i) (.stamp imageInfo .start imageCounter))) :
    ∃ s' imageInfo', Computes st ptrMark markHeight markWidth (fun _ _ => p) i s s' ∧
      s'.loc (.worker i) = (.propagate imageInfo' imageCounter, []) ∧
      imageInfo'.ptrImage =
        (if imageInfo.record ∈ releases s.unread then p else imageInfo.ptrImage) ∧
      imageInfo.record ∈ releases s'.unread := by
  have hreads : workerReads (infoVector markHeight markWidth nw i)
      (.stamp imageInfo .start imageCounter) = .ptrDataImage imageInfo.record :: _ :=
    congrArg (· ++ _) (if_pos rfl)
  rw [hreads] at hx
  -- `ptrDataImg = imageInfo->ptrDataImage`
  obtain ⟨s₁, hs₁, hx₁, hmem₁⟩ := @Computes.read st nw ptrMark markHeight markWidth
    (fun _ _ => p) s i _ _ _ hx
  obtain ⟨info₁, hinfo₁, hrecord₁, himage₁⟩ := assign_ptrDataImage
    (freed s.mem.mem (.ptrDataImage imageInfo.record)) p imageInfo .start imageCounter
  rw [hinfo₁, ← hrecord₁] at hx₁
  obtain ⟨s₂, loop, hs₂, hx₂, hend, hev₂⟩ :=
    @Computes.loop st nw ptrMark markHeight markWidth (fun _ _ => p) s₁ i _ _ _ hx₁
  -- `imageInfo->ptrImage`
  obtain ⟨s₃, hs₃, hx₃, hmem₃⟩ := @Computes.read st nw ptrMark markHeight markWidth
    (fun _ _ => p) s₂ i _ _ _ hx₂
  obtain ⟨info₃, hinfo₃, hrecord₃, himage₃⟩ := assign_ptrImage
    (freed s₂.mem.mem (.ptrImage info₁.record)) p info₁ loop imageCounter
  rw [hinfo₃] at hx₃
  -- `delete imageInfo`
  obtain ⟨s₄, hs₄, hx₄, hmem₄⟩ := @Computes.act st nw ptrMark markHeight markWidth
    (fun _ _ => p) s₃ i _ _ hx₃ (List.mem_singleton_self _)
  simp only [hend, if_true] at hx₄ hmem₄
  have hfreed : freed s₂.mem.mem (.ptrImage info₁.record) =
      decide (imageInfo.record ∈ releases s.unread) := by
    rw [freed, hev₂, hmem₁]
    exact congrArg (fun r => decide (r ∈ releases s.unread)) hrecord₁
  refine ⟨s₄, info₃, (hs₁.trans hs₂).trans (hs₃.trans hs₄), hx₄, ?_, ?_⟩
  · rw [himage₃, hfreed, himage₁]
    simp only [decide_eq_true_eq]
  · have hdeleted : (.worker i, .deleteTask imageInfo.record) ∈ s₄.mem.mem.events := by
      rw [hmem₄, ← hrecord₁, ← hrecord₃]
      exact List.mem_append_right _ (List.mem_cons_of_mem _ (List.mem_singleton_self _))
    exact List.mem_filterMap.mpr ⟨_, List.mem_map_of_mem hdeleted, rfl⟩

theorem exists_svc {p : Ptr} {imageInfo : Task} {rest : List Task} {imageCounter : ℕ}
    (hx : s.loc (.worker i) = (.pop imageCounter, []))
    (hq : s.queue (.workerQueue i) = imageInfo :: rest) :
    ∃ s', Relation.ReflTransGen
        (program st nw ptrMark markHeight markWidth fun _ _ => p).Step s s' ∧
      (∀ t ≠ .worker i, s'.loc t = s.loc t ∧ s'.outs t = s.outs t) ∧
      (∀ k ≠ (i : ℕ), s'.queue (.workerQueue k) = s.queue (.workerQueue k)) ∧
      ((imageCounter : ℤ) + 1,
        if imageInfo.record ∈ releases s.unread then p else imageInfo.ptrImage) ∈
          s'.outs (.worker i) (.gatherQueue i) ∧
      imageInfo.record ∈ releases s'.unread := by
  let next (task : Task) : WorkerState Task × List Read := (.stamp task .start imageCounter,
    workerReads (infoVector markHeight markWidth nw i) (.stamp task .start imageCounter))
  have hpop : .pop (.workerQueue i) next ∈
      (program st nw ptrMark markHeight markWidth fun _ _ => p).actions (.worker i)
        (s.loc (.worker i)) := by
    rw [hx]
    exact List.mem_singleton_self _
  obtain ⟨s₁, imageInfo', hs₁, hx₁, himage, hreleased⟩ :=
    @Computes.chunk st nw ptrMark markHeight markWidth
      (s.afterPop (.worker i) (.workerQueue i) imageInfo rest (next imageInfo)) i p _ _
      (Function.update_self ..)
  have hpush : .push (.gatherQueue i) ((imageCounter : ℤ) + 1, imageInfo'.ptrImage)
      (.pop (imageCounter + 1), []) ∈
      (program st nw ptrMark markHeight markWidth fun _ _ => p).actions (.worker i)
        (s₁.loc (.worker i)) := by
    rw [hx₁]
    exact List.mem_singleton_self _
  have hpopped : (program st nw ptrMark markHeight markWidth fun _ _ => p).Step s
      (s.afterPop (.worker i) (.workerQueue i) imageInfo rest (next imageInfo)) :=
    .pop s (.worker i) (.workerQueue i) next imageInfo rest hpop hq
  refine ⟨_, (hs₁.run.head hpopped).tail (.push s₁ _ _ _ _ hpush),
    fun t ht => ⟨?_, ?_⟩, fun k hk => ?_, ?_, hreleased⟩
  · exact (Function.update_of_ne ht ..).trans
      ((hs₁.loc t ht).trans (Function.update_of_ne ht ..))
  · rw [State.outs_afterPush_ne _ _ _ _ _ (Ne.symm ht)]
    exact congrArg (fun pushed q => entries t (pushed q)) hs₁.pushed
  · have hout : (Chan.workerQueue k : Chan (Fin nw)) ≠ .gatherQueue i := nofun
    have hin : (Chan.workerQueue k : Chan (Fin nw)) ≠ .workerQueue i :=
      fun he => hk (Chan.workerQueue.inj he)
    simp only [State.afterPush, State.afterPop, hs₁.queue, Function.update_of_ne hout,
      Function.update_of_ne hin]
  · rw [State.outs_afterPush_self, Function.update_self, himage]
    exact List.mem_append_right _ (List.mem_singleton_self _)

theorem exists_send {n : ℕ} (hst : 1 ≤ st.size) (hn : n < nw) (hx : s.loc .emitter = (n, [])) :
    (program st nw ptrMark markHeight markWidth junk).Step s
      (s.afterPush .emitter (.workerQueue n) (taskOf st 0) (n + 1, [])) := by
  have hsend : (scatterMap st nw)[n]? = some (taskOf st 0) := by
    obtain ⟨m, hm⟩ := Nat.exists_eq_add_of_le' hst
    rw [scatterMap, hm, List.range_succ_eq_map, List.flatMap_cons,
      List.getElem?_append_left (by simpa using hn), List.getElem?_map, List.getElem?_range hn]
    rfl
  have hchoice : choices (scatterMap st nw) (fun t => [t % nw]) n = [(n, taskOf st 0)] := by
    rw [choices, hsend, Nat.mod_eq_of_lt hn]
    rfl
  have hpush : .push (.workerQueue n) (taskOf st 0) (n + 1, []) ∈
      (program st nw ptrMark markHeight markWidth junk).actions .emitter (s.loc .emitter) := by
    rw [hx]
    change _ ∈ (sendActions (choices (scatterMap st nw) (fun t => [t % nw]) n) (n + 1)).map _
    rw [hchoice]
    exact List.mem_singleton_self _
  exact .push s _ _ _ _ hpush

/-- Two workers are sent the first record; the first deletes it, and then the second
reads it. -/
theorem exists_stale (pixels : Ptr → Buffer) (hst : 1 ≤ st.size) (hnw : 2 ≤ nw) (p : Ptr) :
    ∃ s, (program st nw ptrMark markHeight markWidth fun _ _ => p).Reachable ⟨⟨pixels, []⟩, []⟩ s ∧
      (1, st.img 0) ∈ s.outs (.worker ⟨0, by omega⟩) (.gatherQueue ⟨0, by omega⟩) ∧
      (1, p) ∈ s.outs (.worker ⟨1, hnw⟩) (.gatherQueue ⟨1, hnw⟩) := by
  -- both sends
  let s₀ := (program st nw ptrMark markHeight markWidth fun _ _ => p).initial ⟨⟨pixels, []⟩, []⟩
  let s₁ := s₀.afterPush .emitter (.workerQueue 0) (taskOf st 0) (0 + 1, [])
  let s₂ := s₁.afterPush .emitter (.workerQueue 1) (taskOf st 0) (1 + 1, [])
  have hs₁ := @exists_send st nw ptrMark markHeight markWidth (fun _ _ => p) s₀ 0 hst
    (by omega) rfl
  have hs₂ := @exists_send st nw ptrMark markHeight markWidth (fun _ _ => p) s₁ 1 hst hnw rfl
  have hreleases : (taskOf st 0).record ∉ releases s₂.unread := List.not_mem_nil
  -- both calls
  let i₀ : Fin nw := ⟨0, by omega⟩
  let i₁ : Fin nw := ⟨1, hnw⟩
  have hne : i₁ ≠ i₀ := fun he => Nat.one_ne_zero (congrArg Fin.val he)
  obtain ⟨s₃, hrun₃, hothers₃, hqueues₃, hresult₃, hdeleted⟩ :=
    @exists_svc st nw ptrMark markHeight markWidth s₂ i₀ p _ _ _ rfl rfl
  have hloc₁ : s₃.loc (.worker i₁) = (.pop 0, []) :=
    (hothers₃ _ fun he => hne (Thread.worker.inj he)).1
  obtain ⟨s₄, hrun₄, hothers₄, -, hresult₄, -⟩ :=
    @exists_svc st nw ptrMark markHeight markWidth s₃ i₁ p _ _ _ hloc₁
      (hqueues₃ 1 Nat.one_ne_zero)
  rw [if_neg hreleases] at hresult₃
  rw [if_pos hdeleted] at hresult₄
  refine ⟨s₄, ((Relation.ReflTransGen.single hs₁).tail hs₂).trans (hrun₃.trans hrun₄), ?_, hresult₄⟩
  rw [(hothers₄ _ fun he => hne (Thread.worker.inj he).symm).2]
  exact hresult₃

end Svc

/-! ## The collector -/

section Collector
variable {junk : Junk nw}

theorem rank_assign (infoChunk : Task → ChunkInfo) (r : Read) (value : Ptr)
    (hinfo : ∀ task task', infoChunk task = infoChunk task') (x : WorkerState Task) :
    WorkerCode.rank infoChunk (r.assign value x) = WorkerCode.rank infoChunk x := by
  cases x with
  | stamp imageInfo loop imageCounter =>
    cases r <;> simp only [Read.assign, WorkerCode.rank, hinfo _ imageInfo]
  | pop | propagate | propagateEos | finish | returned => cases r <;> rfl

theorem exists_terminal (hnw : 1 ≤ nw) (s : RecordState nw) :
    ∃ s', Relation.ReflTransGen (program st nw ptrMark markHeight markWidth junk).Step s s' ∧
      (program st nw ptrMark markHeight markWidth junk).Terminal s' := by
  refine ((Code.ranking (delivers ptrMark markHeight markWidth hnw)).reading 2
    (fun t x => ?_) fun t mem r x => ?_).exists_terminal s
  · cases t with
    | worker i => exact length_workerReads_le ..
    | emitter | collector => exact Nat.zero_le 2
  · cases t with
    | worker i => exact (rank_assign _ r _ (fun _ _ => rfl) x).le
    | emitter | collector => exact le_rfl

/-- The collector counts correctly: so far, at the end, and the end can be reached. -/
def CollectsToEnd (st : ImageStream) (ptrMark : Buffer) (markHeight markWidth : ℕ)
    (junk : Junk nw) (s : RecordState nw) : Prop :=
  Collects st s.unread ∧
  ((program st nw ptrMark markHeight markWidth junk).Terminal s →
    ∀ k, (gatherMap st nw).inPool (resultOf st k).1 = true →
      savesOf st s.unread k = [resultOf st k]) ∧
  ∃ s', Relation.ReflTransGen (program st nw ptrMark markHeight markWidth junk).Step s s' ∧
    (program st nw ptrMark markHeight markWidth junk).Terminal s'

theorem collectsToEnd {s : RecordState nw} (hnw : 1 ≤ nw) (hcond : nw = 1 ∨ st.size = 0)
    (h : (program st nw ptrMark markHeight markWidth junk).Reachable ⟨⟨pixels, []⟩, []⟩ s) :
    CollectsToEnd st ptrMark markHeight markWidth junk s := by
  have hbase := reachable_unread h (defined hcond h)
  refine ⟨collects hnw hbase, fun hterm k hin => ?_, exists_terminal hnw s⟩
  exact savesOf_terminal hnw hbase (Program.Terminal.unread hterm) (lt_of_inPool hin)

end Collector

/-- Whatever the memory of a deleted record holds, the collector counts correctly with
one worker or without images. With more workers the second finds no image in the record
that the first has deleted. -/
theorem map_collects_iff (st : ImageStream) (ptrMark : Buffer) (markHeight markWidth : ℕ)
    (pixels : Ptr → Buffer) {nw : ℕ} (hnw : 1 ≤ nw) :
    (∀ junk s,
      (program st nw ptrMark markHeight markWidth junk).Reachable ⟨⟨pixels, []⟩, []⟩ s →
      CollectsToEnd st ptrMark markHeight markWidth junk s) ↔ nw = 1 ∨ st.size = 0 := by
  constructor
  · intro hall
    by_contra hcond
    obtain ⟨s, hs, hfirst, hsecond⟩ := @exists_stale st nw ptrMark markHeight markWidth pixels
      (by omega) (by omega) NULL
    have hnumbers := (hall _ s hs).1.numbers _ _ _ _ hfirst hsecond
    exact st.img_ne (by omega) (hnumbers.mp rfl)
  · intro hcond junk s h
    exact collectsToEnd hnw hcond h

/-- Two images and two workers. -/
theorem map_collects_iff_twoImages :
    (∀ junk s, (program twoImages 2 [0, 200, 49, 50] 2 2 junk).Reachable
        ⟨⟨fun _ => List.replicate 12 100, []⟩, []⟩ s →
      CollectsToEnd twoImages [0, 200, 49, 50] 2 2 junk s) ↔ 2 = 1 ∨ twoImages.size = 0 :=
  map_collects_iff twoImages [0, 200, 49, 50] 2 2 (fun _ => List.replicate 12 100) (by decide)

/-- The emitter's second record takes the memory of the first. -/
def reused : Junk 2 := fun _ r =>
  match r with
  | .ptrDataImage _ => twoImages.pix 1
  | .ptrImage _ => twoImages.img 1

/-- There both workers number their first image 1. The second worker finds the second
image in the deleted record, and the collector saves that one under the number. -/
theorem map_collects_reused :
    ∃ s, (program twoImages 2 [0, 200, 49, 50] 2 2 reused).Reachable
        ⟨⟨fun _ => List.replicate 12 100, []⟩, []⟩ s ∧
      s.outs (.worker 0) (.gatherQueue 0) = [(1, twoImages.img 0)] ∧
      s.outs (.worker 1) (.gatherQueue 1) = [(1, twoImages.img 1)] ∧
      saves s.unread = [(1, twoImages.img 1)] ∧ ¬ Collects twoImages s.unread := by
  have hrun : ((program twoImages 2 [0, 200, 49, 50] 2 2 reused).exec
      ((program twoImages 2 [0, 200, 49, 50] 2 2 reused).initial
        ⟨⟨fun _ => List.replicate 12 100, []⟩, []⟩)
      (List.replicate 2 (.emitter, 0) ++ List.replicate 9 (.worker 0, 0) ++ [(.emitter, 0)] ++
        List.replicate 9 (.worker 1, 0) ++ List.replicate 2 (.collector, 0) ++
        [(.collector, 1), (.collector, 0)])).map
      (fun s => (s.outs (.worker 0) (.gatherQueue 0), s.outs (.worker 1) (.gatherQueue 1),
        saves s.unread)) =
        some ([(1, twoImages.img 0)], [(1, twoImages.img 1)], [(1, twoImages.img 1)]) := by rfl
  obtain ⟨s, hs, hshow⟩ := Program.exists_of_exec _ _ hrun
  obtain ⟨hfirst, hrest⟩ := Prod.mk.inj hshow
  obtain ⟨hsecond, hsaves⟩ := Prod.mk.inj hrest
  refine ⟨s, hs, hfirst, hsecond, hsaves, fun hcollects => ?_⟩
  have hnumbers := hcollects.numbers 0 1 (1, twoImages.img 0) (1, twoImages.img 1)
    (hfirst ▸ List.mem_singleton_self _) (hsecond ▸ List.mem_singleton_self _)
  exact absurd (hnumbers.mp rfl) (by decide)

end WaterMark.FastFlow.Map
