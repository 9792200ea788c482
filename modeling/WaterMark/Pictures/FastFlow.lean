import WaterMark.FastFlow.FarmMap
import WaterMark.FastFlow.Records
import WaterMark.Pictures.Maps

/-! # The pictures of the FastFlow versions

The stamping of the FastFlow map and of the FastFlow farm of maps is right in every
run, whatever the collector counts: at the end the memory holds the pictures of the
sequential program. A picture that is saved at the right time is one of them.
-/

namespace WaterMark.FastFlow
open ChannelNetwork TaggedLog Pixels Maps Gather Pictures

variable {J : Type} {nw nc : ℕ}

theorem GatherMap.works {T : Type} {g : GatherMap} {t : T} {x : CollectorState}
    {info : J → ChunkInfo} {dataImg : J → Ptr} {ptrMark : Buffer} {mem : Memory T J}
    {f : Memory T J → CollectorState × Memory T J} (ha : .work f ∈ g.actions nw t x) :
    Works t (fun _ => none) info dataImg ptrMark x mem (f mem) := by
  cases x with
  | pop pool => simp [actions] at ha
  | svc r pool =>
    rcases List.mem_map.mp ha with ⟨full, -, he⟩
    cases he
    refine .other rfl rfl fun job hjob => ?_
    cases full <;> simp [svcEvents] at hjob

namespace Code

def hand : (t : Thread nw) → Loc J t → Option (J × LoopState)
  | .emitter => fun _ => none
  | .worker _ => WorkerState.hand
  | .collector => fun _ => none

def stamping (P : Code J nw) (piece : Fin nw → J → ℕ → Fin nc → Prop) :
    Stamping (Thread nw) J (Loc J) nc where
  hand := hand
  piece
    | .worker i => piece i
    | _ => fun _ _ _ => False
  dataImg := P.worker.dataImg
  info
    | .worker i => fun task => P.info task i
    | _ => fun _ => ⟨0, 0, 0, 0⟩
  ptrMark := P.worker.ptrMarker

theorem describes {P : Code J nw} (hP : P.worker.Quiet) (piece : Fin nw → J → ℕ → Fin nc → Prop) :
    (P.stamping piece).Describes P.program where
  start t := by cases t <;> rfl
  pop t x q next m ha := by
    cases t with
    | emitter => exact absurd ha send_pop_none
    | worker i => exact WorkerCode.pop_hand ha
    | collector => exact ⟨rfl, fun task loop h => by cases h⟩
  push t x q m next ha := by
    cases t with
    | emitter => exact ⟨rfl, rfl⟩
    | worker i => exact WorkerCode.push_hand ha
    | collector => exact ⟨rfl, rfl⟩
  work t x mem f ha := by
    cases t with
    | emitter => exact absurd ha send_work_none
    | worker i => exact WorkerCode.works hP ha
    | collector => exact GatherMap.works ha

section Hold
variable {P : Code J nw} {piece : Fin nw → J → ℕ → Fin nc → Prop} {s : FarmState J nw}
  {t : Thread nw} {task : J}

theorem stamp_of_holds {loop : LoopState} (ht : (P.stamping piece).Holds s t task loop) :
    ∃ i n, t = .worker i ∧ s.loc (.worker i) = .stamp task loop n := by
  cases t with
  | emitter => cases ht
  | worker i =>
    rcases WorkerState.hand_eq ht with ⟨n, hn⟩
    exact ⟨i, n, rfl, hn⟩
  | collector => cases ht

theorem worker_of_piece {j : ℕ} {c : Fin nc} (hp : (P.stamping piece).piece t task j c) :
    ∃ i, t = .worker i ∧ piece i task j c := by
  cases t with
  | emitter => exact hp.elim
  | worker i => exact ⟨i, rfl, hp⟩
  | collector => exact hp.elim

end Hold

section Flow
variable {P : Code J nw} {s : FarmState J nw} {sent : List (ℕ × J)} {log : List (Fin nw × Result)}

/-- The task in the hand of a worker comes after those that it has stamped. -/
theorem Flow.stamping_next (hF : P.Flow s sent log) (hP : P.worker.Quiet) {i : Fin nw} {task : J}
    {loop : LoopState} {n : ℕ} (hloc : s.loc (.worker i) = .stamp task loop n) :
    ∃ done, done ++ [task] <+: entries (i : ℕ) sent ∧
      ∀ job, .chunkDone job ∈ s.mem.eventsOf (.worker i) → job ∈ done := by
  have hplace := hF.worker i
  have hgot := hF.received i
  rw [hloc] at hplace
  generalize s.ins (.worker i) (.workerQueue i) = got at hplace hgot
  generalize s.outs (.worker i) (.gatherQueue i) = out at hplace
  generalize s.mem.eventsOf (.worker i) = events at hplace ⊢
  cases hplace with
  | @stamp done _ _ h =>
    refine ⟨done, ⟨_, hgot⟩, fun job hjob => ?_⟩
    rcases List.mem_flatMap.mp hjob with ⟨task', htask', he⟩
    rcases List.mem_cons.mp he with he | he
    · cases he
      exact htask'
    · exact absurd he (hP.chunk _ _)

theorem Flow.stamped_sent (hF : P.Flow s sent log) (hP : P.worker.Quiet) {i : Fin nw} {job : J}
    (hjob : .chunkDone job ∈ s.mem.eventsOf (.worker i)) : job ∈ entries (i : ℕ) sent := by
  have hplace := hF.worker i
  rw [← hF.received i]
  apply List.mem_append_left
  have hchunk {tasks : List J} (h : .chunkDone job ∈ P.worker.chunkEvents tasks) : job ∈ tasks := by
    rcases List.mem_flatMap.mp h with ⟨task', htask', he⟩
    rcases List.mem_cons.mp he with he | he
    · cases he
      exact htask'
    · exact absurd he (hP.chunk _ _)
  generalize s.loc (.worker i) = x at hplace
  generalize s.ins (.worker i) (.workerQueue i) = got at hplace ⊢
  generalize s.outs (.worker i) (.gatherQueue i) = out at hplace
  generalize s.mem.eventsOf (.worker i) = events at hplace hjob
  cases hplace with
  | pop h | propagate h => exact hchunk hjob
  | stamp loop h | propagateEos h heof | finish h heof => exact List.mem_append_left _ (hchunk hjob)
  | returned h heof =>
    rcases List.mem_append.mp hjob with hjob | hjob
    · exact List.mem_append_left _ (hchunk hjob)
    · exact absurd hjob (hP.finish _)

end Flow

end Code

end WaterMark.FastFlow

namespace WaterMark.FastFlow.Map
open ChannelNetwork TaggedLog Pixels Maps Gather Pictures

variable {st : ImageStream} {nw : ℕ} {ptrMark : Buffer} {markHeight markWidth : ℕ}
  {pixels : Ptr → Buffer} {s : FarmState Task nw}

def piece (st : ImageStream) {nw : ℕ} (i : Fin nw) (imageInfo : Task) (j : ℕ) (c : Fin nw) : Prop :=
  c = i ∧ j < st.size ∧ imageInfo = taskOf st j

theorem quiet : (code st nw ptrMark markHeight markWidth).worker.Quiet where
  chunk _ job he := by cases List.mem_singleton.mp he
  finish _ := List.not_mem_nil

theorem cuts : ((code st nw ptrMark markHeight markWidth).stamping (piece st)).Cuts st
    markHeight markWidth where
  lt hp := by
    rcases Code.worker_of_piece hp with ⟨i, -, -, hj, -⟩
    exact hj
  dataImg hp := by
    rcases Code.worker_of_piece hp with ⟨i, -, -, -, rfl⟩
    rfl
  info hp := by
    rcases Code.worker_of_piece hp with ⟨i, rfl, rfl, -, -⟩
    rfl
  chunk_unique hp hp' := by
    rcases Code.worker_of_piece hp with ⟨i, rfl, rfl, -⟩
    rcases Code.worker_of_piece hp' with ⟨i', ht, rfl, -⟩
    cases ht
    rfl

theorem nodup_tasks (st : ImageStream) : (tasks st).Nodup := .of_map _ (nodup_record st)

theorem alone (h : (code st nw ptrMark markHeight markWidth).program.Reachable ⟨pixels, []⟩ s) :
    ((code st nw ptrMark markHeight markWidth).stamping (piece st)).Alone s := by
  rcases Code.exists_flow h with ⟨sent, log, hF⟩
  refine ⟨fun ht => ?_, fun _ hp _ hp' => ?_, fun ht hp => ?_⟩
  · rcases Code.stamp_of_holds ht with ⟨i, n, rfl, hloc⟩
    rcases hF.stamping_next quiet hloc with ⟨done, hdone, -⟩
    have hmem := (hdone.trans (entries_sent_le hF.sends i)).subset
      (List.mem_append_right _ (List.mem_singleton_self _))
    rcases List.mem_map.mp hmem with ⟨j, hj, rfl⟩
    exact ⟨j, i, rfl, List.mem_range.mp hj, rfl⟩
  · rcases Code.worker_of_piece hp with ⟨i, rfl, rfl, -⟩
    rcases Code.worker_of_piece hp' with ⟨i', rfl, rfl, -⟩
    rfl
  · rintro ⟨u, task', hmem, hp'⟩
    rcases Code.worker_of_piece hp with ⟨i, rfl, rfl, -, rfl⟩
    rcases Code.worker_of_piece hp' with ⟨i', rfl, rfl, -, rfl⟩
    rcases Code.stamp_of_holds ht with ⟨_, n, he, hloc⟩
    cases he
    rcases hF.stamping_next quiet hloc with ⟨done, hle, hdone⟩
    have hnodup := (nodup_tasks st).sublist (hle.trans (entries_sent_le hF.sends _)).sublist
    exact hnodup.disjoint (hdone _ (mem_entries.mpr hmem)) (List.mem_singleton_self _)

/-- When all workers have stamped their chunk of an image, its picture is that of
the sequential program. -/
theorem pixels_eq (hnw : 1 ≤ nw)
    (h : (code st nw ptrMark markHeight markWidth).program.Reachable ⟨pixels, []⟩ s) {k : ℕ}
    (hk : k < st.size) (hall : ∀ i, .chunkDone (taskOf st k) ∈ s.mem.eventsOf (.worker i)) :
    s.mem.pixels (st.pix k) = (Seq.stamped st ptrMark markHeight markWidth pixels k).2 :=
  (Code.describes quiet (piece st)).pixels_eq cuts (fun _ hs => alone hs) hnw hk h fun i =>
    ⟨.worker i, _, mem_entries.mp (hall i), rfl, hk, rfl⟩

/-- A save under a number inside `pool` writes the picture of the sequential
program for the image before it. -/
theorem saved_picture (hnw : 1 ≤ nw)
    (h : (code st nw ptrMark markHeight markWidth).program.Reachable ⟨pixels, []⟩ s) :
    ∀ e ∈ s.mem.events, ∀ imageId path ptrImg picture,
      e = (.collector, .save imageId path ptrImg picture) →
      (gatherMap st nw).inPool imageId = true → ∃ k < st.size, imageId = k + 1 ∧
        ptrImg = st.img k ∧
        picture = (Seq.stamped st ptrMark markHeight markWidth pixels k).2 := by
  refine Program.forall_log_of_run (fun _ _ hstep => hstep) h Memory.events rfl
    fun s hs t f ha => ?_
  cases t with
  | emitter => exact absurd ha send_work_none
  | worker i =>
    rcases WorkerCode.work_events ha with ⟨es, hes⟩
    refine ⟨_, hes, fun e he imageId path ptrImg picture hsave => ?_⟩
    rcases List.mem_map.mp he with ⟨e', -, rfl⟩
    cases hsave
  | collector =>
    rcases GatherMap.work_events ha with ⟨r, pool, full, hout, hloc, hes⟩
    refine ⟨_, hes, fun e he imageId path ptrImg picture hsave hin => ?_⟩
    rcases List.mem_map.mp he with ⟨e', he', rfl⟩
    cases hsave
    cases full with
    | false => cases List.mem_singleton.mp he'
    | true =>
      rcases List.mem_cons.mp he' with he' | he'
      · cases he'
      · cases List.mem_singleton.mp he'
        rcases Code.exists_flow hs with ⟨sent, log, hF⟩
        rcases full_result hnw hF hloc hout hin with ⟨k, hk, rfl, hall⟩
        refine ⟨k, hk, rfl, rfl, ?_⟩
        rw [← pixels_eq hnw hs hk hall, st.pix_eq hk]
        rfl

theorem stamped_terminal (hnw : 1 ≤ nw)
    (h : (code st nw ptrMark markHeight markWidth).program.Reachable ⟨pixels, []⟩ s)
    (hterm : (code st nw ptrMark markHeight markWidth).program.Terminal s) {k : ℕ}
    (hk : k < st.size) (i : Fin nw) : .chunkDone (taskOf st k) ∈ s.mem.eventsOf (.worker i) := by
  rcases Code.exists_flow h with ⟨sent, log, hF⟩
  have hend := hF.finished (delivers ptrMark markHeight markWidth hnw) hterm
  rw [hend.worker, entries_sent_all hF.sends hend.sends]
  exact WorkerCode.mem_chunkEvents _ (List.mem_map_of_mem (List.mem_range.mpr hk))

theorem written_terminal (hnw : 1 ≤ nw)
    (h : (code st nw ptrMark markHeight markWidth).program.Reachable ⟨pixels, []⟩ s)
    (hterm : (code st nw ptrMark markHeight markWidth).program.Terminal s) {k : ℕ}
    (hk : k + 1 < st.size) : (.collector, .save (k + 1) (savePath (k + 1)) (st.img k)
      (Seq.stamped st ptrMark markHeight markWidth pixels k).2) ∈ s.mem.events := by
  have hin : (gatherMap st nw).inPool ((k : ℤ) + 1) = true := decide_eq_true ⟨by omega, by omega⟩
  have hmem : resultOf st k ∈ saves s := by
    have hsaves := savesOf_terminal hnw h hterm hk
    have hfirst : resultOf st k ∈ savesOf st s k := by
      rw [hsaves]
      exact List.mem_singleton_self _
    exact List.mem_of_mem_filter hfirst
  rcases List.mem_filterMap.mp hmem with ⟨e, he, hresult⟩
  rcases List.mem_map.mp he with ⟨⟨t, e⟩, hte, rfl⟩
  cases e with
  | save imageId path ptrImg picture =>
    cases hresult
    rcases List.append_of_mem hte with ⟨before, after, hsplit⟩
    rcases save_caused hnw h hsplit hin with ⟨rfl, rfl, -⟩
    rcases saved_picture hnw h _ hte _ _ _ _ rfl hin with ⟨j, hj, -, hptr, rfl⟩
    obtain rfl := (st.img_inj (by omega) hj).mp hptr
    exact hte
  | chunkDone | deleteImage | deleteTask | deleteInfo | deleteMark | access | printOut =>
    cases hresult

/-- The pictures of the FastFlow map, though their numbers are not right. As long as no
deleted record has been read or deleted once more, each byte is the loaded one or that of
the sequential program, and a save under a number inside `pool` writes the sequential
picture of the image before this number. It is so in all runs with one worker or without
images, and in no other complete run. At the end the memory then holds the sequential
pictures of all images, and those with a number inside `pool` are written. -/
theorem ffMap_pictures_seq (st : ImageStream) (ptrMark : Buffer) (markHeight markWidth : ℕ)
    (pixels : Ptr → Buffer) {nw : ℕ} (hnw : 1 ≤ nw) (junk : Junk nw) (s : RecordState nw)
    (h : (program st nw ptrMark markHeight markWidth junk).Reachable ⟨⟨pixels, []⟩, []⟩ s) :
    (Defined s.mem →
      (∀ k < st.size, ∀ p : ℕ,
        (s.mem.mem.pixels (st.pix k))[p]? = (pixels (st.pix k))[p]? ∨
        (s.mem.mem.pixels (st.pix k))[p]? =
          (Seq.stamped st ptrMark markHeight markWidth pixels k).2[p]?) ∧
      (∀ imageId path ptrImg picture,
        (.collector, .save imageId path ptrImg picture) ∈ s.mem.mem.events →
        (gatherMap st nw).inPool imageId = true → ∃ k < st.size, imageId = k + 1 ∧
          ptrImg = st.img k ∧
          picture = (Seq.stamped st ptrMark markHeight markWidth pixels k).2)) ∧
    (nw = 1 ∨ st.size = 0 → Defined s.mem) ∧
    ((program st nw ptrMark markHeight markWidth junk).Terminal s →
      (Defined s.mem ↔ nw = 1 ∨ st.size = 0) ∧ (Defined s.mem → ∀ k < st.size,
        s.mem.mem.pixels (st.pix k) = (Seq.stamped st ptrMark markHeight markWidth pixels k).2 ∧
        (k + 1 < st.size → (.collector, .save (k + 1) (savePath (k + 1)) (st.img k)
          (Seq.stamped st ptrMark markHeight markWidth pixels k).2) ∈ s.mem.mem.events))) := by
  refine ⟨fun hs => ⟨fun k hk p => ?_, fun imageId path ptrImg picture hsave hin => ?_⟩,
    fun hcond => defined hcond h,
    fun hterm => ⟨defined_terminal_iff hnw h hterm, fun hs k hk => ⟨?_, fun hk' => ?_⟩⟩⟩
  · exact (Code.describes quiet (piece st)).byte_eq cuts (fun _ hs => alone hs) hk
      (reachable_unread h hs) p
  · exact saved_picture hnw (reachable_unread h hs) _ hsave imageId path ptrImg picture rfl hin
  · exact pixels_eq hnw (reachable_unread h hs) hk fun i =>
      stamped_terminal hnw (reachable_unread h hs) (Program.Terminal.unread hterm) hk i
  · exact written_terminal hnw (reachable_unread h hs) (Program.Terminal.unread hterm) hk'

/-- One worker stamps two images of four pixels, and writes the first under the number 1. -/
theorem ffMap_pictures_seq_twoImages :
    ∃ s, (program twoImages 1 [0, 200, 49, 50] 2 2 fun _ _ => NULL).Reachable
        ⟨⟨fun _ => List.replicate 12 100, []⟩, []⟩ s ∧
      (program twoImages 1 [0, 200, 49, 50] 2 2 fun _ _ => NULL).Terminal s ∧ Defined s.mem ∧
      (.collector, .save 1 (savePath 1) (twoImages.img 0)
        [50, 100, 74, 100, 50, 100, 74, 100, 50, 100, 74, 100]) ∈ s.mem.mem.events := by
  obtain ⟨s, hs, hterm⟩ := exists_terminal (le_refl 1)
    ((program twoImages 1 [0, 200, 49, 50] 2 2 fun _ _ => NULL).initial
      ⟨⟨fun _ => List.replicate 12 100, []⟩, []⟩)
  obtain ⟨-, hone, hend⟩ := ffMap_pictures_seq twoImages [0, 200, 49, 50] 2 2 _ (le_refl 1) _ s hs
  have hdefined := hone (.inl rfl)
  exact ⟨s, hs, hterm, hdefined, ((hend hterm).2 hdefined 0 (by decide)).2 (by decide)⟩

end WaterMark.FastFlow.Map

namespace WaterMark.FastFlow.FarmMap
open ChannelNetwork TaggedLog Pixels Maps Gather Pictures

variable {st : ImageStream} {nw nWorkerMap : ℕ} {ptrMark : Buffer} {markHeight markWidth : ℕ}
  {pixels : Ptr → Buffer} {s : FarmState (Task nWorkerMap) nw}

def piece (st : ImageStream) {nw nWorkerMap : ℕ} (_ : Fin nw) (imageInfo : Task nWorkerMap)
    (j : ℕ) (c : Fin nWorkerMap) : Prop :=
  j < st.size ∧ imageInfo = taskOf st j c

theorem quiet : (code st nw nWorkerMap ptrMark markHeight markWidth).worker.Quiet where
  chunk _ _ := List.not_mem_nil
  finish _ := List.not_mem_nil

theorem cuts : ((code st nw nWorkerMap ptrMark markHeight markWidth).stamping (piece st)).Cuts st
    markHeight markWidth where
  lt hp := by
    rcases Code.worker_of_piece hp with ⟨i, -, hj, -⟩
    exact hj
  dataImg hp := by
    rcases Code.worker_of_piece hp with ⟨i, -, -, rfl⟩
    rfl
  info hp := by
    rcases Code.worker_of_piece hp with ⟨i, rfl, -, rfl⟩
    rfl
  chunk_unique hp hp' := by
    rcases Code.worker_of_piece hp with ⟨i, -, hj, rfl⟩
    rcases Code.worker_of_piece hp' with ⟨i', -, -, he⟩
    exact (taskOf_inj hj hj he).2

section Flow
variable {sent : List (ℕ × Task nWorkerMap)} {log : List (Fin nw × Result)}

theorem nodup_sent (hF : (code st nw nWorkerMap ptrMark markHeight markWidth).Flow s sent log) :
    (sent.map Prod.snd).Nodup := by
  rw [hF.sends.1]
  exact (nodup_scatterMap st nWorkerMap).sublist (List.take_sublist _ _)

theorem sent_unique (hF : (code st nw nWorkerMap ptrMark markHeight markWidth).Flow s sent log)
    {i i' : Fin nw} {task : Task nWorkerMap} (hi : task ∈ entries (i : ℕ) sent)
    (hi' : task ∈ entries (i' : ℕ) sent) : i = i' :=
  Fin.ext (tag_unique (List.nodup_iff_count_le_one.mp (nodup_sent hF) task) (mem_entries.mp hi)
    (mem_entries.mp hi'))

end Flow

theorem alone
    (h : (code st nw nWorkerMap ptrMark markHeight markWidth).program.Reachable ⟨pixels, []⟩ s) :
    ((code st nw nWorkerMap ptrMark markHeight markWidth).stamping (piece st)).Alone s := by
  rcases Code.exists_flow h with ⟨sent, log, hF⟩
  have hsent {i : Fin nw} {task : Task nWorkerMap} {loop : LoopState} {n : ℕ}
      (hloc : s.loc (.worker i) = .stamp task loop n) : task ∈ entries (i : ℕ) sent := by
    rcases hF.stamping_next quiet hloc with ⟨done, hdone, -⟩
    exact hdone.subset (List.mem_append_right _ (List.mem_singleton_self _))
  refine ⟨fun ht => ?_, fun ht hp hu hp' => ?_, fun ht hp => ?_⟩
  · rcases Code.stamp_of_holds ht with ⟨i, n, rfl, hloc⟩
    have hmem : _ ∈ sent.map Prod.snd := List.mem_map_of_mem (mem_entries.mp (hsent hloc))
    rw [hF.sends.1] at hmem
    rcases mem_scatterMap.mp (List.mem_of_mem_take hmem) with ⟨j, hj, c, rfl⟩
    exact ⟨j, c, hj, rfl⟩
  · rcases Code.stamp_of_holds ht with ⟨i, n, rfl, hloc⟩
    rcases Code.stamp_of_holds hu with ⟨i', n', rfl, hloc'⟩
    rcases Code.worker_of_piece hp with ⟨_, -, -, rfl⟩
    rcases Code.worker_of_piece hp' with ⟨_, -, -, rfl⟩
    rw [sent_unique hF (hsent hloc') (hsent hloc)]
  · rintro ⟨u, task', hmem, hp'⟩
    rcases Code.stamp_of_holds ht with ⟨i, n, rfl, hloc⟩
    rcases Code.worker_of_piece hp with ⟨_, -, -, rfl⟩
    rcases Code.worker_of_piece hp' with ⟨i', rfl, -, rfl⟩
    have hdone' := mem_entries.mpr hmem
    obtain rfl := sent_unique hF (hF.stamped_sent quiet hdone') (hsent hloc)
    rcases hF.stamping_next quiet hloc with ⟨done, hle, hdone⟩
    have hnodup := (nodup_sent hF).sublist (hle.sublist.trans (entries_sublist _ _))
    exact hnodup.disjoint (hdone _ hdone') (List.mem_singleton_self _)

theorem pixels_eq (hn : 1 ≤ nWorkerMap)
    (h : (code st nw nWorkerMap ptrMark markHeight markWidth).program.Reachable ⟨pixels, []⟩ s)
    {j : ℕ} (hj : j < st.size)
    (hall : ∀ c : Fin nWorkerMap, ∃ i, .chunkDone (taskOf st j c) ∈ s.mem.eventsOf (.worker i)) :
    s.mem.pixels (st.pix j) = (Seq.stamped st ptrMark markHeight markWidth pixels j).2 := by
  refine (Code.describes quiet (piece st)).pixels_eq cuts (fun _ hs => alone hs) hn hj h fun c => ?_
  rcases hall c with ⟨i, hi⟩
  exact ⟨.worker i, _, mem_entries.mp hi, hj, rfl⟩

theorem stamped_terminal (hnw : 1 ≤ nw)
    (h : (code st nw nWorkerMap ptrMark markHeight markWidth).program.Reachable ⟨pixels, []⟩ s)
    (hterm : (code st nw nWorkerMap ptrMark markHeight markWidth).program.Terminal s) {j : ℕ}
    (hj : j < st.size) (c : Fin nWorkerMap) :
    ∃ i, .chunkDone (taskOf st j c) ∈ s.mem.eventsOf (.worker i) := by
  rcases Code.exists_flow h with ⟨sent, log, hF⟩
  have hD := delivers st nWorkerMap ptrMark markHeight markWidth hnw
  have hend := hF.finished hD hterm
  have hmem : taskOf st j c ∈ sent.map Prod.snd := by
    rw [hend.sends]
    exact mem_scatterMap.mpr ⟨j, hj, c, rfl⟩
  rcases List.mem_map.mp hmem with ⟨⟨index, task⟩, he, rfl⟩
  rcases List.mem_iff_getElem?.mp he with ⟨n, hn⟩
  have hindex : index < nw := hD.targets_lt n index (hF.sends.2 n _ hn)
  refine ⟨⟨index, hindex⟩, ?_⟩
  rw [hend.worker]
  exact WorkerCode.mem_chunkEvents _ (mem_entries.mpr he)

/-! ## Runs that deliver in turn -/

/-- The result in hand when a counter is full, and the picture of its image. -/
theorem full_picture (hnw : 1 ≤ nw) (hn : 1 ≤ nWorkerMap)
    (h : ReachableInTurn st nw nWorkerMap ptrMark markHeight markWidth pixels s) {r : Result}
    {pool : ℤ → ℕ} (hloc : s.loc .collector = .svc r pool)
    (hfull : true ∈ (gatherMap st nWorkerMap).outcomes (increment pool r.1) r.1) :
    ∃ j < st.size, r = resultOf st j ∧
      s.mem.pixels (st.pix j) = (Seq.stamped st ptrMark markHeight markWidth pixels j).2 := by
  rcases Code.exists_flow h.reachable with ⟨sent, log, hF⟩
  have hturn := h.sentInTurn hF
  rcases stamped_of_full hnw hF hturn hloc hfull with ⟨j, hj, hptr, hall⟩
  have hmem : r ∈ log.map Prod.snd := by
    have hplace : (gatherMap st nWorkerMap).HasCounted _ _ _ := hF.collector
    rw [hloc] at hplace
    generalize log.map Prod.snd = msgs at hplace ⊢
    cases hplace with
    | svc hdone => exact List.mem_append_right _ (List.mem_singleton_self r)
  rcases hF.mem_log (delivers st nWorkerMap ptrMark markHeight markWidth hnw) hturn.numbered hmem
    with ⟨k, hk, rfl⟩
  obtain rfl := (st.img_inj hk hj).mp hptr
  exact ⟨k, hk, rfl, pixels_eq hn h.reachable hk hall⟩

def outputOf (st : ImageStream) (ptrMark : Buffer) (markHeight markWidth : ℕ)
    (pixels : Ptr → Buffer) (ptrImg : Ptr) : ℤ × Buffer :=
  let j := st.imgVector.idxOf ptrImg
  (j + 1, (Seq.stamped st ptrMark markHeight markWidth pixels j).2)

theorem collector_output (hnw : 1 ≤ nw) (hn : 1 ≤ nWorkerMap)
    (h : ReachableInTurn st nw nWorkerMap ptrMark markHeight markWidth pixels s) :
    ∀ e ∈ s.mem.events, e.1 = .collector → e.2.output = e.2.saved.map fun save =>
      outputOf st ptrMark markHeight markWidth pixels save.2 := by
  refine Program.forall_log_of_run (fun _ _ hstep => hstep.1) h Memory.events rfl
    fun s hs t f ha => ?_
  cases t with
  | emitter => exact absurd ha send_work_none
  | worker i =>
    rcases WorkerCode.work_events ha with ⟨es, hes⟩
    refine ⟨_, hes, fun e he ht => ?_⟩
    rcases List.mem_map.mp he with ⟨e', -, rfl⟩
    cases ht
  | collector =>
    rcases GatherMap.work_events ha with ⟨r, pool, full, hout, hloc, hes⟩
    refine ⟨_, hes, fun e he _ => ?_⟩
    rcases List.mem_map.mp he with ⟨e', he', rfl⟩
    cases full with
    | false =>
      rw [List.mem_singleton.mp he']
      rfl
    | true =>
      rcases List.mem_cons.mp he' with rfl | he'
      · rfl
      · rw [List.mem_singleton.mp he']
        rcases full_picture hnw hn hs hloc hout with ⟨j, hj, rfl, hpixels⟩
        have hidx : st.imgVector.idxOf (st.img j) = j := by
          rw [st.img_eq hj]
          exact st.img_nodup.idxOf_getElem j hj
        rw [st.pix_eq hj] at hpixels
        simp only [Event.saved, Option.map_some, outputOf, resultOf, hidx, ← hpixels]
        rfl

def written (s : FarmState (Task nWorkerMap) nw) : List (ℤ × Buffer) :=
  (s.mem.events.map Prod.snd).filterMap Event.output

theorem written_eq (hnw : 1 ≤ nw) (hn : 1 ≤ nWorkerMap)
    (h : ReachableInTurn st nw nWorkerMap ptrMark markHeight markWidth pixels s) :
    written s = (savedImages s).map (outputOf st ptrMark markHeight markWidth pixels) := by
  rw [written, savedImages, List.map_map, List.map_filterMap]
  apply List.filterMap_congr
  intro e he
  rcases List.mem_map.mp he with ⟨⟨t, e⟩, hte, rfl⟩
  by_cases ht : t = .collector
  · exact collector_output hnw hn h _ hte ht
  · rcases Code.exists_flow h.reachable with ⟨sent, log, hF⟩
    rcases makes_worker (hF.makes ht hte) with ⟨task, rfl⟩
    rfl

/-- The stamping of the FastFlow farm of maps is right under every scheduling: each
byte is at any time the loaded one or that of the sequential program, and at the end
the memory holds the sequential pictures. In runs that deliver in turn the files are
right as well, but for their numbers, which are one too high. All numbers are between 1
and that of all chunks, and `pool` is taken to be large enough for them. -/
theorem ffFarmMap_pictures_seq (st : ImageStream) (ptrMark : Buffer) (markHeight markWidth : ℕ)
    (pixels : Ptr → Buffer) {nw nWorkerMap : ℕ} (hnw : 1 ≤ nw) (hn : 1 ≤ nWorkerMap)
    (s : FarmState (Task nWorkerMap) nw)
    (h : (code st nw nWorkerMap ptrMark markHeight markWidth).program.Reachable ⟨pixels, []⟩ s) :
    (∀ j < st.size, ∀ p : ℕ,
      (s.mem.pixels (st.pix j))[p]? = (pixels (st.pix j))[p]? ∨
      (s.mem.pixels (st.pix j))[p]? =
        (Seq.stamped st ptrMark markHeight markWidth pixels j).2[p]?) ∧
    ((code st nw nWorkerMap ptrMark markHeight markWidth).program.Terminal s → ∀ j < st.size,
      s.mem.pixels (st.pix j) = (Seq.stamped st ptrMark markHeight markWidth pixels j).2) ∧
    (ReachableInTurn st nw nWorkerMap ptrMark markHeight markWidth pixels s →
      (code st nw nWorkerMap ptrMark markHeight markWidth).program.Terminal s →
        (written s).Perm ((Seq.output st ptrMark markHeight markWidth pixels).map fun e =>
          (e.1 + 1, e.2))) ∧
    ∀ i, ∀ r ∈ s.outs (.worker i) (.gatherQueue i), 1 ≤ r.1 ∧ r.1 ≤ (st.size * nWorkerMap : ℕ) := by
  refine ⟨fun j hj p => ?_, fun hterm j hj => ?_, fun hturn hterm => ?_,
    fun i r hr => number_le hnw h hr⟩
  · exact (Code.describes quiet (piece st)).byte_eq cuts (fun _ hs => alone hs) hj h p
  · exact pixels_eq hn h hj fun c => stamped_terminal hnw h hterm hj c
  · rw [written_eq hnw hn hturn, Seq.output_eq, List.map_map]
    apply ((savedImages_finished hn hnw hturn hterm).map _).trans
    rw [← st.map_img, List.map_map]
    apply List.Perm.of_eq
    apply List.map_congr_left
    intro j hj
    have hlt := List.mem_range.mp hj
    simp only [Function.comp_apply, outputOf, st.img_eq hlt, st.img_nodup.idxOf_getElem j hlt]
    rfl

/-- Two workers stamp two chunks of each of two images. One worker with whole images
delivers in turn, and the collector writes the two pictures. -/
theorem ffFarmMap_pictures_seq_twoImages :
    (∃ s, (code twoImages 2 2 [0, 200, 49, 50] 2 2).program.Reachable
        ⟨fun _ => List.replicate 12 100, []⟩ s ∧
      s.mem.pixels (twoImages.pix 1) = [50, 100, 74, 100, 50, 100, 74, 100, 50, 100, 74, 100]) ∧
    ∃ s, (code twoImages 1 1 [0, 200, 49, 50] 2 2).program.Reachable
        ⟨fun _ => List.replicate 12 100, []⟩ s ∧
      (written s).Perm [(1, [50, 100, 74, 100, 50, 100, 74, 100, 50, 100, 74, 100]),
        (2, [50, 100, 74, 100, 50, 100, 74, 100, 50, 100, 74, 100])] := by
  constructor
  · rcases (Code.ranking (delivers twoImages 2 [0, 200, 49, 50] 2 2 (show 1 ≤ 2 by decide))
      ).exists_terminal ((code twoImages 2 2 [0, 200, 49, 50] 2 2).program.initial
        ⟨fun _ => List.replicate 12 100, []⟩) with ⟨s, hs, hterm⟩
    have hall := ffFarmMap_pictures_seq twoImages [0, 200, 49, 50] 2 2 _
      (show 1 ≤ 2 by decide) (show 1 ≤ 2 by decide) s hs
    exact ⟨s, hs, hall.2.1 hterm 1 (by decide)⟩
  · rcases (Code.ranking (delivers twoImages 1 [0, 200, 49, 50] 2 2 (le_refl 1))
      ).exists_terminal ((code twoImages 1 1 [0, 200, 49, 50] 2 2).program.initial
        ⟨fun _ => List.replicate 12 100, []⟩) with ⟨s, hs, hterm⟩
    have hall := ffFarmMap_pictures_seq twoImages [0, 200, 49, 50] 2 2 _
      (le_refl 1) (le_refl 1) s hs
    exact ⟨s, hs, hall.2.2.1 (reachableInTurn_of_one hs) hterm⟩

end WaterMark.FastFlow.FarmMap
