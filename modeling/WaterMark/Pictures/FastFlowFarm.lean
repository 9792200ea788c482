import WaterMark.FastFlow.FarmSaves
import WaterMark.Pictures.Farm

/-! # What the FastFlow farm writes

The workers of the FastFlow farm stamp as those of the farm do. Whatever worker a
picture goes to, it is written under its number as the farm writes it.
-/

namespace WaterMark.FastFlow.Farm
open ChannelNetwork TaggedLog SharedQueue Pixels Maps Pictures
open WaterMark.Farm (Task taskOf wholePicture wholePicture_eq seqLoop_row map_saves)

variable {nw : ℕ} {st : ImageStream} {markImg : Mark} {pixels : Ptr → Buffer} {s : FarmState nw}

def WorkerState.hand : WorkerState → Option (Task × LoopState)
  | .stamp imageInfo loop => some (imageInfo, loop)
  | _ => none

theorem WorkerState.hand_eq {x : WorkerState} {task : Task} {loop : LoopState}
    (h : x.hand = some (task, loop)) : x = .stamp task loop := by
  cases x with
  | stamp task' loop' =>
    cases h
    rfl
  | pop | save | svcEnd | returned => cases h

def stamping (st : ImageStream) (markImg : Mark) (nw : ℕ) :
    Stamping (Thread nw) Task (Loc nw) 1 where
  hand
    | .emitter => fun _ => none
    | .worker _ => WorkerState.hand
  piece
    | .emitter => fun _ _ _ => False
    | .worker _ => fun imageInfo j _ => j < st.size ∧ imageInfo = taskOf st j
  dataImg := Task.image
  info _ _ := wholePicture (markImg.size / 3 : ℕ)
  ptrMark := markImg.data

theorem works {i : Fin nw} {x : WorkerState} {mem : Memory (Thread nw) Task}
    {f : Memory (Thread nw) Task → WorkerState × Memory (Thread nw) Task}
    (ha : .work f ∈ workerActions st markImg i x) :
    Works (.worker i) WorkerState.hand (fun _ => wholePicture (markImg.size / 3 : ℕ)) Task.image
      markImg.data x mem (f mem) := by
  cases x with
  | stamp task loop =>
    cases List.mem_singleton.mp ha
    by_cases hend : (wholePicture (markImg.size / 3 : ℕ)).finished loop = true
    · simp only [hend, if_true]
      exact .finish rfl hend rfl fun job => by simp
    · simp only [hend, Bool.false_eq_true, if_false]
      exact .loop rfl (Bool.not_eq_true _ ▸ hend) rfl
  | save | svcEnd =>
    cases List.mem_singleton.mp ha
    exact .other rfl rfl fun job hjob => by cases List.mem_singleton.mp hjob
  | pop | returned => simp [workerActions] at ha

theorem describes : (stamping st markImg nw).Describes (program st markImg nw) where
  start t := by cases t <;> rfl
  pop t x q next m ha := by
    cases t with
    | emitter => exact absurd ha send_pop_none
    | worker i =>
      change .pop q next ∈ workerActions st markImg i x at ha
      cases x with
      | pop =>
        cases List.mem_singleton.mp ha
        refine ⟨rfl, fun task loop hnext => ?_⟩
        cases m with
        | some imageInfo =>
          cases hnext
          rfl
        | none => cases hnext
      | stamp | save | svcEnd | returned => simp [workerActions] at ha
  push t x q m next ha := by
    cases t with
    | emitter => exact ⟨rfl, rfl⟩
    | worker i => exact absurd ha push_none
  work t x mem f ha := by
    cases t with
    | emitter => exact absurd ha send_work_none
    | worker i => exact works ha

theorem worker_of_piece {t : Thread nw} {task : Task} {j : ℕ} {c : Fin 1}
    (hp : (stamping st markImg nw).piece t task j c) :
    (∃ i, t = .worker i) ∧ j < st.size ∧ task = taskOf st j := by
  cases t with
  | emitter => exact hp.elim
  | worker i => exact ⟨⟨i, rfl⟩, hp⟩

theorem cuts : (stamping st markImg nw).Cuts st 1 (markImg.size / 3) where
  lt hp := (worker_of_piece hp).2.1
  dataImg hp := by
    rw [(worker_of_piece hp).2.2]
    rfl
  info _ := wholePicture_eq _ _
  chunk_unique _ _ := Subsingleton.elim _ _

theorem stamp_of_holds {t : Thread nw} {task : Task} {loop : LoopState}
    (ht : (stamping st markImg nw).Holds s t task loop) :
    ∃ i, t = .worker i ∧ s.loc (.worker i) = .stamp task loop := by
  cases t with
  | emitter => cases ht
  | worker i => exact ⟨i, rfl, WorkerState.hand_eq ht⟩

theorem stamp_not_done (h : (program st markImg nw).Reachable ⟨pixels, []⟩ s) {i k : Fin nw}
    {task : Task} {loop : LoopState} (hloc : s.loc (.worker i) = .stamp task loop) :
    .chunkDone task ∉ s.mem.eventsOf (.worker k) := by
  intro hmem
  rcases exists_dealt h with ⟨dealt, hdealt⟩
  have hhand : (s.loc (.worker i)).inHand = some task := congrArg WorkerState.inHand hloc
  have hi := dealt_of_received h hdealt (received_of_inHand h hhand)
  have hk := worker_hasSaved h k
  have hpicked : task ∈ (s.mem.eventsOf (.worker k)).filterMap Event.stamped :=
    List.mem_filterMap.mpr ⟨_, hmem, rfl⟩
  -- worker `k` has received the record too
  have hgot := (received_le h hdealt id k).subset ((hk.picked_le picks_stamped).subset hpicked)
  rw [List.map_id] at hgot
  cases Fin.ext (tag_unique (hdealt.count_le task) (mem_entries.mp hgot) hi)
  have hcount : (entries (i : ℕ) dealt).count task ≤ 1 :=
    ((entries_sublist _ dealt).count_le task).trans (hdealt.count_le task)
  have hle := (received_le h hdealt id i).sublist.count_le task
  rw [List.map_id] at hle
  rw [hloc] at hk
  generalize s.ins (.worker i) (.workerQueue i) = got at hk hle
  generalize s.mem.eventsOf (.worker i) = events at hk hpicked
  cases hk with
  | stamp tasks =>
    rw [picked_handled picks_stamped] at hpicked
    have hone := List.one_le_count_iff.mpr hpicked
    have htwice : ((tasks.map fun e => some e.1) ++ [some task]).filterMap (Option.map id) =
        (tasks.map fun e => id e.1) ++ [task] := by simp [List.filterMap_map]
    rw [htwice, List.count_append, List.count_singleton_self] at hle
    omega

theorem alone (h : (program st markImg nw).Reachable ⟨pixels, []⟩ s) :
    (stamping st markImg nw).Alone s where
  known ht := by
    rcases stamp_of_holds ht with ⟨i, rfl, hloc⟩
    rcases taskOf_of_inHand h (congrArg WorkerState.inHand hloc) with ⟨j, hj, rfl⟩
    exact ⟨j, 0, hj, rfl⟩
  one ht hp hu hp' := by
    rcases stamp_of_holds ht with ⟨i, rfl, hloc⟩
    rcases stamp_of_holds hu with ⟨i', rfl, hloc'⟩
    rw [(worker_of_piece hp).2.2] at hloc
    rw [(worker_of_piece hp').2.2] at hloc'
    have hhand : (s.loc (.worker i)).inHand = some _ := congrArg WorkerState.inHand hloc
    have hhand' : (s.loc (.worker i')).inHand = some _ := congrArg WorkerState.inHand hloc'
    rw [inHand_unique h hhand hhand']
  fresh ht hp := by
    rintro ⟨u, task', hmem, hp'⟩
    rcases stamp_of_holds ht with ⟨i, rfl, hloc⟩
    rcases worker_of_piece hp' with ⟨⟨k, rfl⟩, -, htask'⟩
    rw [htask', ← (worker_of_piece hp).2.2] at hmem
    exact stamp_not_done h hloc (mem_entries.mpr hmem)

theorem pixels_of_save (h : (program st markImg nw).Reachable ⟨pixels, []⟩ s) {i : Fin nw}
    {j : ℕ} (hj : j < st.size) (hloc : s.loc (.worker i) = .save (taskOf st j)) :
    s.mem.pixels (st.pix j) = (farmWorker markImg (pixels (st.pix j))).img := by
  have hdone : .chunkDone (taskOf st j) ∈ s.mem.eventsOf (.worker i) := by
    have hplace := worker_hasSaved h i
    rw [hloc] at hplace
    generalize s.ins (.worker i) (.workerQueue i) = got at hplace
    generalize s.mem.eventsOf (.worker i) = events at hplace ⊢
    cases hplace with
    | save tasks => exact List.mem_append_right _ (List.mem_singleton_self _)
  have hpixels := describes.pixels_eq (S := stamping st markImg nw) cuts
    (fun _ hs => alone hs) Nat.one_pos hj h fun c =>
      ⟨.worker i, _, mem_entries.mp hdone, hj, rfl⟩
  rw [hpixels, seqLoop_row]
  rfl

theorem output_of_saved (h : (program st markImg nw).Reachable ⟨pixels, []⟩ s) :
    ∀ e ∈ s.mem.events, e.2.output = e.2.saved.map fun save =>
      let j := st.imgVector.idxOf save.2
      ((j : ℤ), (farmWorker markImg (pixels (st.pix j))).img) := by
  refine Program.forall_log_of_run (fun _ _ hstep => hstep) h Memory.events rfl
    fun s hs t f ha => ?_
  cases t with
  | emitter => exact absurd ha send_work_none
  | worker i =>
    have htask {task : Task} : (s.loc (.worker i)).inHand = some task →
        ∃ j < st.size, task = taskOf st j := taskOf_of_inHand hs
    have hsave {j : ℕ} : j < st.size → s.loc (.worker i) = .save (taskOf st j) →
        s.mem.pixels (st.pix j) = _ := pixels_of_save hs
    change .work f ∈ workerActions st markImg i (s.loc (.worker i)) at ha
    generalize s.loc (.worker i) = x at ha htask hsave
    cases x with
    | stamp task loop =>
      cases List.mem_singleton.mp ha
      by_cases hend : (wholePicture (markImg.size / 3 : ℕ)).finished loop = true
      · simp only [hend, if_true]
        refine ⟨_, rfl, fun e he => ?_⟩
        cases List.mem_singleton.mp he
        rfl
      · simp only [hend, Bool.false_eq_true, if_false]
        exact ⟨[], (List.append_nil _).symm, fun e he => by cases he⟩
    | save task =>
      cases List.mem_singleton.mp ha
      refine ⟨_, rfl, fun e he => ?_⟩
      cases List.mem_singleton.mp he
      rcases htask rfl with ⟨j, hj, rfl⟩
      have hidx : st.imgVector.idxOf (st.img j) = j := by
        rw [st.img_eq hj]
        exact st.img_nodup.idxOf_getElem j hj
      simp only [saveEvent, taskOf, Event.output, Event.saved, Option.map_some, hidx,
        ← st.pix_eq hj, hsave hj rfl]
    | svcEnd =>
      cases List.mem_singleton.mp ha
      refine ⟨_, rfl, fun e he => ?_⟩
      cases List.mem_singleton.mp he
      rfl
    | pop | returned => simp [workerActions] at ha

theorem written_eq (h : (program st markImg nw).Reachable ⟨pixels, []⟩ s) :
    log Event.output s = (log Event.saved s).map fun save =>
      let j := st.imgVector.idxOf save.2
      ((j : ℤ), (farmWorker markImg (pixels (st.pix j))).img) := by
  rw [log, log, List.map_filterMap]
  apply List.filterMap_congr
  intro e he
  rcases List.mem_map.mp he with ⟨p, hp, rfl⟩
  exact output_of_saved h p hp

/-- All workers have returned, each after deleting its marker once, and nothing is
left for them. -/
structure Finished (st : ImageStream) {nw : ℕ} (s : FarmState nw) : Prop where
  emitter : st.size + nw ≤ s.loc .emitter
  workers : ∀ i, s.loc (.worker i) = .returned ∧
    (s.mem.eventsOf (.worker i)).count .deleteMark = 1
  queues : ∀ i : Fin nw, s.queue (.workerQueue i) = []

theorem finished (hnw : 1 ≤ nw) (h : (program st markImg nw).Reachable ⟨pixels, []⟩ s)
    (hterm : (program st markImg nw).Terminal s) : Finished st s where
  emitter := emitter_finished hnw hterm
  workers i := by
    rcases exists_dealt h with ⟨dealt, hdealt⟩
    have hplace := worker_hasSaved h i
    have hx := (worker_terminal hnw h hterm hdealt i).1
    exact ⟨hx, hplace.deletes.2 hx⟩
  queues i := by
    rcases exists_dealt h with ⟨dealt, hdealt⟩
    exact (worker_terminal hnw h hterm hdealt i).2.1

/-- In no run an image or a record is deleted. -/
theorem nothing_deleted (h : (program st markImg nw).Reachable ⟨pixels, []⟩ s) :
    ∀ e ∈ s.mem.events, e.2.deleted = none ∧ e.2.released = none := by
  rintro ⟨t, e⟩ he
  rcases Finset.mem_image.mp (events_workers h _ he) with ⟨i, -, rfl⟩
  have hplace := worker_hasSaved h i
  exact hplace.deletes.1 e (mem_entries.mpr he)

/-- The FastFlow farm, whatever worker the scheduling chooses for a record: no two
workers have one picture in hand, each picture written is the one that the farm
writes under this number, each once at most, and no image or record is ever
deleted. A complete run writes all pictures and every worker has deleted its own
marker; every run can be completed. -/
theorem ffFarm_writes_farm (st : ImageStream) (markImg : Mark) (pixels : Ptr → Buffer) {nw : ℕ}
    (hnw : 1 ≤ nw) (s : FarmState nw)
    (h : (program st markImg nw).Reachable ⟨pixels, []⟩ s) :
    (∀ i i' task, (s.loc (.worker i)).inHand = some task →
      (s.loc (.worker i')).inHand = some task → i' = i) ∧
    ((log Event.saved s).Subperm ((List.range st.size).map fun j : ℕ => (savePath j, st.img j)) ∧
      (log Event.output s).Subperm (WaterMark.Farm.output st markImg pixels)) ∧
    (∀ e ∈ s.mem.events, e.2.deleted = none ∧ e.2.released = none) ∧
    ((program st markImg nw).Terminal s → Finished st s ∧
      (log Event.saved s).Perm ((List.range st.size).map fun j : ℕ => (savePath j, st.img j)) ∧
      (log Event.output s).Perm (WaterMark.Farm.output st markImg pixels)) ∧
    ∃ s', Relation.ReflTransGen (program st markImg nw).Step s s' ∧
      (program st markImg nw).Terminal s' := by
  refine ⟨fun i i' task hx hx' => inHand_unique h hx hx', ⟨log_subperm picks_saved h, ?_⟩,
    nothing_deleted h,
    fun hterm => ⟨finished hnw h hterm, log_perm picks_saved hnw h hterm, ?_⟩, ?_⟩
  · rw [written_eq h, ← map_saves st markImg pixels savePath]
    exact subperm_map _ (log_subperm picks_saved h)
  · rw [written_eq h, ← map_saves st markImg pixels savePath]
    exact (log_perm picks_saved hnw h hterm).map _
  · exact (ranking st markImg).exists_terminal s

/-- Two workers write the pictures of two images in a complete run. -/
theorem ffFarm_writes_farm_twoImages :
    ∃ s, (program twoImages ⟨2, 2, 3, [0, 200, 49, 50, 0, 200, 49, 50, 0, 200, 49, 50], rfl⟩
        2).Reachable ⟨fun _ => List.replicate 12 100, []⟩ s ∧
      (log Event.output s).Perm [(0, [50, 100, 74, 100, 50, 100, 74, 100, 50, 100, 74, 100]),
        (1, [50, 100, 74, 100, 50, 100, 74, 100, 50, 100, 74, 100])] := by
  have hall := ffFarm_writes_farm twoImages
    ⟨2, 2, 3, [0, 200, 49, 50, 0, 200, 49, 50, 0, 200, 49, 50], rfl⟩
    (fun _ => List.replicate 12 100) (show 1 ≤ 2 by decide)
  obtain ⟨s, hs, hterm⟩ := (hall _ .refl).2.2.2.2
  exact ⟨s, hs, ((hall s hs).2.2.2.1 hterm).2.2⟩

end WaterMark.FastFlow.Farm
