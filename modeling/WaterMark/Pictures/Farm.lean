import WaterMark.Farm.Protocol
import WaterMark.Pictures.Simulation
import WaterMark.Seq

/-! # What the farm writes

A worker of the farm stamps whole pictures, each as one chunk. It writes for each
image what its loop makes of the picture alone, and with a marker of three planes
this is what the sequential program writes.
-/

namespace WaterMark.Farm
open ChannelNetwork TaggedLog SharedQueue Pixels Maps Pictures

def output (st : ImageStream) (markImg : Mark) (pixels : Ptr → Buffer) : List (ℤ × Buffer) :=
  (List.range st.size).map fun j : ℕ => (j, (farmWorker markImg (pixels (st.pix j))).img)

theorem output_eq_seq (st : ImageStream) {markImg : Mark} (hthree : markImg.ThreePlanes)
    (pixels : Ptr → Buffer) :
    output st markImg pixels = Seq.output st markImg.data markImg.height markImg.width pixels := by
  rw [Seq.output_eq, output]
  apply List.map_congr_left
  intro j _
  rw [farmWorker, (threePlanes_iff markImg).mpr hthree, stampWhole_img]
  rfl

/-- The whole picture is the only chunk of a mark of one row. -/
theorem wholePicture_eq (pixNmb : ℕ) (c : Fin 1) :
    wholePicture pixNmb = infoVector 1 pixNmb 1 c := by
  rw [infoVector_eq, Fin.fin_one_eq_zero c]
  simp [wholePicture, chunk, rowsOf]

theorem seqLoop_row (mark : Buffer) (pixNmb : ℕ) (img : Buffer) :
    seqLoop mark (1 : ℕ) pixNmb img = stampWhole mark pixNmb img := by
  have hN : ((1 : ℕ) : ℤ) * pixNmb = pixNmb := by simp
  simp only [seqLoop, hN, Int.toNat_natCast, stampWhole]

variable {nw : ℕ}

def WorkerState.hand : WorkerState → Option (Task × LoopState)
  | .stamp imageInfo loop => some (imageInfo, loop)
  | _ => none

theorem WorkerState.hand_eq {x : WorkerState} {task : Task} {loop : LoopState}
    (h : x.hand = some (task, loop)) : x = .stamp task loop := by
  cases x with
  | stamp task' loop' =>
    cases h
    rfl
  | pop | save | release | deleteMark | returned => cases h

def stamping (st : ImageStream) (markImg : Mark) (nw : ℕ) :
    Stamping (Thread nw) Task (Loc nw) 1 where
  hand
    | .emitter => fun _ => none
    | .worker _ => WorkerState.hand
  piece
    | .emitter => fun _ _ _ => False
    | .worker _ => fun imageInfo j _ => j < st.size ∧ imageInfo = taskOf st j
  dataImg := Task.image
  info _ _ := wholePicture (markImg.size / 3 : ℕ)
  ptrMark := markImg.data

variable {st : ImageStream} {markImg : Mark} {pixels : Ptr → Buffer} {s : FarmState nw}

theorem works {t : Thread nw} {x : WorkerState} {mem : Memory (Thread nw) Task}
    {f : Memory (Thread nw) Task → WorkerState × Memory (Thread nw) Task}
    (ha : .work f ∈ workerActions st markImg t x) :
    Works t WorkerState.hand (fun _ => wholePicture (markImg.size / 3 : ℕ)) Task.image
      markImg.data x mem (f mem) := by
  cases x with
  | stamp task loop =>
    cases List.mem_singleton.mp ha
    by_cases hend : (wholePicture (markImg.size / 3 : ℕ)).finished loop = true
    · simp only [hend, if_true]
      exact .finish rfl hend rfl fun job => by simp
    · simp only [hend, Bool.false_eq_true, if_false]
      exact .loop rfl (Bool.not_eq_true _ ▸ hend) rfl
  | save | release | deleteMark =>
    cases List.mem_singleton.mp ha
    exact .other rfl rfl fun job hjob => by cases List.mem_singleton.mp hjob
  | pop | returned => simp [workerActions] at ha

theorem describes : (stamping st markImg nw).Describes (program st markImg nw) where
  start t := by cases t <;> rfl
  pop t x q next m ha := by
    cases t with
    | emitter => exact absurd ha send_pop_none
    | worker i =>
      change .pop q next ∈ workerActions st markImg (.worker i) x at ha
      cases x with
      | pop =>
        cases List.mem_singleton.mp ha
        refine ⟨rfl, fun task loop hnext => ?_⟩
        cases m with
        | some imageInfo =>
          cases hnext
          rfl
        | none => cases hnext
      | stamp | save | release | deleteMark | returned => simp [workerActions] at ha
  push t x q m next ha := by
    cases t with
    | emitter => exact ⟨rfl, rfl⟩
    | worker i => exact absurd ha push_none
  work t x mem f ha := by
    cases t with
    | emitter => exact absurd ha send_work_none
    | worker i => exact works ha

theorem worker_of_piece {t : Thread nw} {task : Task} {j : ℕ} {c : Fin 1}
    (hp : (stamping st markImg nw).piece t task j c) :
    (∃ i, t = .worker i) ∧ j < st.size ∧ task = taskOf st j := by
  cases t with
  | emitter => exact hp.elim
  | worker i => exact ⟨⟨i, rfl⟩, hp⟩

theorem cuts : (stamping st markImg nw).Cuts st 1 (markImg.size / 3) where
  lt hp := (worker_of_piece hp).2.1
  dataImg hp := by
    rw [(worker_of_piece hp).2.2]
    rfl
  info _ := wholePicture_eq _ _
  chunk_unique _ _ := Subsingleton.elim _ _

theorem stamp_of_holds {t : Thread nw} {task : Task} {loop : LoopState}
    (ht : (stamping st markImg nw).Holds s t task loop) :
    ∃ i, t = .worker i ∧ s.loc (.worker i) = .stamp task loop := by
  cases t with
  | emitter => cases ht
  | worker i => exact ⟨i, rfl, WorkerState.hand_eq ht⟩

theorem stamp_not_done (h : (program st markImg nw).Reachable ⟨pixels, []⟩ s) {i k : Fin nw}
    {task : Task} {loop : LoopState} (hloc : s.loc (.worker i) = .stamp task loop) :
    .chunkDone task ∉ s.mem.eventsOf (.worker k) := by
  intro hmem
  have htaken : (.worker i, some task) ∈ s.popped workerQueue :=
    taken_of_inUse h (by rw [hloc]; rfl)
  have hk := worker_hasTaken h k
  have hpicked : task ∈ (s.mem.eventsOf (.worker k)).filterMap Event.stamped :=
    List.mem_filterMap.mpr ⟨_, hmem, rfl⟩
  rcases List.mem_filterMap.mp ((hk.picked_le picks_stamped).subset hpicked) with ⟨m, hm, hmtask⟩
  rcases Option.map_eq_some_iff.mp hmtask with ⟨task', rfl, rfl⟩
  cases (taken h).reader_unique (nodup_sentTasks st) (Option.some_ne_none _) (mem_entries.mp hm)
    htaken
  -- a worker would have taken the record twice
  have hcount : (s.ins (.worker i) workerQueue).count (some (id task')) ≤ 1 :=
    (taken h).count_entries_le (nodup_sentTasks st) (Option.some_ne_none _) (.worker i)
  rw [hloc] at hk
  generalize s.ins (.worker i) workerQueue = got at hk hcount
  generalize s.mem.eventsOf (.worker i) = events at hk hpicked
  cases hk with
  | stamp hdone =>
    rw [hdone.picked picks_stamped, List.map_id] at hpicked
    have hone := List.one_le_count_iff.mpr (List.mem_map_of_mem (f := some) hpicked)
    rw [List.count_append, List.count_singleton_self] at hcount
    omega

theorem alone (h : (program st markImg nw).Reachable ⟨pixels, []⟩ s) :
    (stamping st markImg nw).Alone s where
  known ht := by
    rcases stamp_of_holds ht with ⟨i, rfl, hloc⟩
    rcases taskOf_of_popped h (taken_of_inUse h (i := i) (by rw [hloc]; rfl)) with ⟨j, hj, rfl⟩
    exact ⟨j, 0, hj, rfl⟩
  one ht hp hu hp' := by
    rcases stamp_of_holds ht with ⟨i, rfl, hloc⟩
    rcases stamp_of_holds hu with ⟨i', rfl, hloc'⟩
    rw [(worker_of_piece hp).2.2] at hloc
    rw [(worker_of_piece hp').2.2] at hloc'
    have huse : (s.loc (.worker i)).inUse = some _ := congrArg WorkerState.inUse hloc
    have huse' : (s.loc (.worker i')).inUse = some _ := congrArg WorkerState.inUse hloc'
    rw [inUse_unique h huse huse']
  fresh ht hp := by
    rintro ⟨u, task', hmem, hp'⟩
    rcases stamp_of_holds ht with ⟨i, rfl, hloc⟩
    rcases worker_of_piece hp' with ⟨⟨k, rfl⟩, -, htask'⟩
    rw [htask', ← (worker_of_piece hp).2.2] at hmem
    exact stamp_not_done h hloc (mem_entries.mpr hmem)

/-- When a worker is about to save, its picture is stamped. -/
theorem pixels_of_save (h : (program st markImg nw).Reachable ⟨pixels, []⟩ s) {i : Fin nw}
    {j : ℕ} (hj : j < st.size) (hloc : s.loc (.worker i) = .save (taskOf st j)) :
    s.mem.pixels (st.pix j) = (farmWorker markImg (pixels (st.pix j))).img := by
  have hdone : .chunkDone (taskOf st j) ∈ s.mem.eventsOf (.worker i) := by
    have hplace := worker_hasTaken h i
    rw [hloc] at hplace
    generalize s.ins (.worker i) workerQueue = got at hplace
    generalize s.mem.eventsOf (.worker i) = events at hplace ⊢
    cases hplace with
    | save hdone => exact List.mem_append_right _ (List.mem_singleton_self _)
  have hpixels := describes.pixels_eq (S := stamping st markImg nw) cuts
    (fun _ hs => alone hs) Nat.one_pos hj h fun c =>
      ⟨.worker i, _, mem_entries.mp hdone, hj, rfl⟩
  rw [hpixels, seqLoop_row]
  rfl

theorem output_of_saved (h : (program st markImg nw).Reachable ⟨pixels, []⟩ s) :
    ∀ e ∈ s.mem.events, e.2.output = e.2.saved.map fun save =>
      let j := st.imgVector.idxOf save.2
      ((j : ℤ), (farmWorker markImg (pixels (st.pix j))).img) := by
  refine Program.forall_log_of_run (fun _ _ hstep => hstep) h Memory.events rfl
    fun s hs t f ha => ?_
  cases t with
  | emitter => exact absurd ha send_work_none
  | worker i =>
    have htaken {task : Task} : (s.loc (.worker i)).inUse = some task →
        (.worker i, some task) ∈ s.popped workerQueue := taken_of_inUse hs
    have hsave {j : ℕ} : j < st.size → s.loc (.worker i) = .save (taskOf st j) →
        s.mem.pixels (st.pix j) = _ := pixels_of_save hs
    change .work f ∈ workerActions st markImg (.worker i) (s.loc (.worker i)) at ha
    generalize s.loc (.worker i) = x at ha htaken hsave
    cases x with
    | stamp task loop =>
      cases List.mem_singleton.mp ha
      by_cases hend : (wholePicture (markImg.size / 3 : ℕ)).finished loop = true
      · simp only [hend, if_true]
        refine ⟨_, rfl, fun e he => ?_⟩
        cases List.mem_singleton.mp he
        rfl
      · simp only [hend, Bool.false_eq_true, if_false]
        exact ⟨[], (List.append_nil _).symm, fun e he => by cases he⟩
    | save task =>
      cases List.mem_singleton.mp ha
      refine ⟨_, rfl, fun e he => ?_⟩
      cases List.mem_singleton.mp he
      rcases taskOf_of_popped hs (htaken rfl) with ⟨j, hj, rfl⟩
      have hidx : st.imgVector.idxOf (st.img j) = j := by
        rw [st.img_eq hj]
        exact st.img_nodup.idxOf_getElem j hj
      simp only [saveEvent, taskOf, Event.output, Event.saved, Option.map_some, hidx,
        ← st.pix_eq hj, hsave hj rfl]
    | release | deleteMark =>
      cases List.mem_singleton.mp ha
      refine ⟨_, rfl, fun e he => ?_⟩
      cases List.mem_singleton.mp he
      rfl
    | pop | returned => simp [workerActions] at ha

theorem written_eq (h : (program st markImg nw).Reachable ⟨pixels, []⟩ s) :
    log Event.output s = (log Event.saved s).map fun save =>
      let j := st.imgVector.idxOf save.2
      ((j : ℤ), (farmWorker markImg (pixels (st.pix j))).img) := by
  rw [log, log, List.map_filterMap]
  apply List.filterMap_congr
  intro e he
  rcases List.mem_map.mp he with ⟨p, hp, rfl⟩
  exact output_of_saved h p hp

theorem map_saves (st : ImageStream) (markImg : Mark) (pixels : Ptr → Buffer)
    (savePath : ℤ → String) :
    (((List.range st.size).map fun j : ℕ => (savePath j, st.img j)).map fun save =>
      let j := st.imgVector.idxOf save.2
      ((j : ℤ), (farmWorker markImg (pixels (st.pix j))).img)) = output st markImg pixels := by
  rw [List.map_map]
  apply List.map_congr_left
  intro j hj
  have hlt := List.mem_range.mp hj
  simp only [Function.comp_apply, st.img_eq hlt, st.img_nodup.idxOf_getElem j hlt]

theorem written_subperm (h : (program st markImg nw).Reachable ⟨pixels, []⟩ s) :
    (log Event.output s).Subperm (output st markImg pixels) := by
  rw [written_eq h, ← map_saves st markImg pixels savePath]
  exact subperm_map _ (log_subperm picks_saved h)

theorem written_terminal (hnw : 1 ≤ nw) (h : (program st markImg nw).Reachable ⟨pixels, []⟩ s)
    (hterm : (program st markImg nw).Terminal s) :
    (log Event.output s).Perm (output st markImg pixels) := by
  rw [written_eq h, ← map_saves st markImg pixels savePath]
  exact (log_perm picks_saved hnw h hterm).map _

/-- In every run of the farm each picture written so far is the loaded picture of
its number after the loop of `worker`, each number once at most; a complete run
writes all of them, every run can be completed, and with a marker of three planes
the pictures are those of the sequential program. -/
theorem farm_writes_seq (st : ImageStream) (markImg : Mark) (pixels : Ptr → Buffer) {nw : ℕ}
    (hnw : 1 ≤ nw) (s : FarmState nw)
    (h : (program st markImg nw).Reachable ⟨pixels, []⟩ s) :
    (log Event.output s).Subperm (output st markImg pixels) ∧
    ((program st markImg nw).Terminal s →
      (log Event.output s).Perm (output st markImg pixels)) ∧
    (∃ s', Relation.ReflTransGen (program st markImg nw).Step s s' ∧
      (program st markImg nw).Terminal s') ∧
    (markImg.ThreePlanes → output st markImg pixels =
      Seq.output st markImg.data markImg.height markImg.width pixels) := by
  refine ⟨written_subperm h, fun hterm => ?_, ?_, fun hthree => ?_⟩
  · exact written_terminal hnw h hterm
  · exact (ranking st markImg).exists_terminal s
  · exact output_eq_seq st hthree pixels

/-- Two workers write the pictures of two images in a complete run. -/
theorem farm_writes_seq_twoImages :
    ∃ s, (program twoImages ⟨2, 2, 3, [0, 200, 49, 50, 0, 200, 49, 50, 0, 200, 49, 50], rfl⟩
        2).Reachable ⟨fun _ => List.replicate 12 100, []⟩ s ∧
      (log Event.output s).Perm [(0, [50, 100, 74, 100, 50, 100, 74, 100, 50, 100, 74, 100]),
        (1, [50, 100, 74, 100, 50, 100, 74, 100, 50, 100, 74, 100])] := by
  have hall := farm_writes_seq twoImages
    ⟨2, 2, 3, [0, 200, 49, 50, 0, 200, 49, 50, 0, 200, 49, 50], rfl⟩
    (fun _ => List.replicate 12 100) (show 1 ≤ 2 by decide)
  obtain ⟨s, hs, hterm⟩ := (hall _ .refl).2.2.1
  exact ⟨s, hs, (hall s hs).2.1 hterm⟩

end WaterMark.Farm
