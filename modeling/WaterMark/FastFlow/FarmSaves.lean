import Mathlib.Algebra.BigOperators.Fin
import WaterMark.FastFlow.Farm

/-! # The protocol of the FastFlow farm

Each record goes to one worker, so each image is stamped and saved once, whatever
worker gets it. At the end every worker has deleted its marker and nothing else
has been deleted.
-/

namespace WaterMark.FastFlow.Farm
open ChannelNetwork TaggedLog Pixels Maps
open WaterMark.Farm (Task taskOf wholePicture)

variable {nw : ℕ} {st : ImageStream}

def PlaceTells (st : ImageStream) : (t : Thread nw) → Loc nw t →
    ((q : Chan Empty) → List (q.Msg Msg)) → ((q : Chan Empty) → List (q.Msg Msg)) →
    List (Event Task) → Prop
  | .emitter => fun n _ outs events => (∃ dealt, Dealt st nw n dealt outs) ∧ events = []
  | .worker i => fun x ins _ events => HasSaved x (ins (.workerQueue i)) events

theorem localInvariant (st : ImageStream) (markImg : Mark) :
    LocalInvariant (program st markImg nw) Memory.eventsOf (PlaceTells st) where
  pop t x ins outs v q next m ha h := by
    cases t with
    | emitter => exact absurd ha send_pop_none
    | worker i => exact HasSaved.pop_step ha h
  push t x ins outs v q m next ha h := by
    cases t with
    | emitter =>
      rcases h with ⟨⟨dealt, hdealt⟩, hevents⟩
      exact ⟨hdealt.push_step ha, hevents⟩
    | worker i => exact absurd ha push_none
  work t x ins outs mem f ha h := by
    cases t with
    | emitter => exact absurd ha send_work_none
    | worker i => exact HasSaved.work_step ha h
  frame t u x mem f hne ha := by
    cases u with
    | emitter => exact absurd ha send_work_none
    | worker i => exact work_frame ha hne

section Run
variable {markImg : Mark} {pixels : Ptr → Buffer} {s : FarmState nw}

theorem placeTells (h : (program st markImg nw).Reachable ⟨pixels, []⟩ s) (t : Thread nw) :
    PlaceTells st t (s.loc t) (s.ins t) (s.outs t) (s.mem.eventsOf t) := by
  refine (localInvariant st markImg).reachable (fun t => ?_) h t
  cases t with
  | emitter => exact ⟨⟨[], .start⟩, rfl⟩
  | worker i => exact .pop []

theorem exists_dealt (h : (program st markImg nw).Reachable ⟨pixels, []⟩ s) :
    ∃ dealt, Dealt st nw (s.loc .emitter) dealt (s.outs .emitter) :=
  (placeTells h .emitter).1

theorem worker_hasSaved (h : (program st markImg nw).Reachable ⟨pixels, []⟩ s) (i : Fin nw) :
    HasSaved (s.loc (.worker i)) (s.ins (.worker i) (.workerQueue i))
      (s.mem.eventsOf (.worker i)) :=
  placeTells h (.worker i)

theorem ins_append (h : (program st markImg nw).Reachable ⟨pixels, []⟩ s) (i : Fin nw) :
    s.ins (.worker i) (.workerQueue i) ++ s.queue (.workerQueue i) =
      s.outs .emitter (.workerQueue i) := by
  have hins : s.ins (.worker i) (.workerQueue i) = (s.popped (.workerQueue i)).map Prod.snd := by
    apply entries_eq_map
    apply h.popped_by (S := {.worker i})
    intro t x next ha
    cases t with
    | emitter => exact absurd ha send_pop_none
    | worker k =>
      rw [Fin.ext (Chan.workerQueue.inj (rank_pop (m := none) ha).1)]
      rfl
  have houts : s.outs .emitter (.workerQueue i) = (s.pushed (.workerQueue i)).map Prod.snd := by
    apply entries_eq_map
    apply h.pushed_by (S := {.emitter})
    intro t x m next ha
    cases t with
    | emitter => rfl
    | worker k => exact absurd ha push_none
  rw [hins, houts, h.conserved]

theorem events_workers (h : (program st markImg nw).Reachable ⟨pixels, []⟩ s) :
    ∀ e ∈ s.mem.events, e.1 ∈ (Finset.univ.image .worker : Finset (Thread nw)) := by
  rintro ⟨t, e⟩ he
  cases t with
  | emitter =>
    have hnil : s.mem.eventsOf .emitter = [] := (placeTells h .emitter).2
    have hmem : e ∈ s.mem.eventsOf .emitter := mem_entries.mpr he
    rw [hnil] at hmem
    cases hmem
  | worker i => exact Finset.mem_image_of_mem _ (Finset.mem_univ i)

def log {α : Type} (f : Event Task → Option α) (s : FarmState nw) : List α :=
  (s.mem.events.map Prod.snd).filterMap f

section Picks
variable {α : Type} [DecidableEq α] {f : Event Task → Option α} {g : Task → α}

theorem count_log (h : (program st markImg nw).Reachable ⟨pixels, []⟩ s) (a : α) :
    (log f s).count a = ∑ i, ((s.mem.eventsOf (.worker i)).filterMap f).count a := by
  rw [log, count_filterMap_eq_sum _ f (events_workers h), Finset.sum_image]
  · rfl
  · intro i _ i' _ he
    cases he
    rfl

theorem count_dealt {n : ℕ} {dealt : List (ℕ × Task)} {outs : (q : Chan Empty) → List (q.Msg Msg)}
    (hdealt : Dealt st nw n dealt outs) (g : Task → α) (a : α) :
    ∑ i : Fin nw, ((entries (i : ℕ) dealt).map g).count a =
      ((((List.range st.size).map (taskOf st)).take n).map g).count a := by
  have hall := countP_eq_sum (Finset.range nw) (fun task => g task == a)
    fun e he => Finset.mem_range.mpr (hdealt.targets e he)
  simp only [hdealt.tasks, Finset.sum_range] at hall
  simp only [List.count, List.countP_map, Function.comp_def]
  exact hall.symm

omit [DecidableEq α] in
theorem received_le (h : (program st markImg nw).Reachable ⟨pixels, []⟩ s)
    {dealt : List (ℕ × Task)} (hdealt : Dealt st nw (s.loc .emitter) dealt (s.outs .emitter))
    (g : Task → α) (i : Fin nw) :
    (s.ins (.worker i) (.workerQueue i)).filterMap (Option.map g) <+:
      (entries (i : ℕ) dealt).map g := by
  have hall := hdealt.outs i i.isLt
  rw [← ins_append h] at hall
  have hmap : ((entries (i : ℕ) dealt).map some ++
      if st.size + i < s.loc .emitter then [none] else []).filterMap (Option.map g) =
        (entries (i : ℕ) dealt).map g := by
    split_ifs <;> simp [List.filterMap_map]
  rw [← hmap, ← hall, List.filterMap_append]
  exact List.prefix_append _ _

/-- Each record makes each of its events once at most. -/
theorem log_subperm (hf : Picks f g) (h : (program st markImg nw).Reachable ⟨pixels, []⟩ s) :
    (log f s).Subperm ((List.range st.size).map fun j => g (taskOf st j)) := by
  rcases exists_dealt h with ⟨dealt, hdealt⟩
  apply List.subperm_ext_iff.mpr
  intro a _
  calc (log f s).count a
    _ = ∑ i, ((s.mem.eventsOf (.worker i)).filterMap f).count a := count_log h a
    _ ≤ ∑ i : Fin nw, ((entries (i : ℕ) dealt).map g).count a := by
      apply Finset.sum_le_sum
      intro i _
      have hplace := worker_hasSaved h i
      exact ((hplace.picked_le hf).trans (received_le h hdealt g i)).sublist.count_le a
    _ = _ := count_dealt hdealt g a
    _ ≤ ((List.range st.size).map fun j => g (taskOf st j)).count a := by
      rw [List.map_take, List.map_map]
      exact (List.take_sublist _ _).count_le a

end Picks

/-! ## A record belongs to one worker -/

/-- The record that a worker stamps or saves. -/
def WorkerState.inHand : WorkerState → Option Task
  | .stamp task _ => some task
  | .save task => some task
  | _ => none

theorem HasSaved.inHand {x : WorkerState} {got : List Msg} {events : List (Event Task)}
    (h : HasSaved x got events) {task : Task} (hx : x.inHand = some task) :
    ∃ tasks : List (Task × Buffer), got = (tasks.map fun e => some e.1) ++ [some task] ∧
      events.filterMap Event.saved =
        tasks.map fun e => (savePath e.1.index, e.1.ptrImage) := by
  cases h with
  | stamp tasks task' loop =>
    cases hx
    exact ⟨tasks, rfl, picked_handled picks_saved tasks⟩
  | save tasks task' =>
    cases hx
    refine ⟨tasks, rfl, ?_⟩
    rw [List.filterMap_append, picked_handled picks_saved]
    exact List.append_nil _
  | pop | svcEnd | returned => cases hx

theorem nodup_tasks (st : ImageStream) : ((List.range st.size).map (taskOf st)).Nodup :=
  List.nodup_range.map fun _ _ he => congrArg Task.record he

theorem dealt_of_received (h : (program st markImg nw).Reachable ⟨pixels, []⟩ s)
    {dealt : List (ℕ × Task)} (hdealt : Dealt st nw (s.loc .emitter) dealt (s.outs .emitter))
    {i : Fin nw} {task : Task} (ht : some task ∈ s.ins (.worker i) (.workerQueue i)) :
    ((i : ℕ), task) ∈ dealt := by
  apply mem_entries.mp
  have hmem : task ∈ (s.ins (.worker i) (.workerQueue i)).filterMap (Option.map id) :=
    List.mem_filterMap.mpr ⟨_, ht, rfl⟩
  simpa using (received_le h hdealt id i).subset hmem

theorem Dealt.taskOf {n : ℕ} {dealt : List (ℕ × Task)} {outs : (q : Chan Empty) → List (q.Msg Msg)}
    (h : Dealt st nw n dealt outs) {e : ℕ × Task} (he : e ∈ dealt) :
    ∃ j < st.size, e.2 = taskOf st j := by
  have hmem : e.2 ∈ dealt.map Prod.snd := List.mem_map_of_mem he
  rw [h.tasks] at hmem
  rcases List.mem_map.mp (List.mem_of_mem_take hmem) with ⟨j, hj, heq⟩
  exact ⟨j, List.mem_range.mp hj, heq.symm⟩

theorem Dealt.count_le {n : ℕ} {dealt : List (ℕ × Task)}
    {outs : (q : Chan Empty) → List (q.Msg Msg)} (h : Dealt st nw n dealt outs) (task : Task) :
    (dealt.map Prod.snd).count task ≤ 1 := by
  rw [h.tasks]
  exact List.nodup_iff_count_le_one.mp ((nodup_tasks st).sublist (List.take_sublist _ _)) task

theorem received_of_inHand (h : (program st markImg nw).Reachable ⟨pixels, []⟩ s) {i : Fin nw}
    {task : Task} (hx : (s.loc (.worker i)).inHand = some task) :
    some task ∈ s.ins (.worker i) (.workerQueue i) := by
  have hplace := worker_hasSaved h i
  rcases hplace.inHand hx with ⟨tasks, hgot, -⟩
  rw [hgot]
  exact List.mem_append_right _ (List.mem_singleton_self _)

theorem taskOf_of_inHand (h : (program st markImg nw).Reachable ⟨pixels, []⟩ s) {i : Fin nw}
    {task : Task} (hx : (s.loc (.worker i)).inHand = some task) :
    ∃ j < st.size, task = taskOf st j := by
  rcases exists_dealt h with ⟨dealt, hdealt⟩
  exact hdealt.taskOf (dealt_of_received h hdealt (received_of_inHand h hx))

/-- Two workers never have the same record. -/
theorem inHand_unique (h : (program st markImg nw).Reachable ⟨pixels, []⟩ s) {i i' : Fin nw}
    {task : Task} (hx : (s.loc (.worker i)).inHand = some task)
    (hx' : (s.loc (.worker i')).inHand = some task) : i' = i := by
  rcases exists_dealt h with ⟨dealt, hdealt⟩
  have hi := dealt_of_received h hdealt (received_of_inHand h hx)
  have hi' := dealt_of_received h hdealt (received_of_inHand h hx')
  exact Fin.ext (tag_unique (hdealt.count_le task) hi' hi)

/-! ## The end of a run -/

theorem emitter_finished (hnw : 1 ≤ nw) (hterm : (program st markImg nw).Terminal s) :
    st.size + nw ≤ s.loc .emitter := by
  have hnone : choices st nw (s.loc .emitter) = [] :=
    send_waits fun a ha => hterm.waits (t := .emitter) (a := a) ha
  unfold choices at hnone
  split_ifs at hnone with hn hend
  · rw [List.map_eq_nil_iff, List.range_eq_nil] at hnone
    omega
  · omega

/-- At the end of a run a worker has received all that was dealt out to it and the
end of the stream, and has returned. -/
theorem worker_terminal (hnw : 1 ≤ nw) (h : (program st markImg nw).Reachable ⟨pixels, []⟩ s)
    (hterm : (program st markImg nw).Terminal s) {dealt : List (ℕ × Task)}
    (hdealt : Dealt st nw (s.loc .emitter) dealt (s.outs .emitter)) (i : Fin nw) :
    s.loc (.worker i) = .returned ∧ s.queue (.workerQueue i) = [] ∧
      s.ins (.worker i) (.workerQueue i) = (entries (i : ℕ) dealt).map some ++ [none] := by
  have htold : st.size + i < s.loc .emitter := by
    have hlen := emitter_finished hnw hterm
    omega
  have hall := hdealt.outs i i.isLt
  rw [if_pos htold, ← ins_append h] at hall
  have hplace := worker_hasSaved h i
  rcases waits fun a ha => hterm.waits (t := .worker i) (a := a) ha with hx | ⟨hx, hq⟩
  · have hend : none ∈ s.ins (.worker i) (.workerQueue i) := by
      rw [hx] at hplace
      generalize s.ins (.worker i) (.workerQueue i) = got at hplace ⊢
      generalize s.mem.eventsOf (.worker i) = events at hplace
      cases hplace with
      | returned tasks => exact List.mem_append_right _ (List.mem_singleton_self _)
    rcases List.eq_nil_or_concat (s.queue (.workerQueue i)) with hq | ⟨rest, m, hq⟩
    · rw [hq, List.append_nil] at hall
      exact ⟨hx, hq, hall⟩
    · -- nothing was sent after the end of the stream
      rw [hq, List.concat_eq_append, ← List.append_assoc] at hall
      have hnone : none ∈ (entries (i : ℕ) dealt).map some := by
        rw [← List.append_inj_left' hall rfl]
        exact List.mem_append_left _ hend
      simp at hnone
  · rw [hq, List.append_nil] at hall
    rw [hx] at hplace
    generalize s.ins (.worker i) (.workerQueue i) = got at hplace hall
    generalize s.mem.eventsOf (.worker i) = events at hplace
    cases hplace with
    | pop tasks =>
      have hnone : none ∈ tasks.map fun e => some e.1 := by
        rw [hall]
        exact List.mem_append_right _ (List.mem_singleton_self _)
      simp at hnone

section Picks
variable {α : Type} [DecidableEq α] {f : Event Task → Option α} {g : Task → α}

theorem log_perm (hf : Picks f g) (hnw : 1 ≤ nw)
    (h : (program st markImg nw).Reachable ⟨pixels, []⟩ s)
    (hterm : (program st markImg nw).Terminal s) :
    (log f s).Perm ((List.range st.size).map fun j => g (taskOf st j)) := by
  rcases exists_dealt h with ⟨dealt, hdealt⟩
  have hall : ((List.range st.size).map (taskOf st)).length ≤ s.loc .emitter := by
    have hlen := emitter_finished hnw hterm
    rw [List.length_map, List.length_range]
    omega
  apply List.perm_iff_count.mpr
  intro a
  have hcount := count_dealt hdealt g a
  rw [List.take_of_length_le hall, List.map_map] at hcount
  refine (count_log h a).trans (Eq.trans ?_ hcount)
  apply Finset.sum_congr rfl
  intro i _
  have hplace := worker_hasSaved h i
  rcases worker_terminal hnw h hterm hdealt i with ⟨hx, -, hins⟩
  rw [hx] at hplace
  rw [hplace.picked_returned hf, hins]
  simp [List.filterMap_map]

end Picks

/-- What a worker deletes is its marker, once and at its end. -/
theorem HasSaved.deletes {x : WorkerState} {got : List Msg} {events : List (Event Task)}
    (h : HasSaved x got events) : (∀ e ∈ events, e.deleted = none ∧ e.released = none) ∧
      (x = .returned → events.count .deleteMark = 1) := by
  have hhandled (tasks : List (Task × Buffer)) : ∀ e ∈ handled tasks,
      (e.deleted = none ∧ e.released = none) ∧ e ≠ .deleteMark := by
    intro e he
    rcases List.mem_flatMap.mp he with ⟨p, -, hp⟩
    rcases List.mem_cons.mp hp with rfl | hp
    · exact ⟨⟨rfl, rfl⟩, by simp⟩
    · rw [List.mem_singleton.mp hp]
      exact ⟨⟨rfl, rfl⟩, by simp [saveEvent]⟩
  cases h with
  | pop tasks | stamp tasks | svcEnd tasks =>
    exact ⟨fun e he => (hhandled tasks e he).1, fun hx => by cases hx⟩
  | save tasks task =>
    refine ⟨fun e he => ?_, fun hx => by cases hx⟩
    rcases List.mem_append.mp he with he | he
    · exact (hhandled tasks e he).1
    · rw [List.mem_singleton.mp he]
      exact ⟨rfl, rfl⟩
  | returned tasks =>
    refine ⟨fun e he => ?_, fun _ => ?_⟩
    · rcases List.mem_append.mp he with he | he
      · exact (hhandled tasks e he).1
      · rw [List.mem_singleton.mp he]
        exact ⟨rfl, rfl⟩
    · have hnone : (handled tasks).count .deleteMark = 0 :=
        List.count_eq_zero.mpr fun he => (hhandled tasks _ he).2 rfl
      rw [List.count_append, hnone, List.count_singleton_self]

end Run

/-! ## No run is infinite -/

def sends (st : ImageStream) (nw : ℕ) : List Msg :=
  ((List.range st.size).map fun j => some (taskOf st j)) ++ List.replicate nw none

theorem getElem?_sends {n : ℕ} {e : ℕ × Msg} (he : e ∈ choices st nw n) :
    (sends st nw)[n]? = some e.2 := by
  rcases mem_choices he with ⟨hn, -, hm⟩ | ⟨hn, hend, rfl⟩
  · rw [hm, sends, List.getElem?_append_left (by simpa using hn)]
    simp [hn]
  · rw [sends, List.getElem?_append_right (by simpa using hn), List.length_map,
      List.length_range, List.getElem?_replicate, if_pos (by omega)]

def threadRank (st : ImageStream) (markImg : Mark) : (t : Thread nw) → Loc nw t → ℕ
  | .emitter => sendRank (msgWeight markImg) (sends st nw)
  | .worker _ => rank markImg

theorem ranking (st : ImageStream) (markImg : Mark) :
    Ranking (program st markImg nw) (threadRank st markImg)
      (WorkerCode.weight (msgWeight markImg)) ((Finset.range nw).image .workerQueue) where
  pop t x q next m ha := by
    cases t with
    | emitter => exact absurd ha send_pop_none
    | worker i =>
      rcases rank_pop (m := m) ha with ⟨rfl, hlt⟩
      exact ⟨Finset.mem_image_of_mem _ (Finset.mem_range.mpr i.isLt), hlt⟩
  push t x q m next ha := by
    cases t with
    | emitter =>
      refine ⟨?_, sendRank_push (msgWeight markImg) (fun e he => getElem?_sends he) ha⟩
      rcases send_push ha with ⟨e, he, -, hpush⟩
      cases hpush
      refine Finset.mem_image_of_mem _ (Finset.mem_range.mpr ?_)
      rcases mem_choices he with ⟨-, hk, -⟩ | ⟨hn, hlt, rfl⟩
      · exact hk
      · omega
    | worker i => exact absurd ha push_none
  work t x mem f ha := by
    cases t with
    | emitter => exact absurd ha send_work_none
    | worker i => exact rank_work ha

end WaterMark.FastFlow.Farm
