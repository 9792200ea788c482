import WaterMark.Farm.Worker
import WaterMark.Library.SharedQueue

/-! # The protocol of the farm

What the workers take from the shared queue is what `emitter` sends, each message
once. So each task makes each of its events once, and as no worker takes two
nulls, every worker gets one.
-/

namespace WaterMark.Farm
open ChannelNetwork TaggedLog SharedQueue Pixels Maps

variable (st : ImageStream) {nw : ℕ}

/-! ## Runs -/

def PlaceTells (st : ImageStream) : (t : Thread nw) → Loc nw t →
    ((q : Chan Empty) → List (q.Msg Msg)) → ((q : Chan Empty) → List (q.Msg Msg)) →
    List (Event Task) → Prop
  | .emitter => fun n _ outs events =>
    SendsTo (fun k => (emitter st nw)[k]?.toList) n outs ∧ events = []
  | .worker _ => fun x ins _ events => HasTaken x (ins (.workerQueue 0)) events

theorem localInvariant (markImg : Mark) :
    LocalInvariant (program st markImg nw) Memory.eventsOf (PlaceTells st) where
  pop t x ins outs v q next m ha h := by
    cases t with
    | emitter => exact absurd ha send_pop_none
    | worker i => exact HasTaken.pop_step ha h
  push t x ins outs v q m next ha h := by
    cases t with
    | emitter => exact ⟨h.1.push_step ha, h.2⟩
    | worker i => exact absurd ha push_none
  work t x ins outs mem f ha h := by
    cases t with
    | emitter => exact absurd ha send_work_none
    | worker i => exact HasTaken.work_step ha h
  frame t u x mem f hne ha := by
    cases u with
    | emitter => exact absurd ha send_work_none
    | worker i => exact work_frame ha hne

abbrev FarmState (nw : ℕ) :=
  State (Thread nw) (@Chan.Msg Empty Msg) (Loc nw) (Memory (Thread nw) Task)

/-- The queue that all workers share. -/
abbrev workerQueue : Chan Empty := .workerQueue 0

section Run
variable {st} {markImg : Mark} {pixels : Ptr → Buffer} {s : FarmState nw}

theorem placeTells (h : (program st markImg nw).Reachable ⟨pixels, []⟩ s) (t : Thread nw) :
    PlaceTells st t (s.loc t) (s.ins t) (s.outs t) (s.mem.eventsOf t) := by
  refine (localInvariant st markImg).reachable (fun t => ?_) h t
  cases t with
  | emitter => exact ⟨.start _, rfl⟩
  | worker i => exact .pop .nil

theorem worker_hasTaken (h : (program st markImg nw).Reachable ⟨pixels, []⟩ s) (i : Fin nw) :
    HasTaken (s.loc (.worker i)) (s.ins (.worker i) workerQueue) (s.mem.eventsOf (.worker i)) :=
  placeTells h (.worker i)

def workers (nw : ℕ) : Finset (Thread nw) := Finset.univ.image .worker

theorem sum_workers (f : Thread nw → ℕ) : ∑ t ∈ workers nw, f t = ∑ i, f (.worker i) :=
  Finset.sum_image fun i _ i' _ he => by
    cases he
    rfl

theorem popped_workers (h : (program st markImg nw).Reachable ⟨pixels, []⟩ s) :
    ∀ e ∈ s.popped workerQueue, e.1 ∈ workers nw := by
  apply h.popped_by (S := ↑(workers nw))
  intro t x next ha
  cases t with
  | emitter => exact absurd ha send_pop_none
  | worker i => exact Finset.mem_image_of_mem _ (Finset.mem_univ i)

theorem events_workers (h : (program st markImg nw).Reachable ⟨pixels, []⟩ s) :
    ∀ e ∈ s.mem.events, e.1 ∈ workers nw := by
  rintro ⟨t, e⟩ he
  cases t with
  | emitter =>
    have hnil : s.mem.eventsOf .emitter = [] := (placeTells h .emitter).2
    have hmem : e ∈ s.mem.eventsOf .emitter := mem_entries.mpr he
    rw [hnil] at hmem
    cases hmem
  | worker i => exact Finset.mem_image_of_mem _ (Finset.mem_univ i)

def messages (st : ImageStream) (nw : ℕ) : List Msg :=
  (List.range st.size).map (fun j => some (taskOf st j)) ++ List.replicate nw none

theorem map_emitter : (emitter st nw).map Prod.snd = messages st nw := by
  simp [emitter, messages, Function.comp_def, List.map_const']

theorem emitter_routed {e : ℕ × Msg} (he : e ∈ emitter st nw) : e.1 = 0 := by
  rcases List.mem_append.mp he with he | he
  · rcases List.mem_map.mp he with ⟨j, -, rfl⟩
    rfl
  · rcases List.mem_map.mp he with ⟨j, -, rfl⟩
    rfl

theorem popped_append (h : (program st markImg nw).Reachable ⟨pixels, []⟩ s) :
    (s.popped workerQueue).map Prod.snd ++ s.queue workerQueue =
      (messages st nw).take (s.loc .emitter) := by
  have hpushed : s.outs .emitter workerQueue = (s.pushed workerQueue).map Prod.snd := by
    apply entries_eq_map
    apply h.pushed_by (S := {.emitter})
    intro t x m next ha
    cases t with
    | emitter => rfl
    | worker i => exact absurd ha push_none
  have hzero : ∀ e ∈ (emitter st nw).take (s.loc .emitter), e.1 = 0 := fun e he =>
    emitter_routed (List.mem_of_mem_take he)
  have hsent := (placeTells h .emitter).1.eq_take 0
  rw [hpushed, h.conserved workerQueue, entries_eq_map hzero, List.map_take, map_emitter] at hsent
  exact hsent

theorem popped_le (h : (program st markImg nw).Reachable ⟨pixels, []⟩ s) :
    (s.popped workerQueue).map Prod.snd <+: messages st nw :=
  List.IsPrefix.trans ⟨_, popped_append h⟩ (List.take_prefix _ _)

theorem countP_popped (h : (program st markImg nw).Reachable ⟨pixels, []⟩ s) (p : Msg → Bool) :
    ((s.popped workerQueue).map Prod.snd).countP p =
      ∑ i, (s.ins (.worker i) workerQueue).countP p := by
  rw [countP_eq_sum (workers nw) p (popped_workers h), sum_workers]
  rfl

def log {α : Type} (f : Event Task → Option α) (s : FarmState nw) : List α :=
  (s.mem.events.map Prod.snd).filterMap f

section Picks
variable {α : Type} [DecidableEq α] {f : Event Task → Option α} {g : Task → α}

theorem count_log (h : (program st markImg nw).Reachable ⟨pixels, []⟩ s) (a : α) :
    (log f s).count a = ∑ i, ((s.mem.eventsOf (.worker i)).filterMap f).count a := by
  rw [log, count_filterMap_eq_sum (workers nw) f (events_workers h), sum_workers]
  rfl

theorem count_messages (st : ImageStream) (nw : ℕ) (g : Task → α) (a : α) :
    (messages st nw).countP (fun m => m.map g == some a) =
      ((List.range st.size).map fun j => g (taskOf st j)).count a := by
  simp [messages, List.count, List.countP_map, List.countP_replicate, Function.comp_def]

theorem log_subperm (hf : Picks f g) (h : (program st markImg nw).Reachable ⟨pixels, []⟩ s) :
    (log f s).Subperm ((List.range st.size).map fun j => g (taskOf st j)) := by
  apply List.subperm_ext_iff.mpr
  intro a _
  rw [count_log h, ← count_messages st nw]
  calc ∑ i, ((s.mem.eventsOf (.worker i)).filterMap f).count a
    _ ≤ ∑ i, (s.ins (.worker i) workerQueue).countP fun m => m.map g == some a := by
      apply Finset.sum_le_sum
      intro i _
      have hplace := worker_hasTaken h i
      rw [← List.count_filterMap]
      exact (hplace.picked_le hf).sublist.count_le a
    _ = ((s.popped workerQueue).map Prod.snd).countP _ := (countP_popped h _).symm
    _ ≤ (messages st nw).countP _ := (popped_le h).sublist.countP_le

end Picks

/-! ## The use of the records -/

/-- The record that a worker still has to read or to delete. -/
def WorkerState.inUse : WorkerState → Option Task
  | .stamp task _ => some task
  | .save task => some task
  | .release task => some task
  | _ => none

theorem HasTaken.inUse {x : WorkerState} {got : List Msg} {events : List (Event Task)}
    (h : HasTaken x got events) {task : Task} (hx : x.inUse = some task) :
    ∃ tasks : List Task, got = tasks.map some ++ [some task] ∧
      events.filterMap Event.released = tasks.map Task.record := by
  cases h with
  | stamp h task' loop =>
    cases hx
    exact ⟨_, rfl, h.picked picks_released⟩
  | save h task' =>
    cases hx
    refine ⟨_, rfl, ?_⟩
    rw [List.filterMap_append, h.picked picks_released]
    exact List.append_nil _
  | release h task' picture =>
    cases hx
    refine ⟨_, rfl, ?_⟩
    rw [List.filterMap_append, h.picked picks_released]
    exact List.append_nil _
  | pop | deleteMark | returned => cases hx

def sentTasks (st : ImageStream) : List Msg := (List.range st.size).map fun j => some (taskOf st j)

theorem nodup_sentTasks (st : ImageStream) : (sentTasks st).Nodup :=
  List.nodup_range.map fun _ _ he => congrArg Task.record (Option.some.inj he)

theorem card_workers (nw : ℕ) : (workers nw).card = nw := by
  rw [workers, Finset.card_image_of_injective _ fun i i' he => by cases he; rfl, Finset.card_univ,
    Fintype.card_fin]

/-- The workers compete for the tasks and for the nulls. -/
theorem taken (h : (program st markImg nw).Reachable ⟨pixels, []⟩ s) :
    Taken (workers nw) (sentTasks st) none (s.popped workerQueue) where
  readers := popped_workers h
  le := by
    rw [card_workers]
    exact popped_le h

theorem taskOf_of_popped (h : (program st markImg nw).Reachable ⟨pixels, []⟩ s) {t : Thread nw}
    {task : Task} (ht : (t, some task) ∈ s.popped workerQueue) :
    ∃ j < st.size, task = taskOf st j := by
  have hmem := (taken h).mem_msgs ht (Option.some_ne_none task)
  rcases List.mem_map.mp hmem with ⟨j, hj, he⟩
  exact ⟨j, List.mem_range.mp hj, (Option.some.inj he).symm⟩

theorem record_inj (h : (program st markImg nw).Reachable ⟨pixels, []⟩ s) {t u : Thread nw}
    {task task' : Task} (ht : (t, some task) ∈ s.popped workerQueue)
    (hu : (u, some task') ∈ s.popped workerQueue) (he : task.record = task'.record) :
    task = task' := by
  rcases taskOf_of_popped h ht with ⟨j, -, rfl⟩
  rcases taskOf_of_popped h hu with ⟨k, -, rfl⟩
  exact congrArg (taskOf st) he

theorem taken_of_inUse (h : (program st markImg nw).Reachable ⟨pixels, []⟩ s) {i : Fin nw}
    {task : Task} (hx : (s.loc (.worker i)).inUse = some task) :
    (.worker i, some task) ∈ s.popped workerQueue := by
  have hplace := worker_hasTaken h i
  rcases hplace.inUse hx with ⟨tasks, hgot, -⟩
  apply mem_entries.mp
  change some task ∈ s.ins (.worker i) workerQueue
  rw [hgot]
  simp

theorem taken_of_released (h : (program st markImg nw).Reachable ⟨pixels, []⟩ s) {record : ℕ}
    (hrel : record ∈ log Event.released s) :
    ∃ k task, task.record = record ∧ (.worker k, some task) ∈ s.popped workerQueue ∧
      record ∈ (s.mem.eventsOf (.worker k)).filterMap Event.released := by
  rcases List.mem_filterMap.mp hrel with ⟨e, he, hrec⟩
  rcases List.mem_map.mp he with ⟨⟨t, e⟩, hte, rfl⟩
  rcases Finset.mem_image.mp (events_workers h _ hte) with ⟨k, -, rfl⟩
  have hk := worker_hasTaken h k
  have hmine : record ∈ (s.mem.eventsOf (.worker k)).filterMap Event.released :=
    List.mem_filterMap.mpr ⟨e, mem_entries.mpr hte, hrec⟩
  rcases List.mem_filterMap.mp ((hk.picked_le picks_released).subset hmine) with ⟨m, hm, hmrec⟩
  rcases Option.map_eq_some_iff.mp hmrec with ⟨task, rfl, hrecord⟩
  exact ⟨k, task, hrecord, mem_entries.mp hm, hmine⟩

/-- A record in use is not deleted: its worker alone has taken it, once. -/
theorem inUse_not_released (h : (program st markImg nw).Reachable ⟨pixels, []⟩ s) {i : Fin nw}
    {task : Task} (hx : (s.loc (.worker i)).inUse = some task) :
    task.record ∉ log Event.released s := by
  intro hrel
  have htaken := taken_of_inUse h hx
  rcases taken_of_released h hrel with ⟨k, task', hrecord, hk, hmine⟩
  cases record_inj h hk htaken hrecord
  cases (taken h).reader_unique (nodup_sentTasks st) (Option.some_ne_none task) hk htaken
  have hplace := worker_hasTaken h i
  rcases hplace.inUse hx with ⟨tasks, hgot, hev⟩
  rw [hev] at hmine
  rcases List.mem_map.mp hmine with ⟨task', htask', hrecord'⟩
  have hi : (.worker i, some task') ∈ s.popped workerQueue := by
    apply mem_entries.mp
    change some task' ∈ s.ins (.worker i) workerQueue
    rw [hgot]
    simp [htask']
  cases record_inj h hi htaken hrecord'
  have hcount : (s.ins (.worker i) workerQueue).count (some task) ≤ 1 :=
    (taken h).count_entries_le (nodup_sentTasks st) (Option.some_ne_none task) (.worker i)
  have hone := List.one_le_count_iff.mpr (List.mem_map_of_mem (f := some) htask')
  rw [hgot, List.count_append, List.count_singleton_self] at hcount
  omega

/-- Two workers never use the same record. -/
theorem inUse_unique (h : (program st markImg nw).Reachable ⟨pixels, []⟩ s) {i i' : Fin nw}
    {task : Task} (hx : (s.loc (.worker i)).inUse = some task)
    (hx' : (s.loc (.worker i')).inUse = some task) : i' = i := by
  cases (taken h).reader_unique (nodup_sentTasks st) (Option.some_ne_none task)
    (taken_of_inUse h hx') (taken_of_inUse h hx)
  rfl

/-- A save names the image that its worker has just finished. -/
def Caused (st : ImageStream) (before : List (Thread nw × Event Task))
    (e : Thread nw × Event Task) : Prop :=
  ∀ imageId path ptrImg picture, e.2 = .save imageId path ptrImg picture →
    ∃ j < st.size, imageId = j ∧ path = savePath j ∧ ptrImg = st.img j ∧
      (e.1, .chunkDone (taskOf st j)) ∈ before

theorem caused_of_no_save {before : List (Thread nw × Event Task)} {t : Thread nw}
    {es : List (Event Task)} (hes : ∀ e ∈ es, e.output = none) :
    Justified (fun new e => Caused st (before ++ new) e) (es.map fun e => (t, e)) := by
  apply Justified.of_all
  intro new e he imageId path ptrImg picture hsave
  rcases List.mem_map.mp he with ⟨e', he', rfl⟩
  cases hsave
  cases hes _ he'

theorem caused (h : (program st markImg nw).Reachable ⟨pixels, []⟩ s) :
    Justified (Caused st) s.mem.events := by
  refine h.justified Memory.events rfl fun s hs t f ha => ?_
  cases t with
  | emitter => exact absurd ha send_work_none
  | worker i =>
    have hplace := worker_hasTaken hs i
    have htaken {task : Task} : (s.loc (.worker i)).inUse = some task →
        (.worker i, some task) ∈ s.popped workerQueue := taken_of_inUse hs
    change .work f ∈ workerActions st markImg (.worker i) (s.loc (.worker i)) at ha
    generalize s.loc (.worker i) = x at ha hplace htaken
    cases x with
    | stamp task loop =>
      cases List.mem_singleton.mp ha
      by_cases hend : (wholePicture (markImg.size / 3 : ℕ)).finished loop = true
      · simp only [hend, if_true]
        exact ⟨_, rfl, caused_of_no_save (by simp [Event.output])⟩
      · simp only [hend, Bool.false_eq_true, if_false]
        exact ⟨[], (List.append_nil _).symm, .nil⟩
    | save task =>
      cases List.mem_singleton.mp ha
      refine ⟨_, rfl, .of_all fun new e he imageId path ptrImg picture hsave => ?_⟩
      cases List.mem_singleton.mp he
      rcases taskOf_of_popped hs (htaken rfl) with ⟨j, hj, rfl⟩
      cases hsave
      have hdone : .chunkDone (taskOf st j) ∈ s.mem.eventsOf (.worker i) := by
        generalize s.mem.eventsOf (.worker i) = events at hplace
        generalize s.ins (.worker i) workerQueue = got at hplace
        cases hplace with
        | save h task => simp
      exact ⟨j, hj, rfl, rfl, rfl, List.mem_append_left _ (mem_entries.mp hdone)⟩
    | release | deleteMark =>
      cases List.mem_singleton.mp ha
      exact ⟨_, rfl, caused_of_no_save (by simp [Event.output])⟩
    | pop | returned => simp [workerActions] at ha

/-! ## The end of a run -/

theorem count_none_map (tasks : List Task) : (tasks.map some).count none = 0 := by
  simp [List.count_eq_zero]

theorem HasTaken.count_none_le {x : WorkerState} {got : List Msg} {events : List (Event Task)}
    (h : HasTaken x got events) : got.count none ≤ 1 := by
  cases h with
  | pop => rw [count_none_map]; exact Nat.zero_le 1
  | stamp | save | release | deleteMark | returned =>
    rw [List.count_append, count_none_map, Nat.zero_add]
    exact List.count_le_length

theorem HasTaken.count_none_pop {got : List Msg} {events : List (Event Task)}
    (h : HasTaken .pop got events) : got.count none = 0 := by
  cases h with
  | pop => exact count_none_map _

theorem HasTaken.count_none_returned {got : List Msg} {events : List (Event Task)}
    (h : HasTaken .returned got events) : got.count none = 1 := by
  cases h with
  | returned => rw [List.count_append, count_none_map, List.count_singleton_self]

theorem emitter_finished (hterm : (program st markImg nw).Terminal s) :
    (emitter st nw).length ≤ s.loc .emitter :=
  scatter_waits fun a ha => hterm.waits (t := .emitter) (a := a) ha

theorem popped_terminal (h : (program st markImg nw).Reachable ⟨pixels, []⟩ s)
    (hterm : (program st markImg nw).Terminal s) :
    (s.popped workerQueue).map Prod.snd ++ s.queue workerQueue =
      sentTasks st ++ List.replicate (workers nw).card none := by
  have hlen : (messages st nw).length ≤ s.loc .emitter := by
    rw [← map_emitter, List.length_map]
    exact emitter_finished hterm
  rw [popped_append h, List.take_of_length_le hlen, card_workers]
  rfl

theorem nulls_le (h : (program st markImg nw).Reachable ⟨pixels, []⟩ s) :
    ∀ t ∈ workers nw, (entries t (s.popped workerQueue)).count none ≤ 1 := by
  intro t ht
  rcases Finset.mem_image.mp ht with ⟨i, -, rfl⟩
  have hplace := worker_hasTaken h i
  exact hplace.count_none_le

/-- At the end of a run every worker has returned: one that waits has taken no
null, while all nulls are taken and nobody takes two. -/
theorem returned_of_terminal (h : (program st markImg nw).Reachable ⟨pixels, []⟩ s)
    (hterm : (program st markImg nw).Terminal s) (i : Fin nw) :
    s.loc (.worker i) = .returned := by
  have hplace := worker_hasTaken h i
  rcases waits fun a ha => hterm.waits (t := .worker i) (a := a) ha with hx | ⟨hx, hq⟩
  · exact hx
  · have hall := popped_terminal h hterm
    rw [hq, List.append_nil] at hall
    have hmarker : (s.ins (.worker i) workerQueue).count none = 1 :=
      (taken h).marker_of_eq hall (nulls_le h) _ (Finset.mem_image_of_mem _ (Finset.mem_univ i))
    rw [hx] at hplace
    rw [hplace.count_none_pop] at hmarker
    cases hmarker

theorem nulls_terminal (h : (program st markImg nw).Reachable ⟨pixels, []⟩ s)
    (hterm : (program st markImg nw).Terminal s) (i : Fin nw) :
    (s.ins (.worker i) workerQueue).count none = 1 := by
  have hplace := worker_hasTaken h i
  rw [returned_of_terminal h hterm i] at hplace
  exact hplace.count_none_returned

theorem taken_terminal (hnw : 1 ≤ nw) (h : (program st markImg nw).Reachable ⟨pixels, []⟩ s)
    (hterm : (program st markImg nw).Terminal s) :
    (s.popped workerQueue).map Prod.snd = messages st nw ∧ s.queue workerQueue = [] := by
  have hne : (workers nw).Nonempty := by
    rw [← Finset.card_pos, card_workers]
    exact hnw
  have hnone : (none : Msg) ∉ sentTasks st := by simp [sentTasks]
  have htaken := (taken h).eq_of_markers hne hnone fun t ht => by
    rcases Finset.mem_image.mp ht with ⟨i, -, rfl⟩
    exact (nulls_terminal h hterm i).ge
  have hall := popped_terminal h hterm
  rw [htaken] at hall
  rw [card_workers] at htaken
  exact ⟨htaken, List.append_right_eq_self.mp hall⟩

theorem log_perm {α : Type} [DecidableEq α] {f : Event Task → Option α} {g : Task → α}
    (hf : Picks f g) (hnw : 1 ≤ nw) (h : (program st markImg nw).Reachable ⟨pixels, []⟩ s)
    (hterm : (program st markImg nw).Terminal s) :
    (log f s).Perm ((List.range st.size).map fun j => g (taskOf st j)) := by
  apply List.perm_iff_count.mpr
  intro a
  rw [count_log h, ← count_messages st nw, ← (taken_terminal hnw h hterm).1, countP_popped h]
  apply Finset.sum_congr rfl
  intro i _
  have hplace := worker_hasTaken h i
  rw [returned_of_terminal h hterm i] at hplace
  rw [← List.count_filterMap, hplace.picked_returned hf]

end Run

/-! ## No run is infinite -/

def threadRank (st : ImageStream) (markImg : Mark) : (t : Thread nw) → Loc nw t → ℕ
  | .emitter => sendRank (msgWeight markImg) ((emitter st nw).map Prod.snd)
  | .worker _ => rank markImg

theorem ranking (markImg : Mark) :
    Ranking (program st markImg nw) (threadRank st markImg)
      (WorkerCode.weight (msgWeight markImg)) {workerQueue} where
  pop t x q next m ha := by
    cases t with
    | emitter => exact absurd ha send_pop_none
    | worker i =>
      rcases rank_pop (m := m) ha with ⟨hq, hlt⟩
      exact ⟨Finset.mem_singleton.mpr hq, hlt⟩
  push t x q m next ha := by
    cases t with
    | emitter =>
      rcases scatter_push ha with ⟨e, he, rfl⟩
      refine ⟨?_, scatterRank_push (msgWeight markImg) ha⟩
      rw [emitter_routed he]
      exact Finset.mem_singleton_self _
    | worker i => exact absurd ha push_none
  work t x mem f ha := by
    cases t with
    | emitter => exact absurd ha send_work_none
    | worker i => exact rank_work ha

/-- All threads have returned, each worker after one null, and nothing is left. -/
structure Finished (st : ImageStream) {nw : ℕ} (s : FarmState nw) : Prop where
  emitter : (emitter st nw).length ≤ s.loc .emitter
  workers : ∀ i, s.loc (.worker i) = .returned ∧ (s.ins (.worker i) workerQueue).count none = 1
  queue : s.queue workerQueue = []

/-- The protocol of the farm: each image is stamped and saved by one worker, the
save after the last pixel; a record in use belongs to one worker and is not
deleted; and every run comes to an end, with each image stamped and saved and
each record deleted exactly once. -/
theorem farm_protocol (st : ImageStream) (markImg : Mark) (pixels : Ptr → Buffer) {nw : ℕ}
    (hnw : 1 ≤ nw) (s : FarmState nw)
    (h : (program st markImg nw).Reachable ⟨pixels, []⟩ s) :
    ((log Event.stamped s).Subperm ((List.range st.size).map (taskOf st)) ∧
      (log Event.saved s).Subperm ((List.range st.size).map fun j : ℕ => (savePath j, st.img j)) ∧
      (log Event.released s).Subperm (List.range st.size)) ∧
    (∀ before t (imageId : ℤ) path ptrImg picture after,
      s.mem.events = before ++ (t, .save imageId path ptrImg picture) :: after →
        ∃ j < st.size, imageId = j ∧ path = savePath j ∧ ptrImg = st.img j ∧
          (t, .chunkDone (taskOf st j)) ∈ before) ∧
    (∀ i task, (s.loc (.worker i)).inUse = some task → (∃ j < st.size, task = taskOf st j) ∧
      task.record ∉ log Event.released s ∧
      ∀ i', (s.loc (.worker i')).inUse = some task → i' = i) ∧
    ((program st markImg nw).Terminal s → Finished st s ∧
      (log Event.stamped s).Perm ((List.range st.size).map (taskOf st)) ∧
      (log Event.saved s).Perm ((List.range st.size).map fun j : ℕ => (savePath j, st.img j)) ∧
      (log Event.released s).Perm (List.range st.size)) ∧
    ∃ s', Relation.ReflTransGen (program st markImg nw).Step s s' ∧
      (program st markImg nw).Terminal s' := by
  have hrecords : (List.range st.size).map (fun j => (taskOf st j).record) = List.range st.size :=
    List.map_id _
  refine ⟨⟨log_subperm picks_stamped h, log_subperm picks_saved h, ?_⟩, ?_, ?_, ?_, ?_⟩
  · exact hrecords ▸ log_subperm picks_released h
  · intro before t imageId path ptrImg picture after hsplit
    exact caused h before _ after hsplit imageId path ptrImg picture rfl
  · intro i task hx
    exact ⟨taskOf_of_popped h (taken_of_inUse h hx), inUse_not_released h hx,
      fun i' hx' => inUse_unique h hx hx'⟩
  · intro hterm
    refine ⟨⟨emitter_finished hterm, fun i => ?_, (taken_terminal hnw h hterm).2⟩,
      log_perm picks_stamped hnw h hterm, log_perm picks_saved hnw h hterm, ?_⟩
    · exact ⟨returned_of_terminal h hterm i, nulls_terminal h hterm i⟩
    · exact hrecords ▸ log_perm picks_released hnw h hterm
  · exact (ranking st markImg).exists_terminal s

/-- Two workers stamp two images of four pixels, and a complete run saves both and releases
their records. -/
theorem farm_protocol_twoImages :
    ∃ s, (program twoImages ⟨2, 2, 3, [0, 200, 49, 50, 0, 200, 49, 50, 0, 200, 49, 50], rfl⟩
        2).Reachable ⟨fun _ => List.replicate 12 100, []⟩ s ∧
      (log Event.saved s).Perm [(savePath 0, 1), (savePath 1, 3)] ∧
      (log Event.released s).Perm [0, 1] := by
  have hall := farm_protocol twoImages
    ⟨2, 2, 3, [0, 200, 49, 50, 0, 200, 49, 50, 0, 200, 49, 50], rfl⟩
    (fun _ => List.replicate 12 100) (show 1 ≤ 2 by decide)
  obtain ⟨s, hs, hterm⟩ := (hall _ .refl).2.2.2.2
  obtain ⟨-, -, hsaved, hreleased⟩ := (hall s hs).2.2.2.1 hterm
  exact ⟨s, hs, hsaved, hreleased⟩

end WaterMark.Farm
