import WaterMark.Maps.Events

/-! # The map

`scatter` sends every image to all workers. The messages carry no number: each
worker numbers the images by its own counter. The gather deletes an image once
all workers have sent their result of it.
-/

namespace WaterMark.Map
open ChannelNetwork TaggedLog Pixels Gather Maps

/-- The message of a worker's queue: the pixels and the image. -/
abbrev Task := Ptr × Ptr

variable (st : ImageStream) (nw : ℕ)

/-- `make_pair(dataImgVector[j],imgVector[j])`. -/
def taskOf (j : ℕ) : Task := (st.pix j, st.img j)

def eofTask : Task := (NULL, NULL)

/-- The pushes of `scatter`, in the order of its loops. -/
def scatter : List (ℕ × Task) :=
  ((List.range st.size).flatMap fun j => (List.range nw).map fun i => (i, taskOf st j)) ++
  (List.range nw).map fun i => (i, eofTask)

def worker (ptrMarker : Buffer) : WorkerCode Task where
  eof task := task.1 == NULL
  dataImg := Prod.fst
  image := Prod.snd
  number _ imageCounter := imageCounter
  ptrMarker := ptrMarker
  onChunk _ := []
  onReturn := [.deleteInfo]

/-- `gather`, where the statement that saves the image is commented out. -/
def gather : GatherCode Task where
  nw := nw
  onComplete workerResult _ := .deleteImage workerResult.2
  onReturn _ := []

def code (ptrMark : Buffer) (markHeight markWidth : ℕ) : Code Unit Task nw where
  scatter := scatter st nw
  queue _ i := i
  info _ i _ := infoVector markHeight markWidth nw i
  worker := worker ptrMark
  gather _ := gather nw

/-! ## What `scatter` sends to a worker -/

def tasks : List Task := (List.range st.size).map (taskOf st)

variable {nw}

theorem entries_scatter (i : Fin nw) : entries (i : ℕ) (scatter st nw) = tasks st ++ [eofTask] := by
  have htasks := entries_broadcast i.isLt (tasks st)
  have heof := entries_broadcast i.isLt [eofTask]
  rw [tasks, List.flatMap_map] at htasks
  rw [List.flatMap_singleton] at heof
  rw [scatter, entries_append, htasks, heof, tasks]

theorem results_eq (ptrMark : Buffer) :
    (worker ptrMark).results (tasks st) = (List.range st.size).map (resultOf st) := by
  apply List.ext_getElem
  · simp [tasks]
  · intro k hk hk'
    simp [WorkerCode.results, worker, tasks, taskOf, resultOf]

theorem feeds (ptrMark : Buffer) (markHeight markWidth : ℕ) (hnw : 1 ≤ nw) :
    (code st nw ptrMark markHeight markWidth).Feeds (fun _ => tasks st) eofTask where
  one_le := hnw
  queue_inj _ _ _ _ h := ⟨rfl, Fin.ext h⟩
  routed e he := by
    rcases List.mem_append.mp he with he | he
    · rcases List.mem_flatMap.mp he with ⟨j, -, he⟩
      rcases List.mem_map.mp he with ⟨i, hi, rfl⟩
      exact ⟨(), ⟨i, List.mem_range.mp hi⟩, rfl⟩
    · rcases List.mem_map.mp he with ⟨i, hi, rfl⟩
      exact ⟨(), ⟨i, List.mem_range.mp hi⟩, rfl⟩
  feed _ i := entries_scatter st i
  proper _ task htask := by
    rcases List.mem_map.mp htask with ⟨j, hj, rfl⟩
    exact beq_false_of_ne (st.pix_ne (List.mem_range.mp hj))
  eof_last := rfl
  image_last := rfl
  results _ := by
    change ResultStream ((worker ptrMark).results (tasks st))
    rw [results_eq]
    apply resultStream_map st List.nodup_range
    intro j hj
    exact List.mem_range.mp hj
  gather_nw _ := rfl

/-! ## The protocol -/

section Protocol
variable {st} {ptrMark : Buffer} {markHeight markWidth : ℕ} {pixels : Ptr → Buffer}
  {s : NetState Unit Task nw}

def deletions (s : NetState Unit Task nw) : List Ptr :=
  (s.mem.events.map Prod.snd).filterMap Event.deleted

theorem deleted_worker {e : Event Task} (h : (worker ptrMark).Makes e) : e.deleted = none :=
  h.hidden (fun _ => rfl) (by simp [worker]) (by simp [worker, Event.deleted])

theorem deletions_gather (hnw : 1 ≤ nw)
    (h : (code st nw ptrMark markHeight markWidth).program.Reachable ⟨pixels, []⟩ s) :
    deletions s = (s.mem.eventsOf (.gather ())).filterMap Event.deleted := by
  have hF := feeds st ptrMark markHeight markWidth hnw
  apply filterMap_entries
  intro e he hne
  rcases Code.gather_or_makes hF.one_le_gather h (mem_entries.mpr he) with ⟨m, hm⟩ | hmakes
  · exact absurd hm hne
  · exact deleted_worker hmakes

theorem shows (nw : ℕ) : (gather nw).Shows Event.deleted Prod.snd where
  complete _ _ := rfl
  printed _ := rfl

/-- The gather deletes the images in stream order. -/
theorem deletions_eq (hnw : 1 ≤ nw)
    (h : (code st nw ptrMark markHeight markWidth).program.Reachable ⟨pixels, []⟩ s) :
    ∃ n, deletions s = st.imgVector.take n := by
  have hF := feeds st ptrMark markHeight markWidth hnw
  rcases hF.shown h (m := ()) (shows nw) with ⟨n, hn⟩
  change _ = (((worker ptrMark).results (tasks st)).take n).map Prod.snd at hn
  rw [← deletions_gather hnw h, results_eq, List.map_take, List.map_map] at hn
  use n
  rw [← st.map_img]
  exact hn

theorem deletions_terminal (hnw : 1 ≤ nw)
    (h : (code st nw ptrMark markHeight markWidth).program.Reachable ⟨pixels, []⟩ s)
    (hterm : (code st nw ptrMark markHeight markWidth).program.Terminal s) :
    deletions s = st.imgVector := by
  have hF := feeds st ptrMark markHeight markWidth hnw
  have hall := hF.shown_terminal h hterm (m := ()) (shows nw)
  change _ = ((worker ptrMark).results (tasks st)).map Prod.snd at hall
  rw [← deletions_gather hnw h, results_eq, List.map_map] at hall
  rw [← st.map_img]
  exact hall

theorem result_of_pushed (hnw : 1 ≤ nw)
    (h : (code st nw ptrMark markHeight markWidth).program.Reachable ⟨pixels, []⟩ s)
    {e : Thread Unit nw × Result} (he : e ∈ s.pushed (.gatherQueue ())) (hne : e.2.2 ≠ NULL) :
    ∃ j < st.size, e.2 = resultOf st j := by
  have hF := feeds st ptrMark markHeight markWidth hnw
  have hmem := (hF.merges h ()).mem_stream he
  change e.2 ∈ (worker ptrMark).results (tasks st) ++ [eos] at hmem
  rw [results_eq] at hmem
  rcases List.mem_append.mp hmem with hmem | hmem
  · rcases List.mem_map.mp hmem with ⟨j, hj, hr⟩
    exact ⟨j, List.mem_range.mp hj, hr.symm⟩
  · rw [List.mem_singleton.mp hmem] at hne
    exact absurd rfl hne

/-- The gather deletes an image after all workers have finished their chunk of it. -/
theorem deletion_caused (hnw : 1 ≤ nw)
    (h : (code st nw ptrMark markHeight markWidth).program.Reachable ⟨pixels, []⟩ s)
    {before after : List (Thread Unit nw × Event Task)} {t : Thread Unit nw} {ptrImg : Ptr}
    (hsplit : s.mem.events = before ++ (t, .deleteImage ptrImg) :: after) :
    t = .gather () ∧ ∃ j < st.size, ptrImg = st.img j ∧
      ∀ i, (.worker () i, .chunkDone (taskOf st j)) ∈ before := by
  have hF := feeds st ptrMark markHeight markWidth hnw
  have hmem : .deleteImage ptrImg ∈ s.mem.eventsOf t := mem_entries.mpr (by simp [hsplit])
  rcases Code.gather_or_makes hF.one_le_gather h hmem with ⟨m, rfl⟩ | hmakes
  · rcases hF.caused h before _ after hsplit m rfl with ⟨j, hj, ⟨pix, he⟩, hdone⟩ | ⟨n, he⟩
    · simp only [tasks, List.length_map, List.length_range] at hj
      simp only [tasks, List.getElem_map, List.getElem_range] at he hdone
      cases he
      exact ⟨rfl, j, hj, rfl, hdone⟩
    · cases he
  · cases deleted_worker hmakes

/-- A worker that is in its loop stamps an image that is not deleted. -/
theorem stamping_alive (hnw : 1 ≤ nw)
    (h : (code st nw ptrMark markHeight markWidth).program.Reachable ⟨pixels, []⟩ s) {i : Fin nw}
    {task : Task} {loop : LoopState} {n : ℕ} (hloc : s.loc (.worker () i) = .stamp task loop n) :
    ∃ j < st.size, task = taskOf st j ∧ st.img j ∉ deletions s := by
  have hF := feeds st ptrMark markHeight markWidth hnw
  rcases hF.stamp_next h (fun _ _ => List.not_mem_nil) hloc with ⟨hnext, hdone⟩
  rcases List.getElem?_eq_some_iff.mp hnext with ⟨hn, htask⟩
  simp only [tasks, List.length_map, List.length_range] at hn
  simp only [tasks, List.getElem_map, List.getElem_range] at htask
  refine ⟨n, hn, htask.symm, ?_⟩
  intro hdel
  -- all workers have finished image `n`, this one among them
  rcases List.mem_filterMap.mp hdel with ⟨e, he, hptr⟩
  rcases List.mem_map.mp he with ⟨⟨t, e⟩, hte, rfl⟩
  cases e with
  | deleteImage ptrImg =>
    rcases List.append_of_mem hte with ⟨before, after, hsplit⟩
    rcases deletion_caused hnw h hsplit with ⟨-, j, hj, hptrImg, hall⟩
    have hjn : j = n := (st.img_inj hj hn).mp (hptrImg ▸ Option.some.inj hptr)
    subst hjn
    have hmine : .chunkDone (taskOf st j) ∈ s.mem.eventsOf (.worker () i) :=
      mem_entries.mpr (by rw [hsplit]; exact List.mem_append_left _ (hall i))
    rcases List.mem_take_iff_getElem.mp (hdone _ hmine) with ⟨k, hk, hke⟩
    simp only [tasks, List.length_map, List.length_range] at hk
    simp only [tasks, List.getElem_map, List.getElem_range] at hke
    have := (st.img_inj (by omega) hj).mp (congrArg Prod.snd hke)
    omega
  | chunkDone | save | deleteTask | deleteInfo | deleteMark | access | printOut => cases hptr

end Protocol

/-- All threads have returned; nothing is left in a queue or in the pool. -/
structure Finished (st : ImageStream) {nw : ℕ} (s : NetState Unit Task nw) : Prop where
  scatter : (scatter st nw).length ≤ s.loc .scatter
  workers : ∀ i, s.loc (.worker () i) = .returned
  gather : ∃ g, s.loc (.gather ()) = .returned g ∧ g.pool = ∅
  queues : ∀ q, s.queue q = []

/-- The protocol of the map: the workers' own counters agree on the numbers of
the images; the gather deletes each image once, after all workers have finished
it, so that no worker touches a deleted image; and every run comes to an end,
with all images deleted. -/
theorem map_protocol (st : ImageStream) (ptrMark : Buffer) (markHeight markWidth : ℕ)
    (pixels : Ptr → Buffer) {nw : ℕ} (hnw : 1 ≤ nw) (s : NetState Unit Task nw)
    (h : (code st nw ptrMark markHeight markWidth).program.Reachable ⟨pixels, []⟩ s) :
    (∀ e ∈ s.pushed (.gatherQueue ()), ∀ e' ∈ s.pushed (.gatherQueue ()), e.2.2 ≠ NULL →
      e'.2.2 ≠ NULL → (e.2.1 = e'.2.1 ↔ e.2.2 = e'.2.2)) ∧
    (deletions s).Nodup ∧
    (∀ before t ptrImg after, s.mem.events = before ++ (t, .deleteImage ptrImg) :: after →
      t = .gather () ∧ ∃ j < st.size, ptrImg = st.img j ∧
        ∀ i, (.worker () i, .chunkDone (taskOf st j)) ∈ before) ∧
    (∀ i task loop n, s.loc (.worker () i) = .stamp task loop n →
      ∃ j < st.size, task = taskOf st j ∧ st.img j ∉ deletions s) ∧
    ((code st nw ptrMark markHeight markWidth).program.Terminal s →
      Finished st s ∧ deletions s = st.imgVector) ∧
    ∃ s', Relation.ReflTransGen (code st nw ptrMark markHeight markWidth).program.Step s s' ∧
      (code st nw ptrMark markHeight markWidth).program.Terminal s' := by
  have hF := feeds st ptrMark markHeight markWidth hnw
  refine ⟨?_, ?_, ?_, ?_, ?_, ?_⟩
  · intro e he e' he' hne hne'
    rcases result_of_pushed hnw h he hne with ⟨j, hj, hej⟩
    rcases result_of_pushed hnw h he' hne' with ⟨k, hk, hek⟩
    rw [hej, hek]
    simp only [resultOf, Int.natCast_inj]
    exact (st.img_inj hj hk).symm
  · rcases deletions_eq hnw h with ⟨n, hn⟩
    rw [hn]
    exact st.img_nodup.sublist (List.take_sublist n _)
  · intro before t ptrImg after hsplit
    exact deletion_caused hnw h hsplit
  · intro i task loop n hloc
    exact stamping_alive hnw h hloc
  · intro hterm
    refine ⟨⟨Code.Feeds.scatter_finished hterm, ?_, ?_, hF.queues_empty h hterm⟩,
      deletions_terminal hnw h hterm⟩
    · intro i
      exact (hF.worker_finished h hterm () i).1
    · exact ⟨_, (hF.gather_finished h hterm ()).1, rfl⟩
  · exact (Code.ranking _ hF.routed).exists_terminal s

/-- Two workers stamp two images of four pixels, and a complete run deletes both images. -/
theorem map_protocol_twoImages :
    ∃ s, (code twoImages 2 [0, 200, 49, 50] 2 2).program.Reachable
        ⟨fun _ => List.replicate 12 100, []⟩ s ∧
      (code twoImages 2 [0, 200, 49, 50] 2 2).program.Terminal s ∧ deletions s = [1, 3] := by
  have hall := map_protocol twoImages [0, 200, 49, 50] 2 2 (fun _ => List.replicate 12 100)
    (show 1 ≤ 2 by decide)
  obtain ⟨s, hs, hterm⟩ := (hall _ .refl).2.2.2.2.2
  exact ⟨s, hs, hterm, ((hall s hs).2.2.2.2.1 hterm).2⟩

end WaterMark.Map
