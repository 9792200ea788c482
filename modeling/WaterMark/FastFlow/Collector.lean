import WaterMark.Maps.Worker

/-! # The collector of the FastFlow versions

`Gather_Map` takes the results of the workers in any order of their queues. It
counts the results of an image in a vector, and saves the image when the counter
reaches a given number. FastFlow calls `svc` with the results that the workers
return, which are never null.
-/

namespace WaterMark.FastFlow
open ChannelNetwork TaggedLog Pixels Maps Gather

/-- What distinguishes the collectors of the two versions: the number of results
that makes an image full, and the indices inside the vector `pool`. -/
structure GatherMap where
  full : ℕ
  inPool : ℤ → Bool
  data : Ptr → Ptr

/-- Where the collector stands: between two calls of `svc`, or in a call. -/
inductive CollectorState where
  | pop (pool : ℤ → ℕ)
  | svc (workerResult : Result) (pool : ℤ → ℕ)

def savePath (imageId : ℤ) : String := "markedImageFFmap/img_" ++ toString imageId ++ ".jpg"

/-- `pool[imageId]++`. -/
def increment (pool : ℤ → ℕ) (imageId : ℤ) : ℤ → ℕ :=
  Function.update pool imageId (pool imageId + 1)

namespace GatherMap
variable {T J : Type} {nw : ℕ}

/-- The outcomes of the comparison of `pool[imageId]` with the full number.
Outside the vector nothing is known of the value. -/
def outcomes (c : GatherMap) (pool : ℤ → ℕ) (imageId : ℤ) : List Bool :=
  if c.inPool imageId then [decide (pool imageId = c.full)] else [true, false]

/-- What a call of `svc` does with the outcome of its comparison. -/
def svcEvents (c : GatherMap) (workerResult : Result) (full : Bool) (pixels : Ptr → Buffer) :
    List (Event J) :=
  .access workerResult.1 ::
    if full then
      [.save workerResult.1 (savePath workerResult.1) workerResult.2
        (pixels (c.data workerResult.2))]
    else []

/-- The actions of the collector; the results of a worker stay in order. -/
def actions (c : GatherMap) (nw : ℕ) (t : T) :
    CollectorState → List (Action (@Chan.Msg (Fin nw) J) CollectorState (Memory T J))
  | .pop pool =>
    (List.finRange nw).map fun i =>
      .pop (.gatherQueue i) fun workerResult => .svc workerResult pool
  | .svc workerResult pool =>
    let pool := increment pool workerResult.1
    (c.outcomes pool workerResult.1).map fun full =>
      .work fun mem => (.pop pool, mem.record t (c.svcEvents workerResult full mem.pixels))

/-! ## What the collector has received and done -/

def counts (msgs : List Result) (imageId : ℤ) : ℕ := msgs.countP fun r => r.1 == imageId

theorem counts_snoc (msgs : List Result) (r : Result) :
    counts (msgs ++ [r]) = increment (counts msgs) r.1 := by
  ext imageId
  rw [counts, List.countP_append, List.countP_singleton]
  by_cases h : imageId = r.1
  · subst h
    simp [increment, counts]
  · have hne : (r.1 == imageId) = false := beq_false_of_ne (Ne.symm h)
    simp [increment, h, hne, counts]

inductive Handled (c : GatherMap) : List Result → List (Event J) → Prop
  | nil : Handled c [] []
  | snoc {msgs events} (h : Handled c msgs events) (r : Result) {full : Bool}
      (hfull : full ∈ c.outcomes (counts (msgs ++ [r])) r.1) (pixels : Ptr → Buffer) :
      Handled c (msgs ++ [r]) (events ++ c.svcEvents r full pixels)

theorem Handled.accessed {c : GatherMap} {msgs : List Result} {events : List (Event J)}
    (h : c.Handled msgs events) : events.filterMap Event.accessed = msgs.map Prod.fst := by
  induction h with
  | nil => rfl
  | @snoc _ _ _ r full _ pixels ih =>
    rw [List.filterMap_append, ih, List.map_append]
    cases full <;> rfl

theorem Handled.released {c : GatherMap} {msgs : List Result} {events : List (Event J)}
    (h : c.Handled msgs events) : events.filterMap Event.released = [] := by
  induction h with
  | nil => rfl
  | @snoc _ _ _ r full _ pixels ih =>
    rw [List.filterMap_append, ih]
    cases full <;> rfl

theorem Handled.mem_save {c : GatherMap} {msgs : List Result} {events : List (Event J)}
    (h : c.Handled msgs events) {imageId : ℤ} {path : String} {ptrImg : Ptr} {picture : Buffer}
    (hsave : .save imageId path ptrImg picture ∈ events) :
    (imageId, ptrImg) ∈ msgs ∧ path = savePath imageId := by
  induction h with
  | nil => cases hsave
  | @snoc _ _ _ r full _ pixels ih =>
    rcases List.mem_append.mp hsave with hsave | hsave
    · exact ⟨List.mem_append_left _ (ih hsave).1, (ih hsave).2⟩
    · cases full
      · simp [svcEvents] at hsave
      · rcases List.mem_cons.mp hsave with he | hsave
        · cases he
        · cases List.mem_singleton.mp hsave
          exact ⟨List.mem_append_right _ (List.mem_singleton_self _), rfl⟩

/-- A projection of the events that shows the results behind the saves. -/
structure ShowsSaves {J α : Type} (c : GatherMap) (f : Event J → Option α) (g : Result → α) :
    Prop where
  full : ∀ r pixels, (c.svcEvents r true pixels).filterMap f = [g r]
  counted : ∀ r pixels, (c.svcEvents r false pixels).filterMap f = []

/-- A counter of the vector passes the full number on the result that completes
the image, and on no other. -/
theorem count_completed {c : GatherMap} {msgs : List Result} {r : Result} {full : Bool}
    (hout : full ∈ c.outcomes (counts (msgs ++ [r])) r.1) {imageId : ℤ}
    (hin : c.inPool imageId = true) : (if c.full ≤ counts msgs imageId then 1 else 0) +
        ((if full then [r] else []).map Prod.fst).count imageId =
      if c.full ≤ counts (msgs ++ [r]) imageId then 1 else 0 := by
  rw [counts_snoc]
  by_cases hr : r.1 = imageId
  · subst hr
    rw [outcomes, if_pos hin, counts_snoc] at hout
    have hnew : increment (counts msgs) r.1 r.1 = counts msgs r.1 + 1 :=
      Function.update_self _ _ _
    rw [hnew] at hout ⊢
    rw [List.mem_singleton.mp hout]
    by_cases hnow : counts msgs r.1 + 1 = c.full
    · simp [hnow, show ¬ c.full ≤ counts msgs r.1 by omega]
    · simp only [hnow, decide_false, Bool.false_eq_true, if_false, List.map_nil,
        List.count_nil, Nat.add_zero]
      split_ifs <;> omega
  · have hold : increment (counts msgs) r.1 imageId = counts msgs imageId :=
      Function.update_of_ne (Ne.symm hr) _ _
    rw [hold]
    cases full <;> simp [hr]

/-- The images saved, each at the result that has made its counter full. -/
theorem Handled.exists_completed {c : GatherMap} (hfull : 1 ≤ c.full) {msgs : List Result}
    {events : List (Event J)} (h : c.Handled msgs events) :
    ∃ completed : List Result, completed.Sublist msgs ∧
      (∀ {α : Type} {f : Event J → Option α} {g : Result → α}, c.ShowsSaves f g →
        events.filterMap f = completed.map g) ∧
      ∀ imageId, c.inPool imageId = true → (completed.map Prod.fst).count imageId =
        if c.full ≤ counts msgs imageId then 1 else 0 := by
  induction h with
  | nil =>
    refine ⟨[], .refl _, fun _ => rfl, fun imageId _ => ?_⟩
    have hzero : counts [] imageId = 0 := rfl
    rw [hzero, if_neg (by omega)]
    rfl
  | @snoc msgs events _ r full hout pixels ih =>
    rcases ih with ⟨completed, hsub, hsaved, hcount⟩
    refine ⟨completed ++ if full then [r] else [], ?_, fun hf => ?_, fun imageId hin => ?_⟩
    · cases full
      · exact (List.append_nil completed).symm ▸ hsub.trans (List.sublist_append_left _ _)
      · exact hsub.append (.refl _)
    · rw [List.filterMap_append, hsaved hf, List.map_append]
      cases full
      · rw [hf.counted]
        rfl
      · rw [hf.full]
        rfl
    · rw [List.map_append, List.count_append, hcount imageId hin]
      exact count_completed hout hin

/-- The collector's place in its code tells what it has received and done. -/
inductive HasCounted (c : GatherMap) : CollectorState → List Result → List (Event J) → Prop
  | pop {msgs events} (h : c.Handled msgs events) : HasCounted c (.pop (counts msgs)) msgs events
  | svc {msgs events} (h : c.Handled msgs events) (r : Result) :
      HasCounted c (.svc r (counts msgs)) (msgs ++ [r]) events

/-- The same for results that come from several workers, in some order. -/
def HasMerged (c : GatherMap) (x : CollectorState) (ins : Fin nw → List Result)
    (events : List (Event J)) : Prop :=
  ∃ log : List (Fin nw × Result), (∀ i, ins i = entries i log) ∧
    c.HasCounted x (log.map Prod.snd) events

section Step
variable {c : GatherMap} {t : T} {x : CollectorState} {events : List (Event J)}

theorem HasMerged.pop_step {ins : (q : Chan (Fin nw)) → List (q.Msg J)} {q : Chan (Fin nw)}
    {next : q.Msg J → CollectorState} {m : q.Msg J} (ha : .pop q next ∈ c.actions nw t x)
    (h : c.HasMerged x (fun i => ins (.gatherQueue i)) events) :
    c.HasMerged (next m) (fun i => Function.update ins q (ins q ++ [m]) (.gatherQueue i))
      events := by
  cases x with
  | pop pool =>
    rcases List.mem_map.mp ha with ⟨i, -, he⟩
    cases he
    rcases h with ⟨log, hlog, hplace⟩
    refine ⟨log ++ [(i, m)], fun i' => ?_, ?_⟩
    · change Function.update ins _ _ (.gatherQueue i') = _
      replace hlog : ∀ i, ins (.gatherQueue i) = entries i log := hlog
      by_cases hi : i = i'
      · subst hi
        rw [Function.update_self, entries_append, entries_single_self, ← hlog]
      · have hne : @Chan.gatherQueue (Fin nw) i' ≠ .gatherQueue i := fun hc =>
          hi (Chan.gatherQueue.inj hc).symm
        rw [Function.update_of_ne hne, entries_append, entries_single_ne _ hi, List.append_nil]
        exact hlog i'
    · rw [List.map_append]
      cases hplace with
      | pop h => exact .svc h m
  | svc r pool => simp [actions] at ha

theorem push_none {q : Chan (Fin nw)} {next : CollectorState} {m : q.Msg J} :
    .push q m next ∉ c.actions nw t x := by
  cases x <;> simp [actions]

theorem HasCounted.work_step [DecidableEq T] {mem : Memory T J}
    {f : Memory T J → CollectorState × Memory T J} (ha : .work f ∈ c.actions nw t x)
    {msgs : List Result} (h : c.HasCounted x msgs (mem.eventsOf t)) :
    c.HasCounted (f mem).1 msgs ((f mem).2.eventsOf t) := by
  cases x with
  | pop pool => simp [actions] at ha
  | svc r pool =>
    rcases List.mem_map.mp ha with ⟨full, hfull, he⟩
    cases he
    generalize hev : mem.eventsOf t = events at h
    cases h with
    | svc h =>
      simp only [Memory.eventsOf_record_self, hev]
      rw [← counts_snoc] at hfull ⊢
      exact .pop (h.snoc r hfull mem.pixels)

theorem work_frame [DecidableEq T] {u : T} {mem : Memory T J}
    {f : Memory T J → CollectorState × Memory T J} (ha : .work f ∈ c.actions nw t x)
    (h : t ≠ u) : (f mem).2.eventsOf u = mem.eventsOf u := by
  cases x with
  | pop pool => simp [actions] at ha
  | svc r pool =>
    rcases List.mem_map.mp ha with ⟨full, -, he⟩
    cases he
    exact Memory.eventsOf_record_ne _ _ _ h

theorem work_events {mem : Memory T J} {f : Memory T J → CollectorState × Memory T J}
    (ha : .work f ∈ c.actions nw t x) :
    ∃ r pool, ∃ full ∈ c.outcomes (increment pool r.1) r.1, x = .svc r pool ∧
      (f mem).2.events = mem.events ++ (c.svcEvents r full mem.pixels).map fun e => (t, e) := by
  cases x with
  | pop pool => simp [actions] at ha
  | svc r pool =>
    rcases List.mem_map.mp ha with ⟨full, hfull, he⟩
    cases he
    exact ⟨r, pool, full, hfull, rfl, rfl⟩

theorem pop_queue {q : Chan (Fin nw)} {next : q.Msg J → CollectorState}
    (ha : .pop q next ∈ c.actions nw t x) : ∃ i, q = .gatherQueue i := by
  cases x with
  | pop pool =>
    rcases List.mem_map.mp ha with ⟨i, -, he⟩
    cases he
    exact ⟨i, rfl⟩
  | svc r pool => simp [actions] at ha

theorem waits {empty : Chan (Fin nw) → Prop}
    (h : ∀ a ∈ c.actions (J := J) nw t x, ∃ q next, a = .pop q next ∧ empty q) :
    ∃ pool, x = .pop pool ∧ ∀ i, empty (.gatherQueue i) := by
  cases x with
  | pop pool =>
    refine ⟨pool, rfl, fun i => ?_⟩
    rcases h _ (List.mem_map_of_mem (List.mem_finRange i)) with ⟨q, next, he, hq⟩
    cases he
    exact hq
  | svc r pool =>
    have hne : c.outcomes (increment pool r.1) r.1 ≠ [] := by
      unfold outcomes
      split_ifs <;> simp
    rcases List.exists_mem_of_ne_nil _ hne with ⟨full, hfull⟩
    rcases h _ (List.mem_map_of_mem hfull) with ⟨q, next, he, -⟩
    cases he

/-! ## The collector comes to an end -/

def rank : CollectorState → ℕ
  | .pop _ => 0
  | .svc _ _ => 1

theorem rank_pop (taskWeight : J → ℕ) {q : Chan (Fin nw)} {next : q.Msg J → CollectorState}
    {m : q.Msg J} (ha : .pop q next ∈ c.actions nw t x) :
    rank (next m) < rank x + WorkerCode.weight taskWeight q m := by
  cases x with
  | pop pool =>
    rcases List.mem_map.mp ha with ⟨i, -, he⟩
    cases he
    exact Nat.lt_of_sub_eq_succ rfl
  | svc r pool => simp [actions] at ha

theorem rank_work {mem : Memory T J} {f : Memory T J → CollectorState × Memory T J}
    (ha : .work f ∈ c.actions nw t x) : rank (f mem).1 < rank x := by
  cases x with
  | pop pool => simp [actions] at ha
  | svc r pool =>
    rcases List.mem_map.mp ha with ⟨full, -, he⟩
    cases he
    exact Nat.zero_lt_one

end Step

end GatherMap

end WaterMark.FastFlow
