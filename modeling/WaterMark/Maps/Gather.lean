import WaterMark.Maps.Worker

/-! # The gather of a map

The gathers of the map versions run the same loop around the counting of
results. They differ in what they do with a complete image and in what they
print at the end.
-/

namespace WaterMark.Maps
open ChannelNetwork TaggedLog Pixels Gather

/-- What distinguishes the gathers of the versions: the number of workers, the
end of the branch for a complete image, and what is printed on return. -/
structure GatherCode (J : Type) where
  nw : ℕ
  onComplete : Result → (Ptr → Buffer) → Event J
  onReturn : ℤ → List (Event J)

/-- The local variables of `gather`; `imgNumber` counts the complete images. -/
structure GatherVars where
  pool : Pool
  nullNmb : ℤ
  imgNumber : ℤ

/-- Where `gather` stands: at its pop, in the branch for a complete image, or at
its return. -/
inductive GatherState where
  | pop (g : GatherVars)
  | complete (workerResult : Result) (g : GatherVars)
  | finish (g : GatherVars)
  | returned (g : GatherVars)

namespace GatherCode
variable {T κ J : Type}

/-- From one pop to the next, except for the branch of a complete image. -/
def receive (c : GatherCode J) (g : GatherVars) (workerResult : Result) : GatherState :=
  if workerResult.2 = NULL then
    let nullNmb := g.nullNmb + 1
    if nullNmb = c.nw then .finish { g with nullNmb := nullNmb }
    else .pop { g with nullNmb := nullNmb }
  else
    let (pool, full) := poolStep c.nw g.pool workerResult.1
    if full then .complete workerResult { g with pool := pool } else .pop { g with pool := pool }

/-- What one message can do: the last end of stream, another end, the last result
of an image, or another result. -/
theorem receive_cases (c : GatherCode J) (g : GatherVars) (r : Result) :
    (r.2 = NULL ∧ g.nullNmb + 1 = c.nw ∧
      c.receive g r = .finish { g with nullNmb := g.nullNmb + 1 }) ∨
    (r.2 = NULL ∧ g.nullNmb + 1 ≠ c.nw ∧
      c.receive g r = .pop { g with nullNmb := g.nullNmb + 1 }) ∨
    (r.2 ≠ NULL ∧ (poolStep c.nw g.pool r.1).2 = true ∧
      c.receive g r = .complete r { g with pool := (poolStep c.nw g.pool r.1).1 }) ∨
    (r.2 ≠ NULL ∧ (poolStep c.nw g.pool r.1).2 ≠ true ∧
      c.receive g r = .pop { g with pool := (poolStep c.nw g.pool r.1).1 }) := by
  unfold receive
  by_cases hr : r.2 = NULL
  · by_cases hlast : g.nullNmb + 1 = c.nw
    · exact Or.inl ⟨hr, hlast, by simp only [if_pos hr, if_pos hlast]⟩
    · exact Or.inr (Or.inl ⟨hr, hlast, by simp only [if_pos hr, if_neg hlast]⟩)
  · by_cases hfull : (poolStep c.nw g.pool r.1).2 = true
    · exact Or.inr (Or.inr (Or.inl ⟨hr, hfull, by simp only [if_neg hr, if_pos hfull]⟩))
    · exact Or.inr (Or.inr (Or.inr ⟨hr, hfull, by simp only [if_neg hr, if_neg hfull]⟩))

def actions (c : GatherCode J) (t : T) (mapID : κ) :
    GatherState → List (Action (@Chan.Msg κ J) GatherState (Memory T J))
  | .pop g => [.pop (.gatherQueue mapID) (c.receive g)]
  | .complete workerResult g =>
    [.work fun mem =>
      (.pop { g with imgNumber := g.imgNumber + 1 },
        mem.record t [c.onComplete workerResult mem.pixels])]
  | .finish g => [.work fun mem => (.returned g, mem.record t (c.onReturn g.imgNumber))]
  | .returned _ => []

/-! ## What a gather has received and done -/

/-- The variables after a sequence of messages, `n` images having been dealt with. -/
def vars (c : GatherCode J) (msgs : List Result) (n : ℕ) : GatherVars :=
  ⟨(collect c.nw msgs).pool, nullCount msgs, n⟩

def Completions (c : GatherCode J) (complete : List Result) (events : List (Event J)) : Prop :=
  List.Forall₂ (fun r e => ∃ pixels, e = c.onComplete r pixels) complete events

theorem Completions.snoc {c : GatherCode J} {complete : List Result} {events : List (Event J)}
    (h : c.Completions complete events) (r : Result) (pixels : Ptr → Buffer) :
    c.Completions (complete ++ [r]) (events ++ [c.onComplete r pixels]) :=
  List.rel_append h (.cons ⟨pixels, rfl⟩ .nil)

theorem Completions.filterMap {α : Type} {c : GatherCode J} {complete : List Result}
    {events : List (Event J)} (h : c.Completions complete events) {f : Event J → Option α}
    {g : Result → α} (hf : ∀ r pixels, f (c.onComplete r pixels) = some (g r)) :
    events.filterMap f = complete.map g := by
  induction h with
  | nil => rfl
  | cons he _ ih =>
    rcases he with ⟨pixels, rfl⟩
    rw [List.filterMap_cons_some (hf _ _), ih, List.map_cons]

theorem Completions.filterMap_none {α : Type} {c : GatherCode J} {complete : List Result}
    {events : List (Event J)} (h : c.Completions complete events) {f : Event J → Option α}
    (hf : ∀ r pixels, f (c.onComplete r pixels) = none) : events.filterMap f = [] := by
  induction h with
  | nil => rfl
  | cons he _ ih =>
    rcases he with ⟨pixels, rfl⟩
    rw [List.filterMap_cons_none (hf _ _), ih]

/-- A projection of the events that shows each complete image, and nothing of
what is printed. -/
structure Shows {α : Type} (c : GatherCode J) (f : Event J → Option α) (g : Result → α) :
    Prop where
  complete : ∀ r pixels, f (c.onComplete r pixels) = some (g r)
  printed : ∀ n, (c.onReturn n).filterMap f = []

theorem Shows.events {α : Type} {c : GatherCode J} {f : Event J → Option α} {g : Result → α}
    (h : c.Shows f g) {complete : List Result} {completions printed : List (Event J)} {n : ℤ}
    (hev : c.Completions complete completions) (hprinted : printed = [] ∨ printed = c.onReturn n) :
    (completions ++ printed).filterMap f = complete.map g := by
  rw [List.filterMap_append, hev.filterMap h.complete]
  rcases hprinted with rfl | rfl
  · exact List.append_nil _
  · rw [h.printed, List.append_nil]

/-- A gather's place in its code tells what it has received and done. -/
inductive HasCompleted (c : GatherCode J) : GatherState → List Result → List (Event J) → Prop
  | pop {msgs events} (hn : nullCount msgs < c.nw)
      (hev : c.Completions (collect c.nw msgs).complete events) :
      HasCompleted c (.pop (c.vars msgs events.length)) msgs events
  | complete {msgs r events} (hn : nullCount (msgs ++ [r]) < c.nw)
      (hfull : (collect c.nw (msgs ++ [r])).complete = (collect c.nw msgs).complete ++ [r])
      (hev : c.Completions (collect c.nw msgs).complete events) :
      HasCompleted c (.complete r (c.vars (msgs ++ [r]) events.length)) (msgs ++ [r]) events
  | finish {msgs events} (hn : nullCount msgs = c.nw)
      (hev : c.Completions (collect c.nw msgs).complete events) :
      HasCompleted c (.finish (c.vars msgs events.length)) msgs events
  | returned {msgs events} (hn : nullCount msgs = c.nw)
      (hev : c.Completions (collect c.nw msgs).complete events) :
      HasCompleted c (.returned (c.vars msgs events.length)) msgs
        (events ++ c.onReturn events.length)

theorem HasCompleted.start {c : GatherCode J} (hnw : 1 ≤ c.nw) :
    c.HasCompleted (.pop ⟨∅, 0, 0⟩) [] [] :=
  @pop J c [] [] hnw .nil

theorem vars_snoc_null (c : GatherCode J) (msgs : List Result) (n : ℕ) {r : Result}
    (hr : r.2 = NULL) :
    c.vars (msgs ++ [r]) n = { c.vars msgs n with nullNmb := (c.vars msgs n).nullNmb + 1 } := by
  rw [vars, vars, collect_snoc_null c.nw msgs hr, nullCount_snoc_null msgs hr]
  push_cast
  rfl

theorem vars_snoc_result (c : GatherCode J) (msgs : List Result) (n : ℕ) {r : Result}
    (hr : r.2 ≠ NULL) :
    c.vars (msgs ++ [r]) n =
      { c.vars msgs n with pool := (poolStep c.nw (c.vars msgs n).pool r.1).1 } := by
  rw [vars, vars, collect_snoc, collectStep, if_neg hr, nullCount_snoc_ne msgs hr]

theorem HasCompleted.receive {c : GatherCode J} {msgs : List Result} {events : List (Event J)}
    (hn : nullCount msgs < c.nw) (hev : c.Completions (collect c.nw msgs).complete events)
    (r : Result) :
    c.HasCompleted (c.receive (c.vars msgs events.length) r) (msgs ++ [r]) events := by
  rcases c.receive_cases (c.vars msgs events.length) r with
    ⟨hr, hlast, heq⟩ | ⟨hr, hlast, heq⟩ | ⟨hr, hfull, heq⟩ | ⟨hr, hfull, heq⟩
  · have hcount := nullCount_snoc_null msgs hr
    change (nullCount msgs : ℤ) + 1 = c.nw at hlast
    rw [heq, ← vars_snoc_null c msgs _ hr]
    exact .finish (by omega) (by rwa [collect_snoc_null c.nw msgs hr])
  · have hcount := nullCount_snoc_null msgs hr
    change (nullCount msgs : ℤ) + 1 ≠ c.nw at hlast
    rw [heq, ← vars_snoc_null c msgs _ hr]
    exact .pop (by omega) (by rwa [collect_snoc_null c.nw msgs hr])
  · have hcount := nullCount_snoc_ne msgs hr
    rw [heq, ← vars_snoc_result c msgs _ hr]
    exact .complete (by omega) (by rw [collect_snoc_full hr hfull]) hev
  · have hcount := nullCount_snoc_ne msgs hr
    rw [heq, ← vars_snoc_result c msgs _ hr]
    exact .pop (by omega) (by rwa [collect_snoc_part hr hfull])

/-- The events of a gather: some of the first complete images, and what it prints. -/
theorem HasCompleted.exists_completions {c : GatherCode J} {x : GatherState} {msgs : List Result}
    {events : List (Event J)} (h : c.HasCompleted x msgs events) : ∃ n completions printed,
      events = completions ++ printed ∧
      c.Completions ((collect c.nw msgs).complete.take n) completions ∧
      (printed = [] ∨ printed = c.onReturn completions.length) := by
  cases h with
  | pop hn hev | finish hn hev =>
    refine ⟨(collect c.nw msgs).complete.length, events, [], (List.append_nil _).symm, ?_,
      Or.inl rfl⟩
    rwa [List.take_length]
  | @complete before r _ hn hfull hev =>
    refine ⟨(collect c.nw before).complete.length, events, [], (List.append_nil _).symm, ?_,
      Or.inl rfl⟩
    rwa [hfull, List.take_left]
  | returned hn hev =>
    refine ⟨(collect c.nw msgs).complete.length, _, _, rfl, ?_, Or.inr rfl⟩
    rwa [List.take_length]

theorem HasCompleted.nullCount_returned {c : GatherCode J} {g : GatherVars} {msgs : List Result}
    {events : List (Event J)} (h : c.HasCompleted (.returned g) msgs events) :
    nullCount msgs = c.nw := by
  cases h with
  | returned hn hev => exact hn

theorem HasCompleted.finished {c : GatherCode J} {x : GatherState} {msgs : List Result}
    {events : List (Event J)} (h : c.HasCompleted x msgs events)
    (hx : (∃ g, x = .returned g) ∨ ∃ g, x = .pop g) (hnull : nullCount msgs = c.nw) :
    ∃ completions, x = .returned (c.vars msgs completions.length) ∧
      c.Completions (collect c.nw msgs).complete completions ∧
      events = completions ++ c.onReturn completions.length := by
  cases h with
  | pop hn hev => omega
  | complete | finish => rcases hx with ⟨g, hg⟩ | ⟨g, hg⟩ <;> cases hg
  | returned hn hev => exact ⟨_, rfl, hev, rfl⟩

section Step
variable {c : GatherCode J} {t : T} {mapID : κ} {x : GatherState} {events : List (Event J)}
  {ins : (q : Chan κ) → List (q.Msg J)}

theorem HasCompleted.pop_step [DecidableEq κ] {q : Chan κ} {next : q.Msg J → GatherState}
    {m : q.Msg J}
    (ha : .pop q next ∈ c.actions t mapID x)
    (h : c.HasCompleted x (ins (.gatherQueue mapID)) events) :
    c.HasCompleted (next m) (Function.update ins q (ins q ++ [m]) (.gatherQueue mapID)) events := by
  cases x with
  | pop g =>
    cases List.mem_singleton.mp ha
    rw [Function.update_self]
    generalize ins (.gatherQueue mapID) = msgs at h ⊢
    cases h with
    | pop hn hev => exact .receive hn hev m
  | complete | finish | returned => simp [actions] at ha

theorem push_none {q : Chan κ} {next : GatherState} {m : q.Msg J} :
    .push q m next ∉ c.actions t mapID x := by
  cases x <;> simp [actions]

theorem HasCompleted.work_step [DecidableEq T] {mem : Memory T J}
    {f : Memory T J → GatherState × Memory T J} (ha : .work f ∈ c.actions t mapID x)
    {msgs : List Result} (h : c.HasCompleted x msgs (mem.eventsOf t)) :
    c.HasCompleted (f mem).1 msgs ((f mem).2.eventsOf t) := by
  cases x with
  | complete r g =>
    cases List.mem_singleton.mp ha
    generalize hev : mem.eventsOf t = events at h
    cases h with
    | complete hn hfull hcomp =>
      have hnext := hcomp.snoc r mem.pixels
      rw [← hfull] at hnext
      have hplace := HasCompleted.pop hn hnext
      simp only [Memory.eventsOf_record_self, hev]
      simpa only [vars, List.length_append, List.length_singleton, Nat.cast_add,
        Nat.cast_one] using hplace
  | finish g =>
    cases List.mem_singleton.mp ha
    generalize hev : mem.eventsOf t = events at h
    cases h with
    | finish hn hcomp =>
      simp only [Memory.eventsOf_record_self, hev]
      exact .returned hn hcomp
  | pop | returned => simp [actions] at ha

theorem work_frame [DecidableEq T] {u : T} {mem : Memory T J}
    {f : Memory T J → GatherState × Memory T J} (ha : .work f ∈ c.actions t mapID x)
    (h : t ≠ u) : (f mem).2.eventsOf u = mem.eventsOf u := by
  cases x with
  | complete | finish =>
    cases List.mem_singleton.mp ha
    exact Memory.eventsOf_record_ne _ _ _ h
  | pop | returned => simp [actions] at ha

theorem work_events {mem : Memory T J} {f : Memory T J → GatherState × Memory T J}
    (ha : .work f ∈ c.actions t mapID x) :
    (∃ r g, x = .complete r g ∧
      (f mem).2.events = mem.events ++ [(t, c.onComplete r mem.pixels)]) ∨
    ∃ n, (f mem).2.events = mem.events ++ (c.onReturn n).map fun e => (t, e) := by
  cases x with
  | complete r g =>
    cases List.mem_singleton.mp ha
    exact Or.inl ⟨r, g, rfl, rfl⟩
  | finish g =>
    cases List.mem_singleton.mp ha
    exact Or.inr ⟨g.imgNumber, rfl⟩
  | pop | returned => simp [actions] at ha

theorem pop_queue {q : Chan κ} {next : q.Msg J → GatherState}
    (ha : .pop q next ∈ c.actions t mapID x) : q = .gatherQueue mapID := by
  cases x with
  | pop g =>
    cases List.mem_singleton.mp ha
    rfl
  | complete | finish | returned => simp [actions] at ha

theorem waits {empty : Chan κ → Prop}
    (h : ∀ a ∈ c.actions t mapID x, ∃ q next, a = .pop q next ∧ empty q) :
    (∃ g, x = .returned g) ∨ ∃ g, x = .pop g ∧ empty (.gatherQueue mapID) := by
  cases x with
  | pop g =>
    obtain ⟨q, next, he, hq⟩ := h _ (List.mem_singleton_self _)
    cases he
    exact Or.inr ⟨g, rfl, hq⟩
  | complete | finish =>
    obtain ⟨q, next, he, hq⟩ := h _ (List.mem_singleton_self _)
    cases he
  | returned g => exact Or.inl ⟨g, rfl⟩

/-! ## A gather comes to an end -/

def rank : GatherState → ℕ
  | .pop _ => 0
  | .complete _ _ => 1
  | .finish _ => 1
  | .returned _ => 0

theorem rank_pop (taskWeight : J → ℕ) {q : Chan κ} {next : q.Msg J → GatherState} {m : q.Msg J}
    (ha : .pop q next ∈ c.actions t mapID x) :
    rank (next m) < rank x + WorkerCode.weight taskWeight q m := by
  cases x with
  | pop g =>
    cases List.mem_singleton.mp ha
    simp only [GatherCode.receive, WorkerCode.weight]
    split_ifs <;> simp [rank]
  | complete | finish | returned => simp [actions] at ha

theorem rank_work {mem : Memory T J} {f : Memory T J → GatherState × Memory T J}
    (ha : .work f ∈ c.actions t mapID x) : rank (f mem).1 < rank x := by
  cases x with
  | complete | finish =>
    cases List.mem_singleton.mp ha
    simp [rank]
  | pop | returned => simp [actions] at ha

end Step

end GatherCode

end WaterMark.Maps
