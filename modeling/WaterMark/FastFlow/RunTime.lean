import WaterMark.FastFlow.Network
import WaterMark.Library.EndOfStream

/-! # The loops of FastFlow

FastFlow runs the nodes of a farm in loops of its own. The load balancer sends each
task to the next worker whose channel has room, and then the mark of the end of the
stream to all workers; a worker passes the mark on; and the gatherer takes results
from the workers in turn, until it has the marks of all of them.
-/

namespace WaterMark.FastFlow
open ChannelNetwork Pixels Maps Gather

variable {J : Type} {nw : ℕ}

/-- A message, or the mark `EOS` of the end of the stream. -/
abbrev Marked (J : Type) (nw : ℕ) (q : Chan (Fin nw)) : Type := Option (q.Msg J)

/-- Where `ff_loadbalancer` stands: at `schedule_task`, or at `broadcast_task` of `EOS`. -/
inductive LoadBalancer (nw : ℕ) where
  | scheduleTask (n : ℕ) (nextw : ℤ)
  | broadcastTask (i : ℕ) (retry : List (Fin nw))

/-- The round robin of `ff_loadbalancer::selectworker`. -/
def selectworker (nw : ℕ) (nextw : ℤ) : ℕ := ((nextw + 1) % nw).toNat

section Selectworker
variable (nw)

theorem selectworker_lt (hnw : 0 < nw) (nextw : ℤ) : selectworker nw nextw < nw := by
  have hlt := Int.emod_lt_of_pos (nextw + 1) (Int.natCast_pos.mpr hnw)
  rw [selectworker]
  omega

@[simp] theorem selectworker_natCast (k : ℕ) : selectworker nw k = (k + 1) % nw := by
  rw [selectworker]
  norm_cast

end Selectworker

namespace LoadBalancer
variable {μ : Type}

/-- The next `put`: of a task of the emitter, or of `EOS`, first to all workers and
then to those whose channel was full. -/
def actions (sends : List J) :
    LoadBalancer nw → List (Action (Marked J nw) (LoadBalancer nw) μ)
  | .scheduleTask n nextw =>
    match sends[n]? with
    | some task =>
      let nextw := selectworker nw nextw
      [.push (.workerQueue nextw) (some task) (.scheduleTask (n + 1) nextw)]
    | none => [.work fun mem => (.broadcastTask 0 [], mem)]
  | .broadcastTask i retry =>
    if i < nw then [.push (.workerQueue i) none (.broadcastTask (i + 1) retry)]
    else
      match retry with
      | back :: rest => [.push (.workerQueue back) none (.broadcastTask i rest)]
      | [] => []

inductive Puts (sends : List J) :
    LoadBalancer nw → (q : Chan (Fin nw)) → Marked J nw q → LoadBalancer nw → Prop
  | schedule (n : ℕ) (nextw : ℤ) (task : J) (htask : sends[n]? = some task) :
      Puts sends (.scheduleTask n nextw) (.workerQueue (selectworker nw nextw)) (some task)
        (.scheduleTask (n + 1) (selectworker nw nextw))
  | broadcast (i : ℕ) (retry : List (Fin nw)) (hi : i < nw) :
      Puts sends (.broadcastTask i retry) (.workerQueue i) none (.broadcastTask (i + 1) retry)
  | again (i : ℕ) (back : Fin nw) (rest : List (Fin nw)) (hi : nw ≤ i) :
      Puts sends (.broadcastTask i (back :: rest)) (.workerQueue back) none
        (.broadcastTask i rest)

section Actions
variable {sends : List J} {x : LoadBalancer nw}

theorem puts {q : Chan (Fin nw)} {m : Marked J nw q} {next : LoadBalancer nw}
    (ha : .push q m next ∈ actions (μ := μ) sends x) : Puts sends x q m next := by
  cases x with
  | scheduleTask n nextw =>
    simp only [actions] at ha
    split at ha
    · rename_i task htask
      cases List.mem_singleton.mp ha
      exact .schedule n nextw task htask
    · cases List.mem_singleton.mp ha
  | broadcastTask i retry =>
    simp only [actions] at ha
    split_ifs at ha with hi
    · cases List.mem_singleton.mp ha
      exact .broadcast i retry hi
    · cases retry with
      | nil => cases ha
      | cons back rest =>
        cases List.mem_singleton.mp ha
        exact .again i back rest (not_lt.mp hi)

theorem pop_none {q : Chan (Fin nw)} {next : Marked J nw q → LoadBalancer nw} :
    .pop q next ∉ actions (μ := μ) sends x := by
  intro ha
  cases x with
  | scheduleTask n nextw =>
    simp only [actions] at ha
    split at ha <;> cases List.mem_singleton.mp ha
  | broadcastTask i retry =>
    simp only [actions] at ha
    split_ifs at ha
    · cases List.mem_singleton.mp ha
    · cases retry with
      | nil => cases ha
      | cons => cases List.mem_singleton.mp ha

theorem work {f : μ → LoadBalancer nw × μ}
    (ha : .work f ∈ (actions sends x : List (Action (Marked J nw) (LoadBalancer nw) μ))) :
    ∃ n nextw, x = .scheduleTask n nextw ∧ sends.length ≤ n ∧
      f = fun mem => (.broadcastTask 0 [], mem) := by
  cases x with
  | scheduleTask n nextw =>
    simp only [actions] at ha
    split at ha
    · cases List.mem_singleton.mp ha
    · rename_i hnone
      cases List.mem_singleton.mp ha
      exact ⟨n, nextw, rfl, List.getElem?_eq_none_iff.mp hnone, rfl⟩
  | broadcastTask i retry =>
    simp only [actions] at ha
    split_ifs at ha
    · cases List.mem_singleton.mp ha
    · cases retry with
      | nil => cases ha
      | cons => cases List.mem_singleton.mp ha

theorem Puts.exists_worker (hnw : 0 < nw) {q : Chan (Fin nw)} {m : Marked J nw q}
    {next : LoadBalancer nw} (h : Puts sends x q m next) : ∃ i : Fin nw, q = .workerQueue i := by
  cases h with
  | schedule n nextw task htask => exact ⟨⟨_, selectworker_lt nw hnw nextw⟩, rfl⟩
  | broadcast i retry hi => exact ⟨⟨i, hi⟩, rfl⟩
  | again i back rest hi => exact ⟨back, rfl⟩

theorem waits {empty : Chan (Fin nw) → Prop}
    (h : ∀ a ∈ (actions sends x : List (Action (Marked J nw) (LoadBalancer nw) μ)),
      ∃ q next, a = .pop q next ∧ empty q) : ∃ i, x = .broadcastTask i [] ∧ nw ≤ i := by
  have hnone : ∀ a, a ∉ (actions sends x : List (Action (Marked J nw) (LoadBalancer nw) μ)) := by
    intro a ha
    obtain ⟨q, next, rfl, -⟩ := h a ha
    exact pop_none ha
  have hnil := List.eq_nil_iff_forall_not_mem.mpr hnone
  cases x with
  | scheduleTask n nextw =>
    simp only [actions] at hnil
    split at hnil <;> cases hnil
  | broadcastTask i retry =>
    simp only [actions] at hnil
    split_ifs at hnil with hi
    cases retry with
    | nil => exact ⟨i, rfl, not_lt.mp hi⟩
    | cons => cases hnil

end Actions

/-- After a `put` in vain: another worker, or `retry.push_back`. -/
def failed : LoadBalancer nw → LoadBalancer nw
  | .scheduleTask n nextw => .scheduleTask n (selectworker nw nextw)
  | .broadcastTask i retry =>
    if hi : i < nw then .broadcastTask (i + 1) (⟨i, hi⟩ :: retry) else .broadcastTask i retry

section Failed
variable {sends : List J} {x : LoadBalancer nw}

theorem actions_eq_nil
    (h : (actions sends x : List (Action (Marked J nw) (LoadBalancer nw) μ)) = []) :
    ∃ i, x = .broadcastTask i [] ∧ nw ≤ i := by
  have hwaits : ∀ a ∈ (actions sends x : List (Action (Marked J nw) (LoadBalancer nw) μ)),
      ∃ q next, a = .pop q next ∧ False := by
    intro a ha
    rw [h] at ha
    cases ha
  exact waits hwaits

/-- After a `put` in vain something is left to do. -/
theorem actions_failed_ne_nil
    (h : (actions sends x : List (Action (Marked J nw) (LoadBalancer nw) μ)) ≠ []) :
    (actions sends x.failed : List (Action (Marked J nw) (LoadBalancer nw) μ)) ≠ [] := by
  intro hnil
  obtain ⟨i, hx, hi⟩ := actions_eq_nil hnil
  cases x with
  | scheduleTask n nextw => cases hx
  | broadcastTask k retry =>
    by_cases hk : k < nw
    · rw [failed, dif_pos hk] at hx
      cases hx
    · rw [failed, dif_neg hk] at hx hnil
      exact h hnil

end Failed

end LoadBalancer

/-- Where `thWorker` stands: in a call of `svc` or at its `pop`, with `EOS` to push, or
out of its loop. -/
inductive ThWorker (J : Type) where
  | svc (x : WorkerState J)
  | eos (x : WorkerState J)
  | returned (x : WorkerState J)

namespace ThWorker

/-- The worker's own actions, until it pops `EOS`, which it pushes on. -/
def actions {T : Type} (c : WorkerCode J) (info : J → ChunkInfo) (t : T) (i : Fin nw) :
    ThWorker J → List (Action (Marked J nw) (ThWorker J) (Memory T J))
  | .svc x => (c.actions info t i i x).map (Action.marked .svc (.eos x))
  | .eos x => [.push (.gatherQueue i) none (.returned x)]
  | .returned _ => []

def filter : ThWorker J → WorkerState J
  | .svc x => x
  | .eos x => x
  | .returned x => x

section Actions
variable {T : Type} {c : WorkerCode J} {info : J → ChunkInfo} {t : T} {i : Fin nw} {x : ThWorker J}

theorem pop {q : Chan (Fin nw)} {next : Marked J nw q → ThWorker J}
    (ha : .pop q next ∈ x.actions c info t i) : ∃ imageCounter, x = .svc (.pop imageCounter) ∧
      (⟨q, next⟩ : (q : Chan (Fin nw)) × (Marked J nw q → ThWorker J)) =
        ⟨.workerQueue i, fun m => m.elim (.eos (.pop imageCounter))
          fun task => .svc (c.receive imageCounter task)⟩ := by
  cases x with
  | svc x =>
    obtain ⟨next', hmem, rfl⟩ := pop_marked ha
    cases x with
    | pop imageCounter =>
      cases List.mem_singleton.mp hmem
      exact ⟨imageCounter, rfl, rfl⟩
    | stamp | propagate | propagateEos | finish | returned => simp [WorkerCode.actions] at hmem
  | eos => cases List.mem_singleton.mp ha
  | returned => cases ha

theorem push {q : Chan (Fin nw)} {m : Marked J nw q} {next : ThWorker J}
    (ha : .push q m next ∈ x.actions c info t i) :
    (∃ y m' next', x = .svc y ∧ m = some m' ∧ next = .svc next' ∧
      .push q m' next' ∈ (c.actions info t i i y : List (Action (@Chan.Msg (Fin nw) J) _ _))) ∨
    ∃ y, x = .eos y ∧ next = .returned y ∧
      (⟨q, m⟩ : (q : Chan (Fin nw)) × Marked J nw q) = ⟨.gatherQueue i, none⟩ := by
  cases x with
  | svc y =>
    obtain ⟨m', next', hmem, rfl, rfl⟩ := push_marked ha
    exact .inl ⟨y, m', next', rfl, rfl, rfl, hmem⟩
  | eos y =>
    cases List.mem_singleton.mp ha
    exact .inr ⟨y, rfl, rfl, rfl⟩
  | returned => cases ha

theorem work {f : Memory T J → ThWorker J × Memory T J}
    (ha : .work f ∈ (x.actions c info t i : List (Action (Marked J nw) _ _))) :
    ∃ y f', x = .svc y ∧ f = (fun mem => (.svc (f' mem).1, (f' mem).2)) ∧
      .work f' ∈ (c.actions info t i i y : List (Action (@Chan.Msg (Fin nw) J) _ _)) := by
  cases x with
  | svc y =>
    obtain ⟨f', hmem, rfl⟩ := work_marked ha
    exact ⟨y, f', rfl, rfl, hmem⟩
  | eos => cases List.mem_singleton.mp ha
  | returned => cases ha

theorem waits {empty : Chan (Fin nw) → Prop}
    (h : ∀ a ∈ (x.actions c info t i : List (Action (Marked J nw) _ _)),
      ∃ q next, a = .pop q next ∧ empty q) :
    (∃ y, x = .returned y) ∨ x = .svc .returned ∨
      ∃ imageCounter, x = .svc (.pop imageCounter) ∧ empty (.workerQueue i) := by
  cases x with
  | svc y =>
    rcases WorkerCode.waits (waits_marked h) with rfl | ⟨imageCounter, rfl, hq⟩
    · exact .inr (.inl rfl)
    · exact .inr (.inr ⟨imageCounter, rfl, hq⟩)
  | eos y =>
    obtain ⟨q, next, he, -⟩ := h _ (List.mem_singleton_self _)
    cases he
  | returned y => exact .inl ⟨y, rfl⟩

end Actions

end ThWorker

/-- The variables of `ff_gatherer`, and where the collector's own code stands. -/
structure Gatherer where
  nextr : ℕ
  offline : ℕ → Bool
  neos : ℕ
  filter : CollectorState

namespace Gatherer

/-- `ff_gatherer::selectworker`: the next worker whose `EOS` has not come, found in so
many rounds. -/
def selectworker (nw : ℕ) (offline : ℕ → Bool) : (rounds : ℕ) → (nextr : ℕ) → ℕ
  | 0, nextr => nextr
  | rounds + 1, nextr =>
    let nextr := (nextr + 1) % nw
    if offline nextr then selectworker nw offline rounds nextr else nextr

def next (nw : ℕ) (g : Gatherer) : ℕ := selectworker nw g.offline nw g.nextr

def receive (g : Gatherer) (nextr : ℕ) (pool : ℤ → ℕ) : Option Result → Gatherer
  | some workerResult => { g with nextr := nextr, filter := .svc workerResult pool }
  | none => { g with
      nextr := nextr, offline := Function.update g.offline nextr true, neos := g.neos + 1 }

def actions {T : Type} (c : GatherMap) (nw : ℕ) (t : T) (g : Gatherer) :
    List (Action (Marked J nw) Gatherer (Memory T J)) :=
  match g.filter with
  | .pop pool =>
    if g.neos < nw then
      if h : g.next nw < nw then [.pop (.gatherQueue ⟨g.next nw, h⟩) (g.receive (g.next nw) pool)]
      else []
    else []
  | .svc workerResult pool => (c.actions nw t (.svc workerResult pool)).map
      (Action.marked (fun x => { g with filter := x }) g)

section Select
variable {offline : ℕ → Bool}

theorem selectworker_lt (hnw : 0 < nw) (rounds nextr : ℕ) :
    selectworker nw offline (rounds + 1) nextr < nw := by
  induction rounds generalizing nextr with
  | zero =>
    simp only [selectworker, ite_self]
    exact Nat.mod_lt _ hnw
  | succ rounds ih =>
    rw [selectworker]
    split_ifs
    · exact ih _
    · exact Nat.mod_lt _ hnw

/-- The selection finds a worker whose number comes up in its rounds. -/
theorem selectworker_online {rounds nextr k : ℕ} (hk : 0 < k) (hrounds : k ≤ rounds)
    (honline : offline ((nextr + k) % nw) = false) :
    offline (selectworker nw offline rounds nextr) = false := by
  induction rounds generalizing nextr k with
  | zero => omega
  | succ rounds ih =>
    rw [selectworker]
    split_ifs with hoff
    · have hone : k ≠ 1 := by
        rintro rfl
        rw [honline] at hoff
        cases hoff
      refine ih (k := k - 1) (by omega) (by omega) ?_
      rwa [Nat.mod_add_mod, show nextr + 1 + (k - 1) = nextr + k by omega]
    · exact Bool.not_eq_true _ ▸ hoff

/-- In so many rounds as there are workers every number comes up. -/
theorem exists_round {i : ℕ} (hi : i < nw) (nextr : ℕ) :
    ∃ k, 0 < k ∧ k ≤ nw ∧ (nextr + k) % nw = i := by
  have hr := Nat.mod_lt nextr (Nat.zero_lt_of_lt hi)
  by_cases hlt : nextr % nw < i
  · refine ⟨i - nextr % nw, by omega, by omega, ?_⟩
    rw [← Nat.mod_add_mod, Nat.add_sub_cancel' hlt.le, Nat.mod_eq_of_lt hi]
  · refine ⟨nw - nextr % nw + i, by omega, by omega, ?_⟩
    rw [← Nat.mod_add_mod, show nextr % nw + (nw - nextr % nw + i) = i + nw by omega,
      Nat.add_mod_right, Nat.mod_eq_of_lt hi]

end Select

section Actions
variable {T : Type} {c : GatherMap} {t : T} {g : Gatherer}

theorem next_lt (hnw : 0 < nw) : g.next nw < nw := by
  obtain ⟨rounds, rfl⟩ := Nat.exists_eq_add_one_of_ne_zero hnw.ne'
  exact selectworker_lt hnw rounds g.nextr

theorem next_online {i : ℕ} (hi : i < nw) (honline : g.offline i = false) :
    g.offline (g.next nw) = false := by
  obtain ⟨k, hk, hle, rfl⟩ := exists_round hi g.nextr
  exact selectworker_online hk hle honline

theorem push_none {q : Chan (Fin nw)} {m : Marked J nw q} {next : Gatherer} :
    .push q m next ∉ g.actions c nw t := by
  intro ha
  rw [actions] at ha
  split at ha
  · split_ifs at ha
    · cases List.mem_singleton.mp ha
    · cases ha
    · cases ha
  · obtain ⟨m', next', ha, -, -⟩ := push_marked ha
    exact GatherMap.push_none ha

theorem get {q : Chan (Fin nw)} {next : Marked J nw q → Gatherer}
    (ha : .pop q next ∈ g.actions c nw t) :
    ∃ (i : Fin nw) (pool : ℤ → ℕ), i = g.next nw ∧ g.filter = .pop pool ∧ g.neos < nw ∧
      (⟨q, next⟩ : (q : Chan (Fin nw)) × (Marked J nw q → Gatherer)) =
        ⟨.gatherQueue i, g.receive i pool⟩ := by
  rw [actions] at ha
  split at ha
  · rename_i pool hpool
    split_ifs at ha with hneos hlt
    · cases List.mem_singleton.mp ha
      exact ⟨⟨_, hlt⟩, pool, rfl, hpool, hneos, rfl⟩
    · cases ha
    · cases ha
  · obtain ⟨next', ha, -⟩ := pop_marked ha
    simp [GatherMap.actions] at ha

theorem work {f : Memory T J → Gatherer × Memory T J}
    (ha : .work f ∈ (g.actions c nw t : List (Action (Marked J nw) Gatherer (Memory T J)))) :
    ∃ f', .work f' ∈ (c.actions nw t g.filter : List (Action (@Chan.Msg (Fin nw) J) _ _)) ∧
      f = fun mem => ({ g with filter := (f' mem).1 }, (f' mem).2) := by
  rw [actions] at ha
  split at ha
  · split_ifs at ha
    · cases List.mem_singleton.mp ha
    · cases ha
    · cases ha
  · rename_i workerResult pool hsvc
    rw [hsvc]
    exact work_marked ha

theorem waits {empty : Chan (Fin nw) → Prop}
    (h : ∀ a ∈ (g.actions c nw t : List (Action (Marked J nw) Gatherer (Memory T J))),
      ∃ q next, a = .pop q next ∧ empty q) : ∃ pool, g.filter = .pop pool ∧
      (nw ≤ g.neos ∨ g.neos < nw ∧ ∃ i : Fin nw, i = g.next nw ∧ empty (.gatherQueue i)) := by
  rw [actions] at h
  split at h
  · rename_i pool hpool
    refine ⟨pool, hpool, ?_⟩
    by_cases hneos : g.neos < nw
    · have hlt : g.next nw < nw := next_lt (Nat.zero_lt_of_lt hneos)
      rw [if_pos hneos, dif_pos hlt] at h
      obtain ⟨q, next, he, hq⟩ := h _ (List.mem_singleton_self _)
      cases he
      exact .inr ⟨hneos, ⟨g.next nw, hlt⟩, rfl, hq⟩
    · exact .inl (not_lt.mp hneos)
  · obtain ⟨pool, he, -⟩ := GatherMap.waits (waits_marked h)
    cases he

theorem actions_ne_nil {g' : Gatherer}
    (h : (g.actions c nw t : List (Action (Marked J nw) Gatherer (Memory T J))) ≠ [])
    (hneos : g'.neos = g.neos) (hfilter : g'.filter = g.filter) :
    (g'.actions c nw t : List (Action (Marked J nw) Gatherer (Memory T J))) ≠ [] := by
  intro hnil
  have hwaits : ∀ a ∈ (g'.actions c nw t : List (Action (Marked J nw) Gatherer (Memory T J))),
      ∃ q next, a = .pop q next ∧ False := by
    intro a ha
    rw [hnil] at ha
    cases ha
  obtain ⟨pool, hpool, hle | ⟨-, i, -, hempty⟩⟩ := waits hwaits
  · refine h ?_
    rw [actions, ← hfilter, hpool]
    exact if_neg (not_lt.mpr (hneos ▸ hle))
  · exact hempty

end Actions

/-- After a `get` in vain: another worker. -/
def failed (nw : ℕ) (g : Gatherer) : Gatherer := { g with nextr := g.next nw }

end Gatherer

@[reducible] def NodeLoc (J : Type) : Thread nw → Type
  | .emitter => LoadBalancer nw
  | .worker _ => ThWorker J
  | .collector => Gatherer

namespace Code

def nodes (P : Code J nw) :
    Program (Thread nw) (Marked J nw) (NodeLoc J) (Memory (Thread nw) J) where
  start
    | .emitter => LoadBalancer.scheduleTask 0 (-1)
    | .worker _ => ThWorker.svc (.pop 0)
    | .collector => Gatherer.mk 0 (fun _ => false) 0 (.pop fun _ => 0)
  actions
    | .emitter => LoadBalancer.actions P.sends
    | .worker i => ThWorker.actions P.worker (fun task => P.info task i) (.worker i) i
    | .collector => Gatherer.actions P.gather nw .collector

/-- Where a node goes on after a `put` or `get` in vain. -/
def failed : (t : Thread nw) → NodeLoc J t → NodeLoc J t
  | .emitter => LoadBalancer.failed
  | .worker _ => id
  | .collector => Gatherer.failed nw

variable {P : Code J nw} {fixedsize : Chan (Fin nw) → Bool}

/-! ## The farm without the marks -/

/-- The round robin keeps to what the scheduling allows. -/
structure Schedules (P : Code J nw) (fixedsize : Chan (Fin nw) → Bool) : Prop where
  start : selectworker nw (-1) ∈ P.targets 0
  sent : ∀ n nextw, selectworker nw nextw ∈ P.targets n →
    selectworker nw (selectworker nw nextw) ∈ P.targets (n + 1)
  retried : ∀ n nextw, fixedsize (.workerQueue (selectworker nw nextw)) = true →
    selectworker nw nextw ∈ P.targets n → selectworker nw (selectworker nw nextw) ∈ P.targets n

def place (P : Code J nw) : (t : Thread nw) → NodeLoc J t → Loc J t
  | .emitter => fun
    | .scheduleTask n _ => n
    | .broadcastTask _ _ => P.sends.length
  | .worker _ => ThWorker.filter
  | .collector => Gatherer.filter

/-- What is known of the load balancer's next task. -/
def Good (P : Code J nw) : (t : Thread nw) → NodeLoc J t → Prop
  | .emitter => fun
    | .scheduleTask n nextw => n ≤ P.sends.length ∧ selectworker nw nextw ∈ P.targets n
    | .broadcastTask _ _ => True
  | .worker _ => fun _ => True
  | .collector => fun _ => True

theorem unmarks (hS : P.Schedules fixedsize) : Unmarks P.program P.nodes P.place P.Good where
  start t := by cases t <;> rfl
  good_start t := by
    cases t with
    | emitter => exact ⟨Nat.zero_le _, hS.start⟩
    | worker | collector => trivial
  good_pop t x q next m _ ha := by
    cases t with
    | emitter => exact absurd ha LoadBalancer.pop_none
    | worker | collector => trivial
  good_push t x q m next h ha := by
    cases t with
    | emitter =>
      cases LoadBalancer.puts ha with
      | schedule n nextw task htask =>
        exact ⟨(List.getElem?_eq_some_iff.mp htask).1, hS.sent n nextw h.2⟩
      | broadcast | again => trivial
    | worker | collector => trivial
  good_work t x f mem _ ha := by
    cases t with
    | emitter =>
      obtain ⟨n, nextw, -, -, rfl⟩ := LoadBalancer.work ha
      trivial
    | worker | collector => trivial
  pop t x q next _ ha := by
    cases t with
    | emitter => exact absurd ha LoadBalancer.pop_none
    | worker i =>
      obtain ⟨imageCounter, rfl, he⟩ := ThWorker.pop ha
      cases he
      exact ⟨List.mem_singleton_self _, rfl⟩
    | collector =>
      obtain ⟨i, pool, -, hpool, -, he⟩ := Gatherer.get ha
      cases he
      refine ⟨?_, rfl⟩
      change _ ∈ P.gather.actions nw _ x.filter
      rw [hpool]
      exact List.mem_map_of_mem (List.mem_finRange i)
  push t x q m next h ha := by
    cases t with
    | emitter =>
      generalize he : some m = m' at ha
      cases LoadBalancer.puts ha with
      | schedule n nextw task htask =>
        cases he
        refine List.mem_map.mpr ⟨(selectworker nw nextw, task), ?_, rfl⟩
        change _ ∈ choices P.sends P.targets n
        rw [choices, htask]
        exact List.mem_map_of_mem h.2
      | broadcast | again => cases he
    | worker i =>
      obtain ⟨y, m', next', rfl, he, rfl, hmem⟩ | ⟨y, -, -, he⟩ := ThWorker.push ha
      · cases he
        exact hmem
      · cases he
    | collector => exact absurd ha Gatherer.push_none
  push_none t x q next _ ha := by
    cases t with
    | emitter =>
      generalize he : (none : Marked J nw q) = m at ha
      cases LoadBalancer.puts ha with
      | schedule => cases he
      | broadcast | again => rfl
    | worker i =>
      obtain ⟨y, m', next', -, he, -⟩ | ⟨y, rfl, rfl, -⟩ := ThWorker.push ha
      · cases he
      · rfl
    | collector => exact absurd ha Gatherer.push_none
  work t x f h ha := by
    cases t with
    | emitter =>
      obtain ⟨n, nextw, rfl, hn, rfl⟩ := LoadBalancer.work ha
      exact .inr fun mem => ⟨le_antisymm hn h.1, rfl⟩
    | worker i =>
      obtain ⟨y, f', rfl, rfl, hmem⟩ := ThWorker.work ha
      exact .inl hmem
    | collector =>
      obtain ⟨f', hmem, rfl⟩ := Gatherer.work ha
      exact .inl hmem

/-- A run of the loops, with calls that fail, is a run of the nodes without the marks. -/
theorem unmarks_attempts (hS : P.Schedules fixedsize) :
    Unmarks P.program (P.nodes.attempts fixedsize failed) P.place P.Good := by
  refine (unmarks hS).attempts fun t x h ⟨a, ha, hfails⟩ => ?_
  cases t with
  | emitter =>
    obtain ⟨q, m, next, hput, hfixed⟩ : ∃ q m next, LoadBalancer.Puts P.sends x q m next ∧
        fixedsize q = true := by
      cases a with
      | pop q next => exact absurd ha LoadBalancer.pop_none
      | push q m next => exact ⟨q, m, next, LoadBalancer.puts ha, hfails⟩
      | work f => cases hfails
    cases x with
    | scheduleTask n nextw =>
      cases hput
      exact ⟨⟨h.1, hS.retried n nextw hfixed h.2⟩, rfl⟩
    | broadcastTask i retry =>
      simp only [failed, LoadBalancer.failed]
      split_ifs <;> exact ⟨trivial, rfl⟩
  | worker i => exact ⟨trivial, rfl⟩
  | collector => exact ⟨trivial, rfl⟩

end Code

end WaterMark.FastFlow
