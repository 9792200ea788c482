import WaterMark.FastFlow.EndOfStream
import WaterMark.FastFlow.FairChannels
import WaterMark.Pictures.FastFlow
import WaterMark.Pictures.FastFlowFarm

/-! # The FastFlow programs on their channels

The nodes run in the loops of FastFlow on unbounded buffers, whose accesses to memory
come in any order. Every channel has one node that sends and one that receives: the
load balancer and a worker, or a worker and the gatherer. As long as a node has
something left to do one node does not have to wait, so that fair runs end.
-/

namespace WaterMark.FastFlow
open ChannelNetwork TaggedLog FairRuns Pixels Maps Gather Channels

variable {J : Type} {nw : ℕ}

abbrev ChannelState (J : Type) (nw : ℕ) :=
  SystemState (Thread nw) (Marked J nw) (NodeLoc J) (Memory (Thread nw) J)

namespace Code

def ChannelStep (P : Code J nw) (size : Chan (Fin nw) → ℕ) (fixedsize : Chan (Fin nw) → Bool) :
    ChannelState J nw → ChannelState J nw → Prop :=
  SystemStep P.nodes size fixedsize failed

def ChannelReachable (P : Code J nw) (size : Chan (Fin nw) → ℕ) (fixedsize : Chan (Fin nw) → Bool)
    (pixels : Ptr → Buffer) : ChannelState J nw → Prop :=
  SystemReachable P.nodes size fixedsize failed ⟨pixels, []⟩

/-- The runs in which no node that goes on having an access is left out for ever. -/
def FairChannelRun (P : Code J nw) (size : Chan (Fin nw) → ℕ) (fixedsize : Chan (Fin nw) → Bool) :
    (ℕ → ChannelState J nw) → Prop :=
  FairRun (NodeStep P.nodes size fixedsize failed)

variable {P : Code J nw} {size : Chan (Fin nw) → ℕ} {fixedsize : Chan (Fin nw) → Bool}
  {pixels : Ptr → Buffer} {s : ChannelState J nw}

theorem ChannelReachable.farm (hS : P.Schedules fixedsize) (hsize : ∀ q, 0 < size q)
    (h : P.ChannelReachable size fixedsize pixels s) :
    P.program.Reachable ⟨pixels, []⟩ (s.atomic.unmark P.place) :=
  (unmarks_attempts hS).reachable (SystemReachable.atomic P.oneToOne hsize h)

theorem ChannelReachable.terminal (hD : P.Delivers) (hS : P.Schedules fixedsize)
    (hsize : ∀ q, 0 < size q) (h : P.ChannelReachable size fixedsize pixels s)
    (hend : s.Ended P.nodes) : P.program.Terminal (s.atomic.unmark P.place) :=
  unmark_terminal (SystemReachable.atomic P.oneToOne hsize h) hD hS hend.terminal

/-! ## Nodes that are busy -/

/-- `set_scheduling_ondemand`: the channels of the workers have a fixed size. -/
def onDemand : Chan (Fin nw) → Bool
  | .workerQueue _ => true
  | .gatherQueue _ => false

section Busy
variable {queue : (q : Chan (Fin nw)) → List (Marked J nw q)}

theorem worker_busy (hgather : ∀ i, fixedsize (.gatherQueue i) = false) {i : Fin nw}
    {x : ThWorker J} (hreturned : ∀ y, x ≠ .returned y) (hsvc : x ≠ .svc .returned)
    (hpop : ∀ imageCounter, x = .svc (.pop imageCounter) → queue (.workerQueue i) ≠ []) :
    Busy P.nodes fixedsize failed queue (.worker i) x := by
  have hpush (i : Fin nw) (hfixed : fixedsize (.gatherQueue i) = true) :
      queue (.gatherQueue i) = [] := by simp [hgather i] at hfixed
  cases x with
  | svc y =>
    cases y with
    | pop imageCounter => exact .of_action rfl rfl (hpop imageCounter rfl)
    | stamp task loop imageCounter => exact .of_action rfl rfl trivial
    | propagate task imageCounter => exact .of_action rfl rfl (hpush i)
    | propagateEos task => exact .of_action rfl rfl (hpush i)
    | finish => exact .of_action rfl rfl trivial
    | returned => exact absurd rfl hsvc
  | eos y => exact .of_action rfl rfl (hpush i)
  | returned y => exact absurd rfl (hreturned y)

/-- Before empty channels the load balancer never waits. -/
theorem emitter_busy (hnw : 0 < nw) {x : LoadBalancer nw}
    (hempty : ∀ i : Fin nw, queue (.workerQueue i) = [])
    (hne : P.nodes.actions .emitter x ≠ []) : Busy P.nodes fixedsize failed queue .emitter x := by
  refine ⟨{y | P.nodes.actions .emitter y ≠ []}, hne, fun y hy => ⟨?_, hy, fun a ha => ?_⟩⟩
  · exact LoadBalancer.actions_failed_ne_nil hy
  · cases a with
    | pop q next => exact absurd ha LoadBalancer.pop_none
    | push q m next =>
      obtain ⟨i, rfl⟩ := (LoadBalancer.puts ha).exists_worker hnw
      exact fun _ => hempty i
    | work f => trivial

/-- The gatherer does not wait for a worker whose messages wait for it. -/
theorem collector_busy {ins : (q : Chan (Fin nw)) → List (Marked J nw q)} {g : Gatherer}
    (hoffline : g.CountsEos fun i => ins (.gatherQueue i))
    (hqueue : ∀ i : Fin nw, g.offline i = false → queue (.gatherQueue i) ≠ [])
    (hne : P.nodes.actions .collector g ≠ []) :
    Busy P.nodes fixedsize failed queue .collector g := by
  refine ⟨Set.range fun nextr => { g with nextr := nextr }, ⟨g.nextr, rfl⟩, ?_⟩
  rintro _ ⟨nextr, rfl⟩
  refine ⟨⟨_, rfl⟩, Gatherer.actions_ne_nil hne rfl rfl, fun a ha => ?_⟩
  cases a with
  | pop q next =>
    obtain ⟨i, pool, hi, -, hneos, he⟩ := Gatherer.get ha
    cases he
    refine hqueue i ?_
    rw [hi]
    have hcounts : Gatherer.CountsEos { g with nextr := nextr } _ :=
      ⟨hoffline.offline, hoffline.neos⟩
    exact hcounts.next_online hneos
  | push q m next => exact absurd ha Gatherer.push_none
  | work f => trivial

end Busy

/-- As long as a node has an action left, one is busy. -/
theorem exists_busy (hnw : 0 < nw) (hD : P.Delivers) (hS : P.Schedules fixedsize)
    (hgather : ∀ i, fixedsize (.gatherQueue i) = false) {s : NodesState J nw}
    (h : (P.nodes.attempts fixedsize failed).Reachable ⟨pixels, []⟩ s)
    (hleft : ∃ t, P.nodes.actions t (s.loc t) ≠ []) :
    ∃ t, Busy P.nodes fixedsize failed s.queue t (s.loc t) := by
  by_contra hbusy
  have hworker (i : Fin nw) : (∃ y, s.loc (.worker i) = ThWorker.returned y) ∨
      ∃ imageCounter, s.loc (.worker i) = ThWorker.svc (.pop imageCounter) ∧
        s.queue (.workerQueue i) = [] := by
    by_contra hnot
    obtain ⟨hreturned, hpop⟩ := not_or.mp hnot
    exact hbusy ⟨.worker i, worker_busy hgather (not_exists.mp hreturned)
      (svc_ne_returned h hD hS i) fun imageCounter hx hq => hpop ⟨imageCounter, hx, hq⟩⟩
  have hempty (i : Fin nw) : s.queue (.workerQueue i) = [] := by
    rcases hworker i with ⟨y, hx⟩ | ⟨imageCounter, -, hq⟩
    · exact workerQueue_eq_nil h (worker_told h hx).2.1
    · exact hq
  have hemitter : P.nodes.actions .emitter (s.loc .emitter) = [] := by
    by_contra hne
    exact hbusy ⟨.emitter, emitter_busy hnw hempty hne⟩
  have hreturned (i : Fin nw) : ∃ y, s.loc (.worker i) = ThWorker.returned y := by
    rcases hworker i with hx | ⟨imageCounter, hx, hq⟩
    · exact hx
    · obtain ⟨k, hk, hle⟩ := LoadBalancer.actions_eq_nil hemitter
      exact absurd (emitter_told h hk hle i) (pop_not_told h hx hq)
  obtain ⟨t, hne⟩ := hleft
  cases t with
  | emitter => exact hne hemitter
  | worker i =>
    obtain ⟨y, hx⟩ := hreturned i
    refine hne ?_
    change ThWorker.actions _ _ _ _ (s.loc (.worker i)) = []
    rw [hx, ThWorker.actions]
  | collector =>
    have hoffline : (s.loc .collector).CountsEos fun i => s.ins .collector (.gatherQueue i) :=
      marksAtPlace h .collector
    refine hbusy ⟨.collector, collector_busy hoffline (fun i honline hq => ?_) hne⟩
    obtain ⟨y, hx⟩ := hreturned i
    have hmark := (worker_told h hx).2.2
    rw [← ins_append_gatherQueue h i, hq, List.append_nil, ← hoffline.offline, honline] at hmark
    cases hmark

section Ends
variable (hnw : 0 < nw) (hD : P.Delivers) (hS : P.Schedules fixedsize)
  (hgather : ∀ i, fixedsize (.gatherQueue i) = false) (hsize : ∀ q, 0 < size q)
  (h : P.ChannelReachable size fixedsize pixels s)
include hnw hD hS hgather hsize h

/-- Every fair run comes to the end of all nodes. -/
theorem ChannelReachable.fairRun_ended (r : ℕ → ChannelState J nw) (hr : r 0 = s)
    (hfair : P.FairChannelRun size fixedsize r) : ∃ n, (r n).Ended P.nodes :=
  Channels.fairRun_ended (P.nodes_ranking hnw) P.nodeRank_failed P.oneToOne hsize
    (fun _ h => exists_busy hnw hD hS hgather h) hfair (hr ▸ h)

theorem ChannelReachable.exists_ended :
    ∃ s', Relation.ReflTransGen (P.ChannelStep size fixedsize) s s' ∧ s'.Ended P.nodes :=
  have : Nonempty (Thread nw) := ⟨.emitter⟩
  SystemReachable.exists_ended (P.nodes_ranking hnw) P.nodeRank_failed P.oneToOne hsize
    (fun _ h => exists_busy hnw hD hS hgather h) h

end Ends

end Code

end WaterMark.FastFlow

namespace WaterMark.FastFlow.Map
open ChannelNetwork TaggedLog Pixels Maps Gather Pictures Channels

variable {st : ImageStream} {nw : ℕ} {ptrMark : Buffer} {markHeight markWidth : ℕ}

/-- The round robin of channels that are never full. -/
theorem schedules : (code st nw ptrMark markHeight markWidth).Schedules fun _ => false where
  start := List.mem_singleton.mpr (by simp [selectworker])
  sent n nextw h := by
    rw [List.mem_singleton.mp h, selectworker_natCast, Nat.mod_add_mod]
    exact List.mem_singleton_self _
  retried n nextw hfixed := by cases hfixed

end WaterMark.FastFlow.Map

namespace WaterMark.FastFlow.FarmMap
open ChannelNetwork TaggedLog Pixels Maps Gather Pictures Channels

variable {st : ImageStream} {nw nWorkerMap : ℕ} {ptrMark : Buffer} {markHeight markWidth : ℕ}

/-- The round robin that passes full channels by. -/
theorem schedules (hnw : 0 < nw) (fixedsize : Chan (Fin nw) → Bool) :
    (code st nw nWorkerMap ptrMark markHeight markWidth).Schedules fixedsize where
  start := List.mem_range.mpr (selectworker_lt nw hnw _)
  sent _ _ _ := List.mem_range.mpr (selectworker_lt nw hnw _)
  retried _ _ _ _ := List.mem_range.mpr (selectworker_lt nw hnw _)

/-- The FastFlow farm of maps on its channels, those of the workers of a fixed size:
a load balancer that finds one full tries the next. Every run can go on until all
nodes have ended, and a fair run does. Then all pictures are stamped. -/
theorem ffFarmMap_onChannels (st : ImageStream) (ptrMark : Buffer) (markHeight markWidth : ℕ)
    (pixels : Ptr → Buffer) {nw nWorkerMap : ℕ} (hnw : 1 ≤ nw) (hn : 1 ≤ nWorkerMap)
    (size : Chan (Fin nw) → ℕ) (hsize : ∀ q, 0 < size q) (s : ChannelState (Task nWorkerMap) nw)
    (h : (code st nw nWorkerMap ptrMark markHeight markWidth).ChannelReachable size
      Code.onDemand pixels s) :
    (∀ j < st.size, ∀ p : ℕ,
      (s.mem.pixels (st.pix j))[p]? = (pixels (st.pix j))[p]? ∨
      (s.mem.pixels (st.pix j))[p]? =
        (Seq.stamped st ptrMark markHeight markWidth pixels j).2[p]?) ∧
    (s.Ended (code st nw nWorkerMap ptrMark markHeight markWidth).nodes → ∀ j < st.size,
      s.mem.pixels (st.pix j) = (Seq.stamped st ptrMark markHeight markWidth pixels j).2) ∧
    (∀ r : ℕ → ChannelState (Task nWorkerMap) nw, r 0 = s →
      (code st nw nWorkerMap ptrMark markHeight markWidth).FairChannelRun size Code.onDemand r →
      ∃ n, (r n).Ended (code st nw nWorkerMap ptrMark markHeight markWidth).nodes) ∧
    ∃ s', Relation.ReflTransGen ((code st nw nWorkerMap ptrMark markHeight markWidth).ChannelStep
        size Code.onDemand) s s' ∧
      s'.Ended (code st nw nWorkerMap ptrMark markHeight markWidth).nodes := by
  have hD := delivers st nWorkerMap ptrMark markHeight markWidth hnw
  have hS : (code st nw nWorkerMap ptrMark markHeight markWidth).Schedules Code.onDemand :=
    schedules hnw Code.onDemand
  have hfarm := h.farm hS hsize
  refine ⟨fun j hj p => ?_, fun hend j hj => ?_,
    h.fairRun_ended hnw hD hS (fun _ => rfl) hsize, h.exists_ended hnw hD hS (fun _ => rfl) hsize⟩
  · exact (Code.describes quiet (piece st)).byte_eq cuts (fun _ hs => alone hs) hj hfarm p
  · have hterm := h.terminal hD hS hsize hend
    exact pixels_eq hn hfarm hj fun c => stamped_terminal hnw hfarm hterm hj c

/-- Two workers with channels of one slot stamp two chunks of each of two images. -/
theorem ffFarmMap_onChannels_twoImages :
    ∃ s, (code twoImages 2 2 [0, 200, 49, 50] 2 2).ChannelReachable (fun _ => 1) Code.onDemand
        (fun _ => List.replicate 12 100) s ∧
      s.Ended (code twoImages 2 2 [0, 200, 49, 50] 2 2).nodes ∧
      s.mem.pixels (twoImages.pix 1) = [50, 100, 74, 100, 50, 100, 74, 100, 50, 100, 74, 100] := by
  have hall := ffFarmMap_onChannels twoImages [0, 200, 49, 50] 2 2 (fun _ => List.replicate 12 100)
    (show 1 ≤ 2 by decide) (show 1 ≤ 2 by decide) (fun _ => 1) fun _ => Nat.one_pos
  obtain ⟨s, hrun, hend⟩ := (hall _ .refl).2.2.2
  exact ⟨s, hrun, hend, (hall s hrun).2.1 hend 1 (by decide)⟩

end WaterMark.FastFlow.FarmMap

namespace WaterMark.FastFlow.Farm
open ChannelNetwork TaggedLog FairRuns SharedQueue Pixels Maps Pictures Channels
open WaterMark.Farm (Task taskOf map_saves)

variable {st : ImageStream} {markImg : Mark} {nw : ℕ}

/-- The `put`s of the load balancer: round robin, since no channel is ever full, and then
`EOS` for one worker after the other. -/
def puts (st : ImageStream) (nw n : ℕ) : List (ℕ × Msg) :=
  if n < st.size then [(n % nw, some (taskOf st n))]
  else if n < st.size + nw then [(n - st.size, none)]
  else []

theorem puts_subset (hnw : 0 < nw) (n : ℕ) : puts st nw n ⊆ choices st nw n := by
  unfold puts choices
  split_ifs
  · refine List.cons_subset.mpr ⟨?_, List.nil_subset _⟩
    exact List.mem_map_of_mem (List.mem_range.mpr (Nat.mod_lt n hnw))
  · exact List.Subset.refl _
  · exact List.Subset.refl _

theorem choices_eq_nil {n : ℕ} (h : puts st nw n = []) : choices st nw n = [] := by
  unfold puts at h
  unfold choices
  split_ifs at h ⊢ with hn hend
  rfl

def nodes (st : ImageStream) (markImg : Mark) (nw : ℕ) :
    Program (Thread nw) (@Chan.Msg Empty Msg) (Loc nw) (Memory (Thread nw) Task) where
  start := (program st markImg nw).start
  actions
    | .emitter => fun n => sendActions (puts st nw n) (n + 1)
    | .worker i => workerActions st markImg i

theorem nodes_subset (hnw : 0 < nw) (t : Thread nw) (x : Loc nw t) :
    (nodes st markImg nw).actions t x ⊆ (program st markImg nw).actions t x := by
  cases t with
  | emitter => exact List.map_subset _ (puts_subset hnw x)
  | worker i => exact List.Subset.refl _

def receiver : Chan Empty → Thread nw
  | .workerQueue index => if h : index < nw then .worker ⟨index, h⟩ else .emitter
  | .gatherQueue _ => .emitter

theorem pop_queue {i : Fin nw} {x : WorkerState} {q : Chan Empty} {next : q.Msg Msg → WorkerState}
    (ha : .pop q next ∈ workerActions st markImg i x) : q = .workerQueue i := by
  cases x with
  | pop =>
    cases List.mem_singleton.mp ha
    rfl
  | stamp | save | svcEnd | returned => simp [workerActions] at ha

theorem oneToOne (st : ImageStream) (markImg : Mark) (nw : ℕ) :
    OneToOne (nodes st markImg nw) (fun _ => .emitter) receiver where
  push t x q value next ha := by
    cases t with
    | emitter => rfl
    | worker i => exact absurd ha push_none
  pop t x q next ha := by
    cases t with
    | emitter => exact absurd ha send_pop_none
    | worker i =>
      rw [pop_queue ha, receiver, dif_pos i.isLt]

theorem program_terminal {s : FarmState nw} (hterm : (nodes st markImg nw).Terminal s) :
    (program st markImg nw).Terminal s := by
  intro s' hstep
  cases hstep with
  | pop t q next m rest ha hq =>
    cases t with
    | emitter => exact send_pop_none ha
    | worker i => exact hterm _ (.pop s (.worker i) q next m rest ha hq)
  | push t q m next ha =>
    cases t with
    | emitter =>
      have hnil : puts st nw (s.loc .emitter) = [] :=
        send_waits fun a ha => hterm.waits (t := .emitter) (a := a) ha
      obtain ⟨e, he, -⟩ := send_push ha
      rw [choices_eq_nil hnil] at he
      cases he
    | worker i => exact push_none ha
  | work t f ha =>
    cases t with
    | emitter => exact send_work_none ha
    | worker i => exact hterm _ (.work s (.worker i) f ha)

theorem single_action {t : Thread nw} {x : Loc nw t}
    {a : Action (@Chan.Msg Empty Msg) (Loc nw t) (Memory (Thread nw) Task)}
    (ha : a ∈ (nodes st markImg nw).actions t x) : (nodes st markImg nw).actions t x = [a] := by
  cases t with
  | emitter =>
    change a ∈ sendActions (puts st nw x) _ at ha
    change sendActions (puts st nw x) _ = [a]
    unfold puts at ha ⊢
    split_ifs at ha ⊢
    · cases List.mem_singleton.mp ha
      rfl
    · cases List.mem_singleton.mp ha
      rfl
    · cases ha
  | worker i =>
    cases x with
    | pop | stamp | save | svcEnd =>
      cases List.mem_singleton.mp ha
      rfl
    | returned => cases ha

section Run
variable {pixels : Ptr → Buffer} {size : Chan Empty → ℕ}
  {s : SystemState (Thread nw) (@Chan.Msg Empty Msg) (Loc nw) (Memory (Thread nw) Task)}

theorem reachable_atomic (hnw : 0 < nw) (hsize : ∀ q, 0 < size q)
    (h : SystemReachable (nodes st markImg nw) size (fun _ => false) (fun _ x => x)
      ⟨pixels, []⟩ s) : (program st markImg nw).Reachable ⟨pixels, []⟩ s.atomic :=
  Program.Reachable.of_attempts (nodes_subset hnw) rfl
    (SystemReachable.atomic (oneToOne st markImg nw) hsize h)

theorem nodes_ended (hnw : 0 < nw) {s : FarmState nw}
    (h : (program st markImg nw).Reachable ⟨pixels, []⟩ s)
    (hterm : (nodes st markImg nw).Terminal s) (t : Thread nw) :
    (nodes st markImg nw).actions t (s.loc t) = [] := by
  cases t with
  | emitter =>
    have hnil : puts st nw (s.loc .emitter) = [] :=
      send_waits fun a ha => hterm.waits (t := .emitter) (a := a) ha
    change sendActions (puts st nw (s.loc .emitter)) _ = []
    rw [hnil]
    rfl
  | worker i =>
    change workerActions st markImg i (s.loc (.worker i)) = []
    rw [((finished hnw h (program_terminal hterm)).workers i).1]
    rfl

theorem exists_busy (hnw : 0 < nw) {s : FarmState nw}
    (h : ((nodes st markImg nw).attempts (fun _ => false) fun _ x => x).Reachable ⟨pixels, []⟩ s)
    (hleft : ∃ t, (nodes st markImg nw).actions t (s.loc t) ≠ []) :
    ∃ t, Busy (nodes st markImg nw) (fun _ => false) (fun _ x => x) s.queue t (s.loc t) := by
  by_contra hbusy
  have hterm : (nodes st markImg nw).Terminal s := by
    intro s' hstep
    cases hstep with
    | pop t q next m rest ha hq =>
      refine hbusy ⟨t, .of_action (single_action ha) rfl ?_⟩
      rw [Goes, hq]
      exact List.cons_ne_nil m rest
    | push t q m next ha =>
      exact hbusy ⟨t, .of_action (single_action ha) rfl fun hfixed => by cases hfixed⟩
    | work t f ha => exact hbusy ⟨t, .of_action (single_action ha) rfl trivial⟩
  obtain ⟨t, hne⟩ := hleft
  exact hne (nodes_ended hnw (.of_attempts (nodes_subset hnw) rfl h) hterm t)

end Run

/-- The FastFlow farm on its channels: the pictures written are those of the farm,
each once at most, and nothing is deleted. Every run can go on until all nodes have
ended, and a fair run does. Then all workers have returned and all pictures are
written. -/
theorem ffFarm_onChannels (st : ImageStream) (markImg : Mark) (pixels : Ptr → Buffer) {nw : ℕ}
    (hnw : 1 ≤ nw) (size : Chan Empty → ℕ) (hsize : ∀ q, 0 < size q)
    (s : SystemState (Thread nw) (@Chan.Msg Empty Msg) (Loc nw) (Memory (Thread nw) Task))
    (h : SystemReachable (nodes st markImg nw) size (fun _ => false) (fun _ x => x)
      ⟨pixels, []⟩ s) :
    ((log Event.saved s.atomic).Subperm
        ((List.range st.size).map fun j : ℕ => (savePath j, st.img j)) ∧
      (log Event.output s.atomic).Subperm (WaterMark.Farm.output st markImg pixels)) ∧
    (∀ e ∈ s.mem.events, e.2.deleted = none ∧ e.2.released = none) ∧
    (s.Ended (nodes st markImg nw) → Finished st s.atomic ∧
      (log Event.saved s.atomic).Perm
        ((List.range st.size).map fun j : ℕ => (savePath j, st.img j)) ∧
      (log Event.output s.atomic).Perm (WaterMark.Farm.output st markImg pixels)) ∧
    (∀ r, r 0 = s →
      FairRun (NodeStep (nodes st markImg nw) size (fun _ => false) fun _ x => x) r →
      ∃ n, (r n).Ended (nodes st markImg nw)) ∧
    ∃ s', Relation.ReflTransGen (SystemStep (nodes st markImg nw) size (fun _ => false)
        fun _ x => x) s s' ∧ s'.Ended (nodes st markImg nw) := by
  have hatomic := reachable_atomic hnw hsize h
  have hR := (ranking st markImg).mono
    (nodes_subset hnw : ∀ t x, (nodes st markImg nw).actions t x ⊆ _)
  rw [← map_saves st markImg pixels savePath, written_eq hatomic]
  refine ⟨⟨log_subperm picks_saved hatomic, subperm_map _ (log_subperm picks_saved hatomic)⟩,
    nothing_deleted hatomic, fun hend => ?_, fun r hr hfair => ?_, ?_⟩
  · have hterm := program_terminal hend.terminal
    have hperm := log_perm picks_saved hnw hatomic hterm
    exact ⟨finished hnw hatomic hterm, hperm, hperm.map _⟩
  · exact fairRun_ended hR (fun _ _ => le_rfl) (oneToOne st markImg nw) hsize
      (fun _ hs => exists_busy hnw hs) hfair (hr ▸ h)
  · have : Nonempty (Thread nw) := ⟨.emitter⟩
    exact SystemReachable.exists_ended hR (fun _ _ => le_rfl) (oneToOne st markImg nw) hsize
      (fun _ hs => exists_busy hnw hs) h

/-- Two workers with buffers of one slot write the pictures of two images. -/
theorem ffFarm_onChannels_twoImages :
    ∃ s, SystemReachable (nodes twoImages
        ⟨2, 2, 3, [0, 200, 49, 50, 0, 200, 49, 50, 0, 200, 49, 50], rfl⟩ 2) (fun _ => 1)
        (fun _ => false) (fun _ x => x) ⟨fun _ => List.replicate 12 100, []⟩ s ∧
      s.Ended (nodes twoImages
        ⟨2, 2, 3, [0, 200, 49, 50, 0, 200, 49, 50, 0, 200, 49, 50], rfl⟩ 2) ∧
      (log Event.output s.atomic).Perm
        [(0, [50, 100, 74, 100, 50, 100, 74, 100, 50, 100, 74, 100]),
          (1, [50, 100, 74, 100, 50, 100, 74, 100, 50, 100, 74, 100])] := by
  have hall := ffFarm_onChannels twoImages
    ⟨2, 2, 3, [0, 200, 49, 50, 0, 200, 49, 50, 0, 200, 49, 50], rfl⟩
    (fun _ => List.replicate 12 100) (show 1 ≤ 2 by decide) (fun _ => 1) fun _ => Nat.one_pos
  obtain ⟨s, hrun, hend⟩ := (hall _ .refl).2.2.2.2
  exact ⟨s, hrun, hend, ((hall s hrun).2.2.1 hend).2.2⟩

end WaterMark.FastFlow.Farm
