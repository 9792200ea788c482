import WaterMark.FastFlow.Flow
import WaterMark.FastFlow.RunTime

/-! # The end of the stream in FastFlow

Every node tells its receivers `EOS` once, after all its messages. The load balancer
has told it to the workers that it has passed and need not retry, a worker when it
has returned, and the gatherer counts those that have told it.
-/

namespace WaterMark.FastFlow
open ChannelNetwork TaggedLog Pixels Maps Gather

variable {J : Type} {nw : ℕ}

theorem workerQueue_ne {κ : Type} {i k : ℕ} (h : i ≠ k) :
    @Chan.workerQueue κ i ≠ .workerQueue k := fun he => h (Chan.workerQueue.inj he)

theorem gatherQueue_ne {κ : Type} {g h : κ} (hne : g ≠ h) :
    @Chan.gatherQueue κ g ≠ .gatherQueue h := fun he => hne (Chan.gatherQueue.inj he)

/-! ## What the nodes have told -/

namespace LoadBalancer
variable {i back : ℕ} {retry rest : List ℕ} {outs : (q : Chan (Fin nw)) → List (Marked J nw q)}

/-- The workers before `i` are told, but those to retry. -/
structure Told (i : ℕ) (retry : List ℕ) (outs : (q : Chan (Fin nw)) → List (Marked J nw q)) :
    Prop where
  told : ∀ index, none ∈ outs (.workerQueue index) ↔ index < i ∧ index ∉ retry
  nodup : retry.Nodup
  lt : ∀ index ∈ retry, index < i
  closing : ∀ index, Closing (outs (.workerQueue index))

theorem Told.start (h : ∀ index, none ∉ outs (.workerQueue index)) : Told 0 [] outs where
  told index := by simp [h index]
  nodup := List.nodup_nil
  lt index hi := by cases hi
  closing index := .of_notMem (h index)

theorem Told.put (h : Told i retry outs) {k j : ℕ} {retry' : List ℕ}
    (hk : none ∉ outs (.workerQueue k))
    (htold : ∀ index, index < j ∧ index ∉ retry' ↔ index = k ∨ index < i ∧ index ∉ retry)
    (hnodup : retry'.Nodup) (hlt : ∀ index ∈ retry', index < j) :
    Told j retry' (Function.update outs (.workerQueue k) (outs (.workerQueue k) ++ [none])) where
  told index := by
    rw [htold, ← h.told]
    by_cases hi : index = k
    · subst hi
      simp
    · rw [Function.update_of_ne (workerQueue_ne hi)]
      simp [hi]
  nodup := hnodup
  lt := hlt
  closing index := by
    by_cases hi : index = k
    · subst hi
      rw [Function.update_self]
      exact .snoc hk none
    · rw [Function.update_of_ne (workerQueue_ne hi)]
      exact h.closing index

theorem Told.broadcast (h : Told i retry outs) :
    Told (i + 1) retry
      (Function.update outs (.workerQueue i) (outs (.workerQueue i) ++ [none])) := by
  have hretry : i ∉ retry := fun hi => (h.lt i hi).false
  refine h.put (by simp [h.told]) (fun index => ?_) h.nodup fun index hi => ?_
  · constructor
    · rintro ⟨hlt, hnot⟩
      rcases Nat.lt_succ_iff_lt_or_eq.mp hlt with hlt | heq
      · exact .inr ⟨hlt, hnot⟩
      · exact .inl heq
    · rintro (rfl | ⟨hlt, hnot⟩)
      · exact ⟨Nat.lt_succ_self index, hretry⟩
      · exact ⟨Nat.lt_succ_of_lt hlt, hnot⟩
  · exact Nat.lt_succ_of_lt (h.lt index hi)

theorem Told.again (h : Told i (back :: rest) outs) :
    Told i rest
      (Function.update outs (.workerQueue back) (outs (.workerQueue back) ++ [none])) := by
  obtain ⟨hback, hnodup⟩ := List.nodup_cons.mp h.nodup
  refine h.put (by simp [h.told]) (fun index => ?_) hnodup
    fun index hi => h.lt index (List.mem_cons_of_mem back hi)
  by_cases hi : index = back
  · subst hi
    simp [hback, h.lt index List.mem_cons_self]
  · simp [hi]

theorem Told.failed (h : Told i retry outs) : Told (i + 1) (i :: retry) outs where
  told index := by
    rw [h.told]
    by_cases hi : index = i
    · simp [hi]
    · have hlt : index < i + 1 ↔ index < i := by omega
      rw [hlt, List.mem_cons, or_iff_right hi]
  nodup := List.nodup_cons.mpr ⟨fun hi => (h.lt i hi).false, h.nodup⟩
  lt index hi := by
    rcases List.mem_cons.mp hi with rfl | hi
    · exact Nat.lt_succ_self index
    · exact Nat.lt_succ_of_lt (h.lt index hi)
  closing := h.closing

def HasTold (outs : (q : Chan (Fin nw)) → List (Marked J nw q)) : LoadBalancer nw → Prop
  | .scheduleTask _ _ => ∀ index, none ∉ outs (.workerQueue index)
  | .broadcastTask i retry => Told i (retry.map Fin.val) outs

theorem HasTold.closing {x : LoadBalancer nw} (h : x.HasTold outs) (index : ℕ) :
    Closing (outs (.workerQueue index)) := by
  cases x with
  | scheduleTask n nextw => exact .of_notMem (h index)
  | broadcastTask i retry => exact Told.closing h index

theorem HasTold.put_step {sends : List J} {x next : LoadBalancer nw} {q : Chan (Fin nw)}
    {m : Marked J nw q} (h : x.HasTold outs) (hput : Puts sends x q m next) :
    next.HasTold (Function.update outs q (outs q ++ [m])) := by
  cases hput with
  | schedule n nextw task htask =>
    intro index
    by_cases hi : index = selectworker nw nextw
    · rw [hi, Function.update_self]
      simpa using h (selectworker nw nextw)
    · rw [Function.update_of_ne (workerQueue_ne hi)]
      exact h index
  | broadcast i retry hi => exact Told.broadcast h
  | again i back rest hi => exact Told.again h

end LoadBalancer

namespace ThWorker

/-- A worker that has received `EOS` is at its pop. -/
inductive PassesEos : ThWorker J → List (Option J) → List (Option Result) → Prop
  | svc {got sent} (x : WorkerState J) (hgot : none ∉ got) (hsent : none ∉ sent) :
      PassesEos (.svc x) got sent
  | eos {got sent} (imageCounter : ℕ) (hgot : none ∈ got) (hsent : none ∉ sent) :
      PassesEos (.eos (.pop imageCounter)) got sent
  | returned {got sent} (imageCounter : ℕ) (hgot : none ∈ got) (hsent : none ∈ sent)
      (hclosing : Closing sent) : PassesEos (.returned (.pop imageCounter)) got sent

theorem PassesEos.closing {x : ThWorker J} {got : List (Option J)} {sent : List (Option Result)}
    (h : x.PassesEos got sent) : Closing sent := by
  cases h with
  | svc _ _ hsent => exact .of_notMem hsent
  | eos _ _ hsent => exact .of_notMem hsent
  | returned _ _ _ hclosing => exact hclosing

section Step
variable {T : Type} {c : WorkerCode J} {info : J → ChunkInfo} {t : T} {i : Fin nw} {x : ThWorker J}
  {q : Chan (Fin nw)} {ins outs : (q : Chan (Fin nw)) → List (Marked J nw q)}

theorem PassesEos.pop_step {next : Marked J nw q → ThWorker J} {m : Marked J nw q}
    (ha : .pop q next ∈ x.actions c info t i)
    (h : x.PassesEos (ins (.workerQueue i)) (outs (.gatherQueue i))) :
    (next m).PassesEos (Function.update ins q (ins q ++ [m]) (.workerQueue i))
      (outs (.gatherQueue i)) := by
  obtain ⟨imageCounter, rfl, he⟩ := pop ha
  cases he
  rw [Function.update_self]
  cases h with
  | svc _ hgot hsent =>
    cases m with
    | none => exact .eos imageCounter (by simp) hsent
    | some task => exact .svc _ (by simpa using hgot) hsent

theorem PassesEos.push_step {next : ThWorker J} {m : Marked J nw q}
    (ha : .push q m next ∈ x.actions c info t i)
    (h : x.PassesEos (ins (.workerQueue i)) (outs (.gatherQueue i))) :
    next.PassesEos (ins (.workerQueue i))
      (Function.update outs q (outs q ++ [m]) (.gatherQueue i)) := by
  obtain ⟨y, m', next', rfl, rfl, rfl, hmem⟩ | ⟨y, rfl, rfl, he⟩ := push ha
  · cases WorkerCode.push_queue hmem
    rw [Function.update_self]
    cases h with
    | svc _ hgot hsent => exact .svc _ hgot (by simpa using hsent)
  · cases he
    rw [Function.update_self]
    cases h with
    | eos imageCounter hgot hsent =>
      exact .returned imageCounter hgot (by simp) (.snoc hsent none)

theorem PassesEos.work_step {f : Memory T J → ThWorker J × Memory T J} {mem : Memory T J}
    (ha : .work f ∈ (x.actions c info t i : List (Action (Marked J nw) _ _)))
    (h : x.PassesEos (ins (.workerQueue i)) (outs (.gatherQueue i))) :
    (f mem).1.PassesEos (ins (.workerQueue i)) (outs (.gatherQueue i)) := by
  obtain ⟨y, f', rfl, rfl, -⟩ := work ha
  cases h with
  | svc _ hgot hsent => exact .svc _ hgot hsent

end Step

end ThWorker

namespace Gatherer

/-- The workers that are offline are those that have told `EOS`. -/
structure CountsEos (g : Gatherer) (got : Fin nw → List (Option Result)) : Prop where
  offline : ∀ i : Fin nw, g.offline i = true ↔ none ∈ got i
  neos : g.neos = (Finset.univ.filter fun i : Fin nw => g.offline i = true).card

variable {g : Gatherer} {got : Fin nw → List (Option Result)}

/-- While a mark is missing there is a worker to select. -/
theorem CountsEos.next_online (h : g.CountsEos got) (hneos : g.neos < nw) :
    g.offline (g.next nw) = false := by
  by_contra hnext
  have hall : ∀ i : Fin nw, g.offline i = true := by
    intro i
    by_contra hi
    exact hnext (Gatherer.next_online i.isLt (Bool.not_eq_true _ ▸ hi))
  have hcard := h.neos
  rw [Finset.filter_true_of_mem fun i _ => hall i, Finset.card_univ, Fintype.card_fin] at hcard
  omega

theorem CountsEos.all_offline (h : g.CountsEos got) (hneos : nw ≤ g.neos) (i : Fin nw) :
    none ∈ got i := by
  have hall := Finset.eq_univ_of_card (Finset.univ.filter fun i : Fin nw => g.offline i = true) (by
    refine le_antisymm (Finset.card_le_univ _) ?_
    rw [← h.neos, Fintype.card_fin]
    exact hneos)
  have hi := Finset.mem_univ i
  rw [← hall, Finset.mem_filter] at hi
  exact (h.offline i).mp hi.2

theorem CountsEos.start (pool : ℤ → ℕ) : (Gatherer.mk 0 (fun _ => false) 0 (.pop pool)).CountsEos
    fun _ : Fin nw => [] where
  offline i := by simp
  neos := by simp

section Step
variable {T : Type} {c : GatherMap} {t : T} {q : Chan (Fin nw)}
  {ins : (q : Chan (Fin nw)) → List (Marked J nw q)}

theorem CountsEos.result {i : Fin nw} (h : g.CountsEos fun i => ins (.gatherQueue i))
    (workerResult : Result) (pool : ℤ → ℕ) :
    (g.receive i pool (some workerResult)).CountsEos fun k => Function.update ins
      (.gatherQueue i) (ins (.gatherQueue i) ++ [some workerResult]) (.gatherQueue k) where
  offline k := by
    refine (h.offline k).trans ?_
    by_cases hk : k = i
    · subst hk
      simp
    · rw [Function.update_of_ne (gatherQueue_ne hk)]
  neos := h.neos

theorem CountsEos.mark {i : Fin nw} (h : g.CountsEos fun i => ins (.gatherQueue i))
    (honline : g.offline i = false) (pool : ℤ → ℕ) : (g.receive i pool none).CountsEos fun k =>
      Function.update ins (.gatherQueue i) (ins (.gatherQueue i) ++ [none]) (.gatherQueue k) where
  offline k := by
    by_cases hk : k = i
    · subst hk
      simp [receive]
    · have hne : (k : ℕ) ≠ i := fun he => hk (Fin.ext he)
      simp only [receive, Function.update_of_ne hne, Function.update_of_ne (gatherQueue_ne hk)]
      exact h.offline k
  neos := by
    have hinsert : (Finset.univ.filter fun k : Fin nw =>
        Function.update g.offline i true k = true) =
          insert i (Finset.univ.filter fun k : Fin nw => g.offline k = true) := by
      ext k
      by_cases hk : k = i
      · simp [hk]
      · simp [hk, Fin.val_inj]
    change g.neos + 1 = (Finset.univ.filter fun k : Fin nw =>
      Function.update g.offline i true k = true).card
    rw [hinsert, Finset.card_insert_of_notMem (by simp [honline]), h.neos]

theorem CountsEos.get_step {next : Marked J nw q → Gatherer} {m : Marked J nw q}
    (ha : .pop q next ∈ g.actions c nw t) (h : g.CountsEos fun i => ins (.gatherQueue i)) :
    (next m).CountsEos fun i => Function.update ins q (ins q ++ [m]) (.gatherQueue i) := by
  obtain ⟨i, pool, hi, -, hneos, he⟩ := get ha
  have honline := h.next_online hneos
  rw [← hi] at honline
  cases he
  cases m with
  | none => exact h.mark honline pool
  | some workerResult => exact h.result workerResult pool

end Step

end Gatherer

namespace Code
variable {P : Code J nw} {fixedsize : Chan (Fin nw) → Bool}

def MarksAtPlace : (t : Thread nw) → NodeLoc J t → ((q : Chan (Fin nw)) → List (Marked J nw q)) →
    ((q : Chan (Fin nw)) → List (Marked J nw q)) → Unit → Prop
  | .emitter => fun x _ outs _ => x.HasTold outs
  | .worker i => fun x ins outs _ => x.PassesEos (ins (.workerQueue i)) (outs (.gatherQueue i))
  | .collector => fun g ins _ _ => g.CountsEos fun i => ins (.gatherQueue i)

theorem nodes_localInvariant (P : Code J nw) :
    LocalInvariant P.nodes (fun _ _ => ()) (@MarksAtPlace J nw) where
  pop t x ins outs v q next m ha h := by
    cases t with
    | emitter => exact absurd ha LoadBalancer.pop_none
    | worker i => exact ThWorker.PassesEos.pop_step ha h
    | collector => exact Gatherer.CountsEos.get_step ha h
  push t x ins outs v q m next ha h := by
    cases t with
    | emitter => exact LoadBalancer.HasTold.put_step h (LoadBalancer.puts ha)
    | worker i => exact ThWorker.PassesEos.push_step ha h
    | collector => exact absurd ha Gatherer.push_none
  work t x ins outs mem f ha h := by
    cases t with
    | emitter =>
      obtain ⟨n, nextw, rfl, -, rfl⟩ := LoadBalancer.work ha
      exact LoadBalancer.Told.start h
    | worker i => exact ThWorker.PassesEos.work_step ha h
    | collector =>
      obtain ⟨f', -, rfl⟩ := Gatherer.work ha
      exact ⟨h.offline, h.neos⟩
  frame t u x mem f hne ha := rfl

/-- What has been told does not change when a call fails. -/
theorem attempts_localInvariant (P : Code J nw) (fixedsize : Chan (Fin nw) → Bool) :
    LocalInvariant (P.nodes.attempts fixedsize failed) (fun _ _ => ())
      (@MarksAtPlace J nw) := by
  refine P.nodes_localInvariant.attempts fun t x ins outs v _ h => ?_
  cases t with
  | emitter =>
    cases x with
    | scheduleTask n nextw => exact h
    | broadcastTask i retry =>
      change LoadBalancer.HasTold outs
        (if hi : i < nw then .broadcastTask (i + 1) (⟨i, hi⟩ :: retry) else .broadcastTask i retry)
      split_ifs
      · exact LoadBalancer.Told.failed h
      · exact h
  | worker i => exact h
  | collector => exact ⟨h.offline, h.neos⟩

abbrev NodesState (J : Type) (nw : ℕ) :=
  State (Thread nw) (Marked J nw) (NodeLoc J) (Memory (Thread nw) J)

def sender : Chan (Fin nw) → Thread nw
  | .workerQueue _ => .emitter
  | .gatherQueue i => .worker i

def receiver : Chan (Fin nw) → Thread nw
  | .workerQueue index => if h : index < nw then .worker ⟨index, h⟩ else .emitter
  | .gatherQueue _ => .collector

theorem receiver_workerQueue (i : Fin nw) : receiver (.workerQueue i) = .worker i :=
  dif_pos i.isLt

theorem oneToOne (P : Code J nw) : OneToOne P.nodes sender receiver where
  push t x q value next ha := by
    cases t with
    | emitter => cases LoadBalancer.puts ha <;> rfl
    | worker i =>
      obtain ⟨y, m', next', -, -, -, hmem⟩ | ⟨y, -, -, he⟩ := ThWorker.push ha
      · rw [WorkerCode.push_queue hmem]
        rfl
      · cases he
        rfl
    | collector => exact absurd ha Gatherer.push_none
  pop t x q next ha := by
    cases t with
    | emitter => exact absurd ha LoadBalancer.pop_none
    | worker i =>
      obtain ⟨imageCounter, -, he⟩ := ThWorker.pop ha
      cases he
      exact (receiver_workerQueue i).symm
    | collector =>
      obtain ⟨i, pool, -, -, -, he⟩ := Gatherer.get ha
      cases he
      rfl

section Run
variable {pixels : Ptr → Buffer} {s : NodesState J nw}

theorem marksAtPlace (h : (P.nodes.attempts fixedsize failed).Reachable ⟨pixels, []⟩ s)
    (t : Thread nw) : MarksAtPlace t (s.loc t) (s.ins t) (s.outs t) () := by
  refine (P.attempts_localInvariant fixedsize).reachable (fun t => ?_) h t
  cases t with
  | emitter => exact fun _ => List.not_mem_nil
  | worker i => exact .svc _ List.not_mem_nil List.not_mem_nil
  | collector => exact .start _

variable (h : (P.nodes.attempts fixedsize failed).Reachable ⟨pixels, []⟩ s)
include h

theorem ins_append_workerQueue (i : Fin nw) :
    s.ins (.worker i) (.workerQueue i) ++ s.queue (.workerQueue i) =
      s.outs .emitter (.workerQueue i) := by
  have hlink := (P.oneToOne.attempts fixedsize failed).ins_append_queue h (.workerQueue i)
  rwa [receiver_workerQueue] at hlink

theorem ins_append_gatherQueue (i : Fin nw) :
    s.ins .collector (.gatherQueue i) ++ s.queue (.gatherQueue i) =
      s.outs (.worker i) (.gatherQueue i) :=
  (P.oneToOne.attempts fixedsize failed).ins_append_queue h (.gatherQueue i)

/-- Nothing waits behind a mark. -/
theorem workerQueue_eq_nil {i : Fin nw} (hi : none ∈ s.ins (.worker i) (.workerQueue i)) :
    s.queue (.workerQueue i) = [] := by
  refine Closing.eq_nil ?_ hi
  rw [ins_append_workerQueue h]
  exact LoadBalancer.HasTold.closing (marksAtPlace h .emitter) i

theorem gatherQueue_eq_nil {i : Fin nw} (hi : none ∈ s.ins .collector (.gatherQueue i)) :
    s.queue (.gatherQueue i) = [] := by
  refine Closing.eq_nil ?_ hi
  rw [ins_append_gatherQueue h]
  exact ThWorker.PassesEos.closing (marksAtPlace h (.worker i))

theorem emitter_told {i : ℕ} (hx : s.loc .emitter = .broadcastTask i []) (hi : nw ≤ i)
    (k : Fin nw) : none ∈ s.outs .emitter (.workerQueue k) := by
  have hmarks : LoadBalancer.HasTold (s.outs .emitter) (s.loc .emitter) := marksAtPlace h .emitter
  rw [hx] at hmarks
  exact (LoadBalancer.Told.told hmarks k).mpr ⟨k.isLt.trans_le hi, List.not_mem_nil⟩

theorem worker_told {i : Fin nw} {y : WorkerState J}
    (hx : s.loc (.worker i) = ThWorker.returned y) : (∃ imageCounter, y = .pop imageCounter) ∧
      none ∈ s.ins (.worker i) (.workerQueue i) ∧ none ∈ s.outs (.worker i) (.gatherQueue i) := by
  have hmarks : ThWorker.PassesEos (s.loc (.worker i)) (s.ins (.worker i) (.workerQueue i))
    (s.outs (.worker i) (.gatherQueue i)) := marksAtPlace h (.worker i)
  rw [hx] at hmarks
  generalize s.ins (.worker i) (.workerQueue i) = got at hmarks ⊢
  generalize s.outs (.worker i) (.gatherQueue i) = out at hmarks ⊢
  cases hmarks with
  | returned imageCounter hgot hsent _ => exact ⟨⟨imageCounter, rfl⟩, hgot, hsent⟩

/-- A worker at its pop is not told while its channel is empty. -/
theorem pop_not_told {i : Fin nw} {y : WorkerState J}
    (hx : s.loc (.worker i) = ThWorker.svc y) (hq : s.queue (.workerQueue i) = []) :
    none ∉ s.outs .emitter (.workerQueue i) := by
  have hmarks : ThWorker.PassesEos (s.loc (.worker i)) (s.ins (.worker i) (.workerQueue i))
    (s.outs (.worker i) (.gatherQueue i)) := marksAtPlace h (.worker i)
  rw [← ins_append_workerQueue h i, hq, List.append_nil]
  rw [hx] at hmarks
  generalize s.ins (.worker i) (.workerQueue i) = got at hmarks ⊢
  generalize s.outs (.worker i) (.gatherQueue i) = out at hmarks
  cases hmarks with
  | svc _ hgot _ => exact hgot

/-- No worker takes a task for its end. -/
theorem svc_ne_returned (hD : P.Delivers) (hS : P.Schedules fixedsize) (i : Fin nw) :
    s.loc (.worker i) ≠ ThWorker.svc .returned := by
  intro hx
  obtain ⟨sent, log, hF⟩ := exists_flow ((unmarks_attempts hS).reachable h)
  have hmarks := hF.worker i
  have hloc : (s.unmark P.place).loc (.worker i) = WorkerState.returned := by
    change ThWorker.filter (s.loc (.worker i)) = _
    rw [hx]
    rfl
  rw [hloc] at hmarks
  generalize (s.unmark P.place).ins (.worker i) (.workerQueue i) = got at hmarks
  generalize (s.unmark P.place).outs (.worker i) (.gatherQueue i) = out at hmarks
  generalize (s.unmark P.place).mem.eventsOf (.worker i) = events at hmarks
  cases hmarks with
  | returned _ heof =>
    rw [hD.eof] at heof
    cases heof

/-! ## The end of a run -/

theorem emitter_ended (hterm : P.nodes.Terminal s) : ∃ i, s.loc .emitter = .broadcastTask i [] ∧
    nw ≤ i ∧ ∀ k : Fin nw, none ∈ s.outs .emitter (.workerQueue k) := by
  obtain ⟨i, hx, hi⟩ := LoadBalancer.waits fun a ha => hterm.waits (t := .emitter) (a := a) ha
  exact ⟨i, hx, hi, emitter_told h hx hi⟩

theorem worker_ended (hD : P.Delivers) (hS : P.Schedules fixedsize) (hterm : P.nodes.Terminal s)
    (i : Fin nw) : ∃ imageCounter, s.loc (.worker i) = .returned (.pop imageCounter) ∧
      s.queue (.workerQueue i) = [] ∧ none ∈ s.outs (.worker i) (.gatherQueue i) := by
  rcases ThWorker.waits fun a ha => hterm.waits (t := .worker i) (a := a) ha with
    ⟨y, hx⟩ | hx | ⟨imageCounter, hx, hq⟩
  · obtain ⟨⟨imageCounter, rfl⟩, hgot, hsent⟩ := worker_told h hx
    exact ⟨imageCounter, hx, workerQueue_eq_nil h hgot, hsent⟩
  · exact absurd hx (svc_ne_returned h hD hS i)
  · obtain ⟨-, -, -, htold⟩ := emitter_ended h hterm
    exact absurd (htold i) (pop_not_told h hx hq)

theorem collector_ended (hD : P.Delivers) (hS : P.Schedules fixedsize)
    (hterm : P.nodes.Terminal s) : ∃ pool, (s.loc .collector).filter = .pop pool ∧
      nw ≤ (s.loc .collector).neos ∧ ∀ i : Fin nw, s.queue (.gatherQueue i) = [] := by
  have hmarks : (s.loc .collector).CountsEos fun i => s.ins .collector (.gatherQueue i) :=
    marksAtPlace h .collector
  obtain ⟨pool, hpool, hneos | ⟨hneos, i, hi, hq⟩⟩ :=
    Gatherer.waits fun a ha => hterm.waits (t := .collector) (a := a) ha
  · exact ⟨pool, hpool, hneos, fun i => gatherQueue_eq_nil h (hmarks.all_offline hneos i)⟩
  · obtain ⟨-, -, -, hmark⟩ := worker_ended h hD hS hterm i
    have hlink := ins_append_gatherQueue h i
    rw [hq, List.append_nil] at hlink
    rw [← hlink, ← hmarks.offline, hi, hmarks.next_online hneos] at hmark
    cases hmark

/-- When nothing more can be done, all nodes have left their loops. -/
theorem nodes_ended (hD : P.Delivers) (hS : P.Schedules fixedsize) (hterm : P.nodes.Terminal s)
    (t : Thread nw) : P.nodes.actions t (s.loc t) = [] := by
  cases t with
  | emitter =>
    obtain ⟨i, hx, hi, -⟩ := emitter_ended h hterm
    change LoadBalancer.actions P.sends (s.loc .emitter) = []
    rw [hx, LoadBalancer.actions, if_neg (not_lt.mpr hi)]
  | worker i =>
    obtain ⟨imageCounter, hx, -, -⟩ := worker_ended h hD hS hterm i
    change ThWorker.actions _ _ _ _ (s.loc (.worker i)) = []
    rw [hx, ThWorker.actions]
  | collector =>
    obtain ⟨pool, hpool, hneos, -⟩ := collector_ended h hD hS hterm
    change Gatherer.actions _ _ _ (s.loc .collector) = []
    rw [Gatherer.actions, hpool]
    exact if_neg (not_lt.mpr hneos)

/-- Then the nodes' own code has nothing more to do either. -/
theorem unmark_terminal (hD : P.Delivers) (hS : P.Schedules fixedsize)
    (hterm : P.nodes.Terminal s) : P.program.Terminal (s.unmark P.place) := by
  have hemitter : (s.unmark P.place).loc .emitter = P.sends.length := by
    obtain ⟨i, hx, -, -⟩ := emitter_ended h hterm
    change P.place .emitter (s.loc .emitter) = _
    rw [hx]
    rfl
  have hworker : ∀ i, ∃ imageCounter, (s.unmark P.place).loc (.worker i) = .pop imageCounter ∧
      (s.unmark P.place).queue (.workerQueue i) = [] := by
    intro i
    obtain ⟨imageCounter, hx, hq, -⟩ := worker_ended h hD hS hterm i
    refine ⟨imageCounter, ?_, by simp [State.unmark, hq]⟩
    change ThWorker.filter (s.loc (.worker i)) = _
    rw [hx, ThWorker.filter]
  obtain ⟨pool, hpool, -, hqueue⟩ := collector_ended h hD hS hterm
  have hcollector : (s.unmark P.place).loc .collector = .pop pool := hpool
  intro s' hstep
  cases hstep with
  | pop t q next m rest ha hq =>
    cases t with
    | emitter => exact send_pop_none ha
    | worker i =>
      obtain ⟨-, -, hnil⟩ := hworker i
      cases WorkerCode.pop_queue ha
      rw [hnil] at hq
      cases hq
    | collector =>
      obtain ⟨i, rfl⟩ := GatherMap.pop_queue ha
      simp [State.unmark, hqueue i] at hq
  | push t q m next ha =>
    cases t with
    | emitter =>
      obtain ⟨-, -, task, htask, -⟩ := emitter_push ha
      rw [hemitter, List.getElem?_length] at htask
      cases htask
    | worker i =>
      obtain ⟨imageCounter, hx, -⟩ := hworker i
      rw [hx] at ha
      cases List.mem_singleton.mp ha
    | collector => exact GatherMap.push_none ha
  | work t f ha =>
    cases t with
    | emitter => exact send_work_none ha
    | worker i =>
      obtain ⟨imageCounter, hx, -⟩ := hworker i
      rw [hx] at ha
      cases List.mem_singleton.mp ha
    | collector =>
      rw [hcollector] at ha
      obtain ⟨i, -, he⟩ := List.mem_map.mp ha
      cases he

end Run

/-! ## The loops come to an end -/

def markedWeight (P : Code J nw) : (q : Chan (Fin nw)) → Marked J nw q → ℕ
  | q, some m => WorkerCode.weight P.taskWeight q m
  | .workerQueue _, none => 3
  | .gatherQueue _, none => 1

/-- The marks cost the load balancer four each, which is one for every call that fails. -/
def nodeRank (P : Code J nw) : (t : Thread nw) → NodeLoc J t → ℕ
  | .emitter => fun
    | .scheduleTask n _ => sendRank P.taskWeight P.sends n + 4 * nw + 1
    | .broadcastTask i retry => 4 * (nw - i + retry.length)
  | .worker i => fun
    | .svc x => WorkerCode.rank (fun task => P.info task i) x
    | .eos _ => 2
    | .returned _ => 0
  | .collector => fun g => GatherMap.rank g.filter

theorem nodes_ranking (hnw : 0 < nw) (P : Code J nw) :
    Ranking P.nodes P.nodeRank P.markedWeight (queues nw) where
  pop t x q next m ha := by
    cases t with
    | emitter => exact absurd ha LoadBalancer.pop_none
    | worker i =>
      obtain ⟨imageCounter, rfl, he⟩ := ThWorker.pop ha
      cases he
      refine ⟨by simp [queues], ?_⟩
      cases m with
      | none => exact Nat.lt_succ_self 2
      | some task =>
        have hmem : .pop (.workerQueue i) (P.worker.receive imageCounter) ∈
            (P.worker.actions (fun task => P.info task i) (Thread.worker i) i i
              (.pop imageCounter) : List (Action (@Chan.Msg (Fin nw) J) _ _)) :=
          List.mem_singleton_self _
        exact WorkerCode.rank_pop (P.loopRank_le_taskWeight i) hmem
    | collector =>
      obtain ⟨i, pool, -, hpool, -, he⟩ := Gatherer.get ha
      cases he
      refine ⟨by simp [queues], ?_⟩
      cases m with
      | none => exact Nat.lt_succ_self _
      | some workerResult =>
        change 1 < GatherMap.rank x.filter + 2
        omega
  push t x q m next ha := by
    cases t with
    | emitter =>
      cases LoadBalancer.puts ha with
      | schedule n nextw task htask =>
        refine ⟨by simp [queues, selectworker_lt nw hnw], ?_⟩
        have hmem : .push (.workerQueue (selectworker nw nextw)) task (n + 1) ∈
            (sendActions [(selectworker nw nextw, task)] (n + 1) :
              List (Action (@Chan.Msg (Fin nw) J) ℕ Unit)) := List.mem_singleton_self _
        have hlt := sendRank_push P.taskWeight
          (show ∀ e ∈ [(selectworker nw nextw, task)], P.sends[n]? = some e.2 by simpa using htask)
          hmem
        simp only [nodeRank, markedWeight]
        omega
      | broadcast i retry hi =>
        refine ⟨by simp [queues, hi], ?_⟩
        simp only [nodeRank, markedWeight]
        omega
      | again i back rest hi =>
        refine ⟨by simp [queues], ?_⟩
        simp only [nodeRank, markedWeight, List.length_cons]
        omega
    | worker i =>
      obtain ⟨y, m', next', rfl, rfl, rfl, hmem⟩ | ⟨y, rfl, rfl, he⟩ := ThWorker.push ha
      · refine ⟨?_, WorkerCode.rank_push P.taskWeight hmem⟩
        rw [WorkerCode.push_queue hmem]
        simp [queues]
      · cases he
        exact ⟨by simp [queues], Nat.lt_succ_self 1⟩
    | collector => exact absurd ha Gatherer.push_none
  work t x mem f ha := by
    cases t with
    | emitter =>
      obtain ⟨n, nextw, rfl, -, rfl⟩ := LoadBalancer.work ha
      simp only [nodeRank, List.length_nil]
      omega
    | worker i =>
      obtain ⟨y, f', rfl, rfl, hmem⟩ := ThWorker.work ha
      exact WorkerCode.rank_work hmem
    | collector =>
      obtain ⟨f', hmem, rfl⟩ := Gatherer.work ha
      exact GatherMap.rank_work hmem

/-- A call that fails brings no node back. -/
theorem nodeRank_failed (P : Code J nw) (t : Thread nw) (x : NodeLoc J t) :
    P.nodeRank t (failed t x) ≤ P.nodeRank t x := by
  cases t with
  | emitter =>
    cases x with
    | scheduleTask n nextw => exact le_rfl
    | broadcastTask i retry =>
      change P.nodeRank .emitter (if hi : i < nw then .broadcastTask (i + 1) (⟨i, hi⟩ :: retry)
        else .broadcastTask i retry) ≤ _
      split_ifs
      · simp only [nodeRank, List.length_cons]
        omega
      · exact le_rfl
  | worker i => exact le_rfl
  | collector => exact le_rfl

end Code

end WaterMark.FastFlow
