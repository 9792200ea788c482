import WaterMark.Maps.Worker

/-! # The thread that feeds the workers

`scatter` and the emitters push one task after the other. The queue of a push is
given, or a scheduling chooses it among several.
-/

namespace WaterMark.Maps
open ChannelNetwork TaggedLog

variable {κ J μ : Type}

/-- The next push, one of `choices`, each with the index of its queue. -/
def sendActions (choices : List (ℕ × J)) (next : ℕ) : List (Action (@Chan.Msg κ J) ℕ μ) :=
  choices.map fun e => .push (.workerQueue e.1) e.2 next

/-- The first `n` pushes, where `choices k` are those that may be number `k`. -/
structure Sends (choices : ℕ → List (ℕ × J)) (n : ℕ) (sent : List (ℕ × J)) : Prop where
  length : sent.length = n
  chosen : ∀ k e, sent[k]? = some e → e ∈ choices k

theorem Sends.snoc {choices : ℕ → List (ℕ × J)} {n : ℕ} {sent : List (ℕ × J)}
    (h : Sends choices n sent) {e : ℕ × J} (he : e ∈ choices n) :
    Sends choices (n + 1) (sent ++ [e]) where
  length := by rw [List.length_append, h.length, List.length_singleton]
  chosen k e' hk := by
    rcases lt_or_ge k sent.length with hlt | hge
    · rw [List.getElem?_append_left hlt] at hk
      exact h.chosen k e' hk
    · rw [List.getElem?_append_right hge, List.getElem?_singleton] at hk
      split_ifs at hk with hzero
      cases hk
      have hkn : k = n := by
        rw [← h.length]
        omega
      exact hkn ▸ he

theorem Sends.eq_take {pushes sent : List (ℕ × J)} {n : ℕ}
    (h : Sends (fun k => pushes[k]?.toList) n sent) : sent = pushes.take n := by
  apply List.ext_getElem?
  intro k
  cases hk : sent[k]? with
  | none =>
    have hn : n ≤ k := h.length ▸ List.getElem?_eq_none_iff.mp hk
    exact (List.getElem?_take_eq_none hn).symm
  | some e =>
    have hn : k < n := h.length ▸ (List.getElem?_eq_some_iff.mp hk).1
    have he := h.chosen k e hk
    rw [Option.mem_toList] at he
    rw [List.getElem?_take_of_lt hn, he]

/-- What waits in the queues or has left them is what was sent. -/
def SendsTo (choices : ℕ → List (ℕ × J)) (n : ℕ) (outs : (q : Chan κ) → List (q.Msg J)) : Prop :=
  ∃ sent, Sends choices n sent ∧ ∀ index, outs (.workerQueue index) = entries index sent

theorem SendsTo.start (choices : ℕ → List (ℕ × J)) :
    SendsTo choices 0 fun q : Chan κ => ([] : List (q.Msg J)) :=
  ⟨[], ⟨rfl, fun k e hk => by cases hk⟩, fun index => rfl⟩

section Step
variable {choices : List (ℕ × J)} {n next : ℕ}

theorem send_pop_none {q : Chan κ} {x : q.Msg J → ℕ} :
    .pop q x ∉ @sendActions κ J μ choices next := by
  simp [sendActions]

theorem send_work_none {f : μ → ℕ × μ} : .work f ∉ @sendActions κ J μ choices next := by
  simp [sendActions]

theorem send_push {q : Chan κ} {m : q.Msg J} {x : ℕ}
    (ha : .push q m x ∈ @sendActions κ J μ choices next) :
    ∃ e ∈ choices, x = next ∧
      (⟨q, m⟩ : (q : Chan κ) × q.Msg J) = ⟨.workerQueue e.1, e.2⟩ := by
  rcases List.mem_map.mp ha with ⟨e, he, hpush⟩
  cases hpush
  exact ⟨e, he, rfl, rfl⟩

theorem SendsTo.push_step [DecidableEq κ] {outs : (q : Chan κ) → List (q.Msg J)} {q : Chan κ}
    {m : q.Msg J} {x : ℕ} {choices : ℕ → List (ℕ × J)}
    (ha : .push q m x ∈ @sendActions κ J μ (choices n) (n + 1)) (h : SendsTo choices n outs) :
    SendsTo choices x (Function.update outs q (outs q ++ [m])) := by
  rcases send_push ha with ⟨⟨k, task⟩, hk, rfl, he⟩
  cases he
  rcases h with ⟨sent, hsent, houts⟩
  refine ⟨sent ++ [(k, task)], hsent.snoc hk, fun index => ?_⟩
  rw [entries_append]
  by_cases hi : k = index
  · subst hi
    rw [Function.update_self, entries_single_self, houts]
  · have hne : @Chan.workerQueue κ index ≠ .workerQueue k := fun hc =>
      hi (Chan.workerQueue.inj hc).symm
    rw [Function.update_of_ne hne, entries_single_ne _ hi, List.append_nil, houts]

theorem send_waits {empty : Chan κ → Prop}
    (h : ∀ a ∈ @sendActions κ J μ choices next, ∃ q x, a = .pop q x ∧ empty q) :
    choices = [] := by
  apply List.eq_nil_iff_forall_not_mem.mpr
  intro e he
  rcases h _ (List.mem_map_of_mem he) with ⟨q, next, hpush, -⟩
  cases hpush

def sendRank (taskWeight : J → ℕ) (tasks : List J) (n : ℕ) : ℕ :=
  ((tasks.drop n).map fun task => 1 + taskWeight task).sum

theorem sendRank_push (taskWeight : J → ℕ) {tasks : List J}
    (htasks : ∀ e ∈ choices, tasks[n]? = some e.2) {q : Chan κ} {m : q.Msg J} {x : ℕ}
    (ha : .push q m x ∈ @sendActions κ J μ choices (n + 1)) :
    sendRank taskWeight tasks x + WorkerCode.weight taskWeight q m <
      sendRank taskWeight tasks n := by
  rcases send_push ha with ⟨e, he, rfl, hpush⟩
  cases hpush
  rcases List.getElem?_eq_some_iff.mp (htasks e he) with ⟨hlt, htask⟩
  rw [sendRank, sendRank, List.drop_eq_getElem_cons hlt, htask]
  simp only [WorkerCode.weight, List.map_cons, List.sum_cons]
  omega

end Step

/-! ## Given pushes -/

def scatterActions (pushes : List (ℕ × J)) (n : ℕ) : List (Action (@Chan.Msg κ J) ℕ μ) :=
  sendActions pushes[n]?.toList (n + 1)

section Scatter
variable {pushes : List (ℕ × J)} {n : ℕ}

theorem SendsTo.eq_take {outs : (q : Chan κ) → List (q.Msg J)}
    (h : SendsTo (fun k => pushes[k]?.toList) n outs) (index : ℕ) :
    outs (.workerQueue index) = entries index (pushes.take n) := by
  rcases h with ⟨sent, hsent, houts⟩
  rw [houts, hsent.eq_take]

theorem scatter_push {q : Chan κ} {m : q.Msg J} {next : ℕ}
    (ha : .push q m next ∈ @scatterActions κ J μ pushes n) :
    ∃ e ∈ pushes, q = .workerQueue e.1 := by
  rcases send_push ha with ⟨e, he, -, hpush⟩
  cases hpush
  exact ⟨e, List.mem_of_getElem? (Option.mem_toList.mp he), rfl⟩

theorem scatter_waits {empty : Chan κ → Prop}
    (h : ∀ a ∈ @scatterActions κ J μ pushes n, ∃ q next, a = .pop q next ∧ empty q) :
    pushes.length ≤ n := by
  apply List.getElem?_eq_none_iff.mp
  exact Option.toList_eq_nil_iff.mp (send_waits h)

theorem scatterRank_push (taskWeight : J → ℕ) {q : Chan κ} {m : q.Msg J} {next : ℕ}
    (ha : .push q m next ∈ @scatterActions κ J μ pushes n) :
    sendRank taskWeight (pushes.map Prod.snd) next + WorkerCode.weight taskWeight q m <
      sendRank taskWeight (pushes.map Prod.snd) n := by
  apply sendRank_push taskWeight _ ha
  intro e he
  rw [List.getElem?_map, Option.mem_toList.mp he]
  rfl

end Scatter

end WaterMark.Maps
