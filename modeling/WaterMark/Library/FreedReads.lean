import WaterMark.Library.Attempts

/-! # Threads that read what others may free

The threads of a program use shared objects whose fields are at hand in their local
states. Here they read the fields from memory, each read a step of its own. An object
that nobody writes to gives the field at hand as long as it is not freed; the read of a
freed one finds anything. Until a read has, a run is one of the program itself.
-/

namespace ChannelNetwork

variable {T Q R : Type*} {M : Q → Type*} {σ : T → Type*} {μ : Type*}

/-- The reads that threads make when they come to a local state, before their next
action; which memory is freed; and the local state after a read of freed memory. -/
structure Reads (σ : T → Type*) (μ R : Type*) where
  upon : (t : T) → σ t → List R
  freed : μ → R → Bool
  found : (t : T) → μ → R → σ t → σ t

/-- The memory, with the reads so far that have found freed memory. -/
structure Watched (μ R : Type*) where
  mem : μ
  stale : List R

def Reads.read (D : Reads σ μ R) (t : T) (x : σ t) (r : R) (rest : List R) (w : Watched μ R) :
    (σ t × List R) × Watched μ R :=
  if D.freed w.mem r then ((D.found t w.mem r x, rest), { w with stale := w.stale ++ [r] })
  else ((x, rest), w)

/-- An action, then the reads that the next local state asks for. -/
def Action.reading {σ : Type*} (upon : σ → List R) :
    Action M σ μ → Action M (σ × List R) (Watched μ R)
  | .pop q next => .pop q fun m => (next m, upon (next m))
  | .push q m next => .push q m (next, upon next)
  | .work f => .work fun w =>
    (((f w.mem).1, upon (f w.mem).1), { w with mem := (f w.mem).2 })

/-- The threads make their reads, one by one, before each action. -/
def Program.reading (P : Program T M σ μ) (D : Reads σ μ R) :
    Program T M (fun t => σ t × List R) (Watched μ R) where
  start t := (P.start t, D.upon t (P.start t))
  actions t
    | (x, []) => (P.actions t x).map (Action.reading (D.upon t))
    | (x, r :: rest) => [.work (D.read t x r rest)]

def State.unread (s : State T M (fun t => σ t × List R) (Watched μ R)) : State T M σ μ :=
  ⟨fun t => (s.loc t).1, s.queue, s.mem.mem, s.pushed, s.popped⟩

section Actions
variable {P : Program T M σ μ} {D : Reads σ μ R} {t : T} {x : σ t × List R} {q : Q}

theorem pop_reading {next : M q → σ t × List R} (ha : .pop q next ∈ (P.reading D).actions t x) :
    x.2 = [] ∧ ∃ next', .pop q next' ∈ P.actions t x.1 ∧
      next = fun m => (next' m, D.upon t (next' m)) := by
  obtain ⟨x, todo⟩ := x
  cases todo with
  | nil =>
    obtain ⟨a, hmem, he⟩ := List.mem_map.mp ha
    cases a with
    | pop q next' =>
      cases he
      exact ⟨rfl, next', hmem, rfl⟩
    | push | work => cases he
  | cons r rest => cases List.mem_singleton.mp ha

theorem push_reading {m : M q} {next : σ t × List R}
    (ha : .push q m next ∈ (P.reading D).actions t x) :
    x.2 = [] ∧ ∃ next', .push q m next' ∈ P.actions t x.1 ∧ next = (next', D.upon t next') := by
  obtain ⟨x, todo⟩ := x
  cases todo with
  | nil =>
    obtain ⟨a, hmem, he⟩ := List.mem_map.mp ha
    cases a with
    | push q m next' =>
      cases he
      exact ⟨rfl, next', hmem, rfl⟩
    | pop | work => cases he
  | cons r rest => cases List.mem_singleton.mp ha

theorem work_reading {f : Watched μ R → (σ t × List R) × Watched μ R}
    (ha : .work f ∈ (P.reading D).actions t x) :
    (x.2 = [] ∧ ∃ f', .work f' ∈ P.actions t x.1 ∧ f = fun w =>
      (((f' w.mem).1, D.upon t (f' w.mem).1), { w with mem := (f' w.mem).2 })) ∨
    ∃ r rest, x.2 = r :: rest ∧ f = D.read t x.1 r rest := by
  obtain ⟨x, todo⟩ := x
  cases todo with
  | nil =>
    obtain ⟨a, hmem, he⟩ := List.mem_map.mp ha
    cases a with
    | work f' =>
      cases he
      exact .inl ⟨rfl, f', hmem, rfl⟩
    | pop | push => cases he
  | cons r rest =>
    cases List.mem_singleton.mp ha
    exact .inr ⟨r, rest, rfl, rfl⟩

theorem Reads.read_fst (r : R) (rest : List R) (x : σ t) (w : Watched μ R) :
    (D.read t x r rest w).1 = (if D.freed w.mem r then D.found t w.mem r x else x, rest) := by
  rw [Reads.read]
  split_ifs <;> rfl

theorem Reads.read_mem (r : R) (rest : List R) (x : σ t) (w : Watched μ R) :
    (D.read t x r rest w).2.mem = w.mem := by
  rw [Reads.read]
  split_ifs <;> rfl

theorem Reads.stale_read {r : R} {rest : List R} {x : σ t} {w : Watched μ R}
    (h : (D.read t x r rest w).2.stale = []) :
    D.freed w.mem r = false ∧ D.read t x r rest w = ((x, rest), w) := by
  unfold Reads.read at h ⊢
  split_ifs at h ⊢ with hfreed
  · simp at h
  · exact ⟨Bool.not_eq_true _ ▸ hfreed, rfl⟩

end Actions

variable [DecidableEq T]

section Unread
variable {s : State T M (fun t => σ t × List R) (Watched μ R)} {t : T} {q : Q} {m : M q}
  {x : σ t × List R}

theorem fst_update {loc : (t : T) → σ t × List R} (t : T) (x : σ t × List R) :
    (fun u => (Function.update loc t x u).1) = Function.update (fun u => (loc u).1) t x.1 := by
  funext u
  exact Function.apply_update (fun u (y : σ u × List R) => y.1) loc t x u

theorem unread_work (r : (σ t × List R) × Watched μ R) :
    (s.afterWork t r).unread = s.unread.afterWork t (r.1.1, r.2.mem) := by
  simp only [State.unread, State.afterWork, fst_update]

variable [DecidableEq Q]

theorem unread_pop {rest : List (M q)} :
    (s.afterPop t q m rest x).unread = s.unread.afterPop t q m rest x.1 := by
  simp only [State.unread, State.afterPop, fst_update]

theorem unread_push : (s.afterPush t q m x).unread = s.unread.afterPush t q m x.1 := by
  simp only [State.unread, State.afterPush, fst_update]

end Unread

section Run
variable [DecidableEq Q] {P : Program T M σ μ} {D : Reads σ μ R} {mem : μ}
  {s s' : State T M (fun t => σ t × List R) (Watched μ R)}

/-- A step of the program, or a read. -/
theorem Program.Step.unread (h : (P.reading D).Step s s') (hstale : s'.mem.stale = []) :
    s.mem.stale = [] ∧ (P.Step s.unread s'.unread ∨ s'.unread = s.unread) := by
  cases h with
  | pop t q next m rest ha hq =>
    obtain ⟨-, next', hmem, rfl⟩ := pop_reading ha
    rw [unread_pop]
    exact ⟨hstale, .inl (.pop s.unread t q next' m rest hmem hq)⟩
  | push t q m next ha =>
    obtain ⟨-, next', hmem, rfl⟩ := push_reading ha
    rw [unread_push]
    exact ⟨hstale, .inl (.push s.unread t q m next' hmem)⟩
  | work t f ha =>
    rw [unread_work]
    rcases work_reading ha with ⟨-, f', hmem, rfl⟩ | ⟨r, rest, -, rfl⟩
    · exact ⟨hstale, .inl (.work s.unread t f' hmem)⟩
    · obtain ⟨-, he⟩ := Reads.stale_read hstale
      refine ⟨?_, .inr ?_⟩
      · rw [← hstale, State.afterWork, he]
      · rw [he]
        exact congrArg (fun loc => { s.unread with loc := loc }) (Function.update_eq_self t _)

/-- As long as no read has found freed memory, the run is one of the program. -/
theorem Program.Reachable.unread (h : (P.reading D).Reachable ⟨mem, []⟩ s)
    (hstale : s.mem.stale = []) : P.Reachable mem s.unread := by
  induction h with
  | refl => exact .refl
  | tail _ hstep ih =>
    obtain ⟨hbefore, hact | hsame⟩ := hstep.unread hstale
    · exact (ih hbefore).tail hact
    · rw [hsame]
      exact ih hbefore

theorem Program.Reachable.upon (h : (P.reading D).Reachable ⟨mem, []⟩ s)
    (hstale : s.mem.stale = []) (t : T) : (s.loc t).2 <:+ D.upon t (s.loc t).1 := by
  induction h generalizing t with
  | refl => exact List.suffix_rfl
  | @tail s s' _ hstep ih =>
    have hbefore := ih (hstep.unread hstale).1
    have hmove {u : T} {x : σ u × List R} (hx : x.2 <:+ D.upon u x.1) :
        (Function.update s.loc u x t).2 <:+ D.upon t (Function.update s.loc u x t).1 := by
      by_cases htu : t = u
      · subst htu
        rwa [Function.update_self]
      · rw [Function.update_of_ne htu]
        exact hbefore t
    cases hstep with
    | pop u q next m rest ha hq =>
      obtain ⟨-, next', -, rfl⟩ := pop_reading ha
      exact hmove List.suffix_rfl
    | push u q m next ha =>
      obtain ⟨-, next', -, rfl⟩ := push_reading ha
      exact hmove List.suffix_rfl
    | work u f ha =>
      rcases work_reading ha with ⟨-, f', -, rfl⟩ | ⟨r, rest, htodo, rfl⟩
      · exact hmove List.suffix_rfl
      · obtain ⟨-, he⟩ := Reads.stale_read hstale
        have hu := hbefore u
        rw [htodo] at hu
        simp only [State.afterWork, he]
        exact hmove ((List.suffix_cons r rest).trans hu)

/-- When the objects of a local state are not freed in any run of the program, no read
finds freed memory. -/
theorem Program.Reachable.stale_eq_nil
    (hsafe : ∀ s, P.Reachable mem s → ∀ t, ∀ r ∈ D.upon t (s.loc t), D.freed s.mem r = false)
    (h : (P.reading D).Reachable ⟨mem, []⟩ s) : s.mem.stale = [] := by
  induction h with
  | refl => rfl
  | @tail s s' hrun hstep ih =>
    cases hstep with
    | pop t q next m rest ha hq => exact ih
    | push t q m next ha => exact ih
    | work t f ha =>
      rcases work_reading ha with ⟨-, f', -, rfl⟩ | ⟨r, rest, htodo, rfl⟩
      · exact ih
      · have hle := Reachable.upon hrun ih t
        rw [htodo] at hle
        have hr := hsafe _ (Reachable.unread hrun ih) t r (hle.subset List.mem_cons_self)
        change D.freed s.mem.mem r = false at hr
        simpa [State.afterWork, Reads.read, hr] using ih

theorem Program.Terminal.unread (h : (P.reading D).Terminal s) : P.Terminal s.unread := by
  have hnil (t : T) : s.loc t = ((s.loc t).1, []) := by
    cases hx : s.loc t with
    | mk x todo =>
      cases todo with
      | nil => rfl
      | cons r rest =>
        have hread : .work (D.read t x r rest) ∈ (P.reading D).actions t (s.loc t) := by
          rw [hx]
          exact List.mem_singleton_self _
        exact absurd (.work s t _ hread) (h _)
  have hmem {t : T} {a : Action M (σ t) μ} (ha : a ∈ P.actions t (s.unread.loc t)) :
      a.reading (D.upon t) ∈ (P.reading D).actions t (s.loc t) := by
    rw [hnil t]
    exact List.mem_map_of_mem ha
  intro s' hstep
  cases hstep with
  | pop t q next m rest ha hq => exact h _ (.pop s t q _ m rest (hmem ha) hq)
  | push t q m next ha => exact h _ (.push s t q m _ (hmem ha))
  | work t f ha => exact h _ (.work s t _ (hmem ha))

end Run

/-! ## The reads come to an end -/

omit [DecidableEq T] in
/-- Each step of the program pays for the reads after it. -/
theorem Ranking.reading {P : Program T M σ μ} {D : Reads σ μ R} {rank : (t : T) → σ t → ℕ}
    {weight : (q : Q) → M q → ℕ} {Qs : Finset Q} (hR : Ranking P rank weight Qs) (bound : ℕ)
    (hupon : ∀ t x, (D.upon t x).length ≤ bound)
    (hfound : ∀ t mem r x, rank t (D.found t mem r x) ≤ rank t x) :
    Ranking (P.reading D) (fun t x => (bound + 1) * rank t x.1 + x.2.length)
      (fun q m => (bound + 1) * weight q m) Qs where
  pop t x q next m ha := by
    obtain ⟨hnil, next', hmem, rfl⟩ := pop_reading ha
    obtain ⟨hq, hlt⟩ := hR.pop t x.1 q next' m hmem
    refine ⟨hq, ?_⟩
    have hle := hupon t (next' m)
    have hmul := Nat.mul_le_mul_left (bound + 1) (Nat.succ_le_of_lt hlt)
    rw [Nat.mul_succ, Nat.mul_add] at hmul
    simp only [hnil, List.length_nil]
    omega
  push t x q m next ha := by
    obtain ⟨hnil, next', hmem, rfl⟩ := push_reading ha
    obtain ⟨hq, hlt⟩ := hR.push t x.1 q m next' hmem
    refine ⟨hq, ?_⟩
    have hle := hupon t next'
    have hmul := Nat.mul_le_mul_left (bound + 1) (Nat.succ_le_of_lt hlt)
    rw [Nat.mul_succ, Nat.mul_add] at hmul
    simp only [hnil, List.length_nil]
    omega
  work t x w f ha := by
    rcases work_reading ha with ⟨hnil, f', hmem, rfl⟩ | ⟨r, rest, htodo, rfl⟩
    · have hlt := hR.work t x.1 w.mem f' hmem
      have hle := hupon t (f' w.mem).1
      have hmul := Nat.mul_le_mul_left (bound + 1) (Nat.succ_le_of_lt hlt)
      rw [Nat.mul_succ] at hmul
      simp only [hnil, List.length_nil]
      omega
    · have hle := Nat.mul_le_mul_left (bound + 1) (hfound t w.mem r x.1)
      simp only [htodo, List.length_cons, Reads.read]
      split_ifs
      · simp only
        omega
      · simp only
        omega

/-! ## Links and attempts -/

omit [DecidableEq T] in
theorem OneToOne.reading {P : Program T M σ μ} {sender receiver : Q → T}
    (hP : OneToOne P sender receiver) (D : Reads σ μ R) :
    OneToOne (P.reading D) sender receiver where
  push t x q value next ha := by
    obtain ⟨-, next', hmem, -⟩ := push_reading ha
    exact hP.push t x.1 q value next' hmem
  pop t x q next ha := by
    obtain ⟨-, next', hmem, -⟩ := pop_reading ha
    exact hP.pop t x.1 q next' hmem

omit [DecidableEq T] in
theorem Program.reading_attempts (P : Program T M σ μ) (D : Reads σ μ R) {fixedsize : Q → Bool}
    {failed : (t : T) → σ t → σ t}
    (hfailed : ∀ t x, (∃ a ∈ P.actions t x, a.fails fixedsize = true) →
      D.upon t (failed t x) = []) :
    (P.reading D).attempts fixedsize (fun t x => (failed t x.1, x.2)) =
      (P.attempts fixedsize failed).reading D := by
  have hfails (upon : (t : T) → σ t → List R) (t : T) (l : List (Action M (σ t) μ)) :
      (l.map (Action.reading (upon t))).any (Action.fails fixedsize) =
        l.any (Action.fails fixedsize) := by
    rw [List.any_map]
    congr 1
    funext a
    cases a <;> rfl
  have hactions : ((P.reading D).attempts fixedsize (fun t x => (failed t x.1, x.2))).actions =
      ((P.attempts fixedsize failed).reading D).actions := by
    funext t x
    obtain ⟨x, todo⟩ := x
    cases todo with
    | cons r rest => rfl
    | nil =>
      change (P.actions t x).map _ ++ _ = (P.actions t x ++ _).map _
      rw [List.map_append, Program.reading, hfails]
      by_cases hany : (P.actions t x).any (Action.fails fixedsize) = true
      · rw [if_pos hany, if_pos hany, List.map_singleton]
        simp only [Action.reading, hfailed t x (List.any_eq_true.mp hany)]
      · rw [if_neg hany, if_neg hany, List.map_nil]
  exact congrArg (Program.mk (P.reading D).start) hactions

end ChannelNetwork
