import WaterMark.FastFlow.ChannelRuns
import WaterMark.Library.FairRuns

/-! # Fair runs on lock-free channels

The nodes of a fair run on lock-free channels come to their ends. As long as nothing
is stored, cleared or done, a node that finds no full or empty channel wherever its
failures have brought it ends its call, and does not fail in the next one.
-/

namespace WaterMark.FastFlow.Channels
open ChannelNetwork Swsr FairRuns
open Unbounded (WriterStep ReaderStep)

variable {T Q : Type*} {M : Q → Type*} {σ : T → Type*} {μ : Type*}
  {P : Program T M σ μ} {size : Q → ℕ} {fixedsize : Q → Bool} {failed : (t : T) → σ t → σ t}
  {sender receiver : Q → T} {s s' : SystemState T M σ μ} {t u : T} {q : Q} {mem : μ}
  [DecidableEq T] [DecidableEq Q]

/-! ## The accesses of the other nodes -/

theorem NodeStep.pc_of_ne (hstep : NodeStep P size fixedsize failed s u s') (hne : t ≠ u) :
    s'.pc t = s.pc t := by
  cases hstep <;> first | rfl | exact Function.update_of_ne hne ..

section Others
variable (hP : OneToOne P sender receiver) (hsize : ∀ q, 0 < size q)
  (hstep : NodeStep P size fixedsize failed s u s')
  (h : CallsFit P size fixedsize sender receiver s)
include hP hstep h

theorem NodeStep.chan (q : Q) : s'.chan q = s.chan q ∨
    u = sender q ∧ WriterStep (size q) (fixedsize q) (s.chan q) (s'.chan q) ∨
    u = receiver q ∧ ReaderStep (size q) (s.chan q) (s'.chan q) := by
  have hwriter {r : Q} {b : Unbounded.State (M r)} (hu : u = sender r)
      (hw : WriterStep (size r) (fixedsize r) (s.chan r) b) :
      Function.update s.chan r b q = s.chan q ∨
        u = sender q ∧ WriterStep (size q) (fixedsize q) (s.chan q)
          (Function.update s.chan r b q) ∨
        u = receiver q ∧ ReaderStep (size q) (s.chan q) (Function.update s.chan r b q) := by
    by_cases hqr : q = r
    · subst hqr
      rw [Function.update_self]
      exact .inr (.inl ⟨hu, hw⟩)
    · exact .inl (Function.update_of_ne hqr ..)
  have hreader {r : Q} {b : Unbounded.State (M r)} (hu : u = receiver r)
      (hr : ReaderStep (size r) (s.chan r) b) :
      Function.update s.chan r b q = s.chan q ∨
        u = sender q ∧ WriterStep (size q) (fixedsize q) (s.chan q)
          (Function.update s.chan r b q) ∨
        u = receiver q ∧ ReaderStep (size q) (s.chan q) (Function.update s.chan r b q) := by
    by_cases hqr : q = r
    · subst hqr
      rw [Function.update_self]
      exact .inr (.inr ⟨hu, hr⟩)
    · exact .inl (Function.update_of_ne hqr ..)
  have hsends := h.sends u
  have hreceives := h.receives u
  cases hstep with
  | callPush r value next hpc ha =>
    have hu := hP.push u _ r value next ha
    exact hwriter hu (.call _ value (h.writer_idle hu hpc))
  | push r value next b hpc hpush => exact hwriter (hsends r (by rw [hpc]; rfl)) hpush
  | pushFailed r value next b hpc hpush => exact hwriter (hsends r (by rw [hpc]; rfl)) hpush
  | store r value v next b hpc hpush => exact hwriter (hsends r (by rw [hpc]; rfl)) hpush
  | leavePush r b hpc hpush => exact hwriter (hsends r (by rw [hpc]; rfl)) hpush
  | returnPush r b hpc hpush => exact hwriter (hsends r (by rw [hpc]; rfl)) hpush
  | callPop r next hpc ha =>
    have hu := hP.pop u _ r next ha
    exact hreader hu (.call _ (h.reader_idle hu hpc))
  | pop r next b hpc hpop => exact hreader (hreceives r (by rw [hpc]; rfl)) hpop
  | popFailed r next b hpc hpop => exact hreader (hreceives r (by rw [hpc]; rfl)) hpop
  | clear r next v b hpc hpop => exact hreader (hreceives r (by rw [hpc]; rfl)) hpop
  | leavePop r b hpc hpop => exact hreader (hreceives r (by rw [hpc]; rfl)) hpop
  | returnPop r b hpc hpop => exact hreader (hreceives r (by rw [hpc]; rfl)) hpop
  | work f hpc ha => exact .inl rfl

include hsize

theorem NodeStep.rank_of_ne (hne : t ≠ u) :
    (s'.pc t).rank s'.chan = (s.pc t).rank s.chan := by
  have hwriter (q : Q) (hpush : (s.pc t).Pushes q) :
      (s'.chan q).writerPlace = (s.chan q).writerPlace := by
    rcases hstep.chan hP h q with hsame | ⟨hu, -⟩ | ⟨-, hr⟩
    · rw [hsame]
    · exact absurd ((h.sends t q hpush).trans hu.symm) hne
    · obtain ⟨pre, hq⟩ := (h.reachable q).inv (hsize q)
      exact hr.writerPlace_eq hq
  have hreader (q : Q) (hpop : (s.pc t).Pops q) :
      (s'.chan q).readerPlace = (s.chan q).readerPlace := by
    rcases hstep.chan hP h q with hsame | ⟨-, hw⟩ | ⟨hu, -⟩
    · rw [hsame]
    · exact hw.readerPlace_eq
    · exact absurd ((h.receives t q hpop).trans hu.symm) hne
  rw [hstep.pc_of_ne hne]
  cases ht : s.pc t with
  | outside => rfl
  | pushing q | pushed q => exact congrArg Unbounded.pushRank (hwriter q (by rw [ht]; rfl))
  | popping q | popped q => exact congrArg Unbounded.popRank (hreader q (by rw [ht]; rfl))

/-- No access of any node brings a call further from its end. -/
theorem NodeStep.rank_le (hpc : s.pc t ≠ .outside) :
    (s'.pc t).rank s'.chan ≤ (s.pc t).rank s.chan := by
  by_cases htu : t = u
  · subst htu
    exact (hstep.rank_lt h hpc).le
  · exact (hstep.rank_of_ne hP hsize h htu).le

theorem NodeStep.sure_of_ne (hne : t ≠ u) (hqueue : s'.atomic.queue = s.atomic.queue)
    (hsure : (s.pc t).Sure fixedsize s.chan) : (s'.pc t).Sure fixedsize s'.chan := by
  have hcontents (q : Q) : (s'.chan q).contents = (s.chan q).contents := congrFun hqueue q
  rw [hstep.pc_of_ne hne]
  cases ht : s.pc t with
  | pushing q value next =>
    rw [ht] at hsure
    exact fun hfixed => (hcontents q).trans (hsure hfixed)
  | popping q next =>
    have hreceives : t = receiver q := h.receives t q (by rw [ht]; rfl)
    rw [ht] at hsure
    obtain ⟨hsearch, hvalue⟩ := hsure
    refine ⟨?_, by rwa [hcontents]⟩
    rcases hstep.chan hP h q with hsame | ⟨-, hw⟩ | ⟨hu, -⟩
    · rwa [hsame]
    · obtain ⟨pre, hq⟩ := (h.reachable q).inv (hsize q)
      exact hw.searching hq hsearch
    · exact absurd (hreceives.trans hu.symm) hne
  | outside | pushed | popped =>
    rw [ht] at hsure
    exact hsure.elim

end Others

/-! ## Progress -/

/-- Wherever its failures bring it, the node finds no full or empty channel. -/
def Busy (P : Program T M σ μ) (fixedsize : Q → Bool) (failed : (t : T) → σ t → σ t)
    (queue : (q : Q) → List (M q)) (t : T) (x : σ t) : Prop :=
  ∃ places : Set (σ t), x ∈ places ∧ ∀ y ∈ places, failed t y ∈ places ∧
    P.actions t y ≠ [] ∧ ∀ a ∈ P.actions t y, Goes fixedsize queue a

omit [DecidableEq T] [DecidableEq Q] in
theorem Busy.of_action {queue : (q : Q) → List (M q)} {x : σ t} {a : Action M (σ t) μ}
    (ha : P.actions t x = [a]) (hfailed : failed t x = x) (hgoes : Goes fixedsize queue a) :
    Busy P fixedsize failed queue t x := by
  refine ⟨{x}, rfl, ?_⟩
  rintro y rfl
  refine ⟨hfailed, by rw [ha]; exact List.cons_ne_nil _ _, fun b hb => ?_⟩
  rw [ha] at hb
  rwa [List.mem_singleton.mp hb]

/-- The accesses to the end of the call, or of the next one. -/
def CallPc.toGo (chan : (q : Q) → Unbounded.State (M q)) {σ : Type*} : CallPc M σ → ℕ
  | .outside => 12
  | x => x.rank chan

omit [DecidableEq T] [DecidableEq Q] in
theorem CallPc.toGo_of_ne {chan : (q : Q) → Unbounded.State (M q)} {σ : Type*}
    {x : CallPc M σ} (hx : x ≠ .outside) : x.toGo chan = x.rank chan := by
  cases x with
  | outside => exact absurd rfl hx
  | _ => rfl

omit [DecidableEq T] [DecidableEq Q] in
theorem CallPc.Sure.ne_outside {chan : (q : Q) → Unbounded.State (M q)} {σ : Type*}
    {x : CallPc M σ} (h : x.Sure fixedsize chan) : x ≠ .outside := by
  rintro rfl
  exact h

theorem exists_step_of_actions (hpc : s.pc t = .outside) (hne : P.actions t (s.loc t) ≠ []) :
    ∃ s', NodeStep P size fixedsize failed s t s' := by
  obtain ⟨a, ha⟩ := List.exists_mem_of_ne_nil _ hne
  cases a with
  | pop q next => exact ⟨_, .callPop s t q next hpc ha⟩
  | push q value next => exact ⟨_, .callPush s t q value next hpc ha⟩
  | work f => exact ⟨_, .work s t f hpc ha⟩

section Ranking
variable [Fintype T] {rank : (t : T) → σ t → ℕ} {weight : (q : Q) → M q → ℕ} {Qs : Finset Q}
  (hR : Ranking P rank weight Qs) (hfailed : ∀ t x, rank t (failed t x) ≤ rank t x)
  (hP : OneToOne P sender receiver) (hsize : ∀ q, 0 < size q)

/-- No energy is spent since the queues were `queue`, and the node is where its
failures can have brought it. -/
structure Stays (P : Program T M σ μ) (size : Q → ℕ) (fixedsize : Q → Bool)
    (sender receiver : Q → T) (rank : (t : T) → σ t → ℕ) (weight : (q : Q) → M q → ℕ)
    (Qs : Finset Q) (t : T) (places : Set (σ t)) (queue : (q : Q) → List (M q)) (bound : ℕ)
    (s : SystemState T M σ μ) : Prop where
  callsFit : CallsFit P size fixedsize sender receiver s
  le : energy rank weight Qs s.atomic ≤ bound
  queue_eq : s.atomic.queue = queue
  mem : s.loc t ∈ places

section Progress
variable {places : Set (σ t)} {queue : (q : Q) → List (M q)} {bound : ℕ}
  (hplaces : ∀ y ∈ places, failed t y ∈ places ∧
    P.actions t y ≠ [] ∧ ∀ a ∈ P.actions t y, Goes fixedsize queue a)
include hR hfailed hP hsize hplaces

/-- An access spends energy, or the node stays busy. -/
theorem Stays.step
    (h : Stays P size fixedsize sender receiver rank weight Qs t places queue bound s)
    (hstep : NodeStep P size fixedsize failed s u s') :
    energy rank weight Qs s'.atomic < bound ∨
      Stays P size fixedsize sender receiver rank weight Qs t places queue bound s' := by
  have hle := h.le
  have hcalls := hstep.callsFit hP hsize h.callsFit
  rcases hstep.atomic hP hsize h.callsFit with hattempt | hsame
  · rcases hattempt.act_or_failed with hact | ⟨hqueue, hloc⟩
    · exact .inl ((hR.energy_lt hact).trans_le hle)
    · refine .inr ⟨hcalls, (hattempt.energy_le hR hfailed).trans hle, hqueue.trans h.queue_eq, ?_⟩
      change s'.atomic.loc t ∈ places
      rcases hloc t with hsame | hfail
      · rw [hsame]
        exact h.mem
      · rw [hfail]
        exact (hplaces _ h.mem).1
  · have hloc : s'.loc = s.loc := congrArg State.loc hsame
    exact .inr ⟨hcalls, hsame ▸ hle, hsame ▸ h.queue_eq, hloc ▸ h.mem⟩

omit hfailed in
theorem Stays.own
    (h : Stays P size fixedsize sender receiver rank weight Qs t places queue bound s)
    (hcall : s.pc t = .outside ∨ (s.pc t).Sure fixedsize s.chan)
    (hstep : NodeStep P size fixedsize failed s t s') :
    energy rank weight Qs s'.atomic < bound ∨
      (s'.pc t).Sure fixedsize s'.chan ∧ (s'.pc t).toGo s'.chan < (s.pc t).toGo s.chan := by
  rcases hcall with hout | hsure
  · have hgoes := (hplaces _ h.mem).2.2
    rw [← h.queue_eq] at hgoes
    rcases hstep.of_goes hP h.callsFit hout hgoes with hact | ⟨-, hsure⟩
    · exact .inl ((hR.energy_lt hact).trans_le h.le)
    · refine .inr ⟨hsure, ?_⟩
      rw [hout, CallPc.toGo_of_ne hsure.ne_outside]
      exact Nat.lt_succ_of_le (CallPc.rank_le _ _)
  · rcases hstep.of_sure hP hsize h.callsFit hsure with hact | ⟨-, hsure'⟩
    · exact .inl ((hR.energy_lt hact).trans_le h.le)
    · refine .inr ⟨hsure', ?_⟩
      rw [CallPc.toGo_of_ne hsure.ne_outside, CallPc.toGo_of_ne hsure'.ne_outside]
      exact hstep.rank_lt h.callsFit hsure.ne_outside

/-- A fair run leaves a call that is not sure. -/
theorem exists_outside {r : ℕ → SystemState T M σ μ} {n : ℕ}
    (hfair : FairRun (NodeStep P size fixedsize failed) r)
    (h : Stays P size fixedsize sender receiver rank weight Qs t places queue bound (r n)) :
    ∃ m ≥ n, energy rank weight Qs (r m).atomic < bound ∨
      Stays P size fixedsize sender receiver rank weight Qs t places queue bound (r m) ∧
        (r m).pc t = .outside := by
  by_cases hout : (r n).pc t = .outside
  · exact ⟨n, le_rfl, .inr ⟨h, hout⟩⟩
  refine hfair.exists_goal t
    (fun s => Stays P size fixedsize sender receiver rank weight Qs t places queue bound s ∧
      s.pc t ≠ .outside)
    (fun s => (s.pc t).rank s.chan)
    (fun s => energy rank weight Qs s.atomic < bound ∨
      Stays P size fixedsize sender receiver rank weight Qs t places queue bound s ∧
        s.pc t = .outside)
    ?_ (fun s hs => hs.1.callsFit.exists_step hsize hs.2)
    (fun s s' hs hstep => .inr (hstep.rank_lt hs.1.callsFit hs.2)) ⟨h, hout⟩
  rintro s u s' ⟨hs, hpc⟩ hstep
  rcases hs.step hR hfailed hP hsize hplaces hstep with hlt | hs'
  · exact .inl (.inl hlt)
  · by_cases hout' : s'.pc t = .outside
    · exact .inl (.inr ⟨hs', hout'⟩)
    · exact .inr ⟨⟨hs', hout'⟩, hstep.rank_le hP hsize hs.callsFit hpc⟩

/-- From there on the next call is sure, and spends energy. -/
theorem exists_spent {r : ℕ → SystemState T M σ μ} {n : ℕ}
    (hfair : FairRun (NodeStep P size fixedsize failed) r)
    (h : Stays P size fixedsize sender receiver rank weight Qs t places queue bound (r n))
    (hout : (r n).pc t = .outside) : ∃ m ≥ n, energy rank weight Qs (r m).atomic < bound := by
  refine hfair.exists_goal t
    (fun s => Stays P size fixedsize sender receiver rank weight Qs t places queue bound s ∧
      (s.pc t = .outside ∨ (s.pc t).Sure fixedsize s.chan))
    (fun s => (s.pc t).toGo s.chan) (fun s => energy rank weight Qs s.atomic < bound)
    ?_ ?_ ?_ ⟨h, .inl hout⟩
  · rintro s u s' ⟨hs, hcall⟩ hstep
    rcases hs.step hR hfailed hP hsize hplaces hstep with hlt | hs'
    · exact .inl hlt
    · by_cases htu : t = u
      · subst htu
        rcases hs.own hR hP hsize hplaces hcall hstep with hlt | ⟨hsure, hlt⟩
        · exact .inl hlt
        · exact .inr ⟨⟨hs', .inr hsure⟩, hlt.le⟩
      · have hpc := hstep.pc_of_ne htu
        rcases hcall with hout | hsure
        · rw [hpc]
          exact .inr ⟨⟨hs', .inl hout⟩, by rw [hout]; exact le_rfl⟩
        · have hqueue := hs'.queue_eq.trans hs.queue_eq.symm
          have hsure' := hstep.sure_of_ne hP hsize hs.callsFit htu hqueue hsure
          refine .inr ⟨⟨hs', .inr hsure'⟩, ?_⟩
          rw [CallPc.toGo_of_ne hsure.ne_outside, CallPc.toGo_of_ne hsure'.ne_outside]
          exact (hstep.rank_of_ne hP hsize hs.callsFit htu).le
  · rintro s ⟨hs, hout | hsure⟩
    · exact exists_step_of_actions hout (hplaces _ hs.mem).2.1
    · exact hs.callsFit.exists_step hsize hsure.ne_outside
  · rintro s s' ⟨hs, hcall⟩ hstep
    exact (hs.own hR hP hsize hplaces hcall hstep).imp_right And.right

end Progress

section Run
variable {r : ℕ → SystemState T M σ μ} {n : ℕ}
  (hfair : FairRun (NodeStep P size fixedsize failed) r)
include hR hfailed hP hsize hfair

/-- A busy node of a fair run spends energy. -/
theorem exists_energy_lt (hcalls : CallsFit P size fixedsize sender receiver (r n))
    (hbusy : Busy P fixedsize failed (r n).atomic.queue t ((r n).loc t)) :
    ∃ m ≥ n, energy rank weight Qs (r m).atomic < energy rank weight Qs (r n).atomic := by
  obtain ⟨places, hmem, hplaces⟩ := hbusy
  obtain ⟨m, hm, hlt | ⟨hstays, hout⟩⟩ :=
    exists_outside hR hfailed hP hsize hplaces hfair ⟨hcalls, le_rfl, rfl, hmem⟩
  · exact ⟨m, hm, hlt⟩
  · obtain ⟨k, hk, hlt⟩ := exists_spent hR hfailed hP hsize hplaces hfair hstays hout
    exact ⟨k, hm.trans hk, hlt⟩

variable (hbusy : ∀ s, (P.attempts fixedsize failed).Reachable mem s →
    (∃ t, P.actions t (s.loc t) ≠ []) → ∃ t, Busy P fixedsize failed s.queue t (s.loc t))
  (h : SystemReachable P size fixedsize failed mem (r n))
include hbusy h

theorem exists_actions_nil : ∃ m ≥ n, ∀ t, P.actions t ((r m).loc t) = [] := by
  induction hE : energy rank weight Qs (r n).atomic using Nat.strong_induction_on
    generalizing n with
  | _ k ih =>
    by_cases hnil : ∀ t, P.actions t ((r n).loc t) = []
    · exact ⟨n, le_rfl, hnil⟩
    · obtain ⟨t, hbusy⟩ := hbusy _ (SystemReachable.atomic hP hsize h) (not_forall.mp hnil)
      obtain ⟨m, hm, hlt⟩ := exists_energy_lt hR hfailed hP hsize hfair
        (SystemReachable.callsFit hP hsize h) hbusy
      obtain ⟨m', hm', hnil⟩ := ih _ (hE ▸ hlt) (h.trans (hfair.run hm)) rfl
      exact ⟨m', hm.trans hm', hnil⟩

end Run

end Ranking

/-! ## The last calls -/

theorem NodeStep.still (hstep : NodeStep P size fixedsize failed s u s')
    (h : CallsFit P size fixedsize sender receiver s) (hnil : ∀ t, P.actions t (s.loc t) = []) :
    s'.loc = s.loc ∧ ∀ t, s.pc t = .outside → s'.pc t = .outside := by
  have hdone := h.allowed u
  have hu := hnil u
  rw [hu] at hdone
  have hreturn (t : T) (ht : s.pc t = .outside) :
      Function.update s.pc u .outside t = .outside := by
    by_cases htu : t = u
    · subst htu
      exact Function.update_self ..
    · rwa [Function.update_of_ne htu]
  cases hstep with
  | callPush q value next hpc ha => rw [hu] at ha; cases ha
  | push q value next b hpc => exact ⟨rfl, fun _ => id⟩
  | pushFailed q value next b hpc => rw [hpc] at hdone; cases hdone
  | store q value v next b hpc => rw [hpc] at hdone; cases hdone
  | leavePush q b hpc => exact ⟨rfl, fun _ => id⟩
  | returnPush q b hpc => exact ⟨rfl, hreturn⟩
  | callPop q next hpc ha => rw [hu] at ha; cases ha
  | pop q next b hpc => exact ⟨rfl, fun _ => id⟩
  | popFailed q next b hpc => rw [hpc] at hdone; cases hdone
  | clear q next v b hpc => rw [hpc] at hdone; cases hdone
  | leavePop q b hpc => exact ⟨rfl, fun _ => id⟩
  | returnPop q b hpc => exact ⟨rfl, hreturn⟩
  | work f hpc ha => rw [hu] at ha; cases ha

section Last
variable (hP : OneToOne P sender receiver) (hsize : ∀ q, 0 < size q)
  {r : ℕ → SystemState T M σ μ} {n : ℕ} (hfair : FairRun (NodeStep P size fixedsize failed) r)
include hP hsize hfair

/-- One node after the other leaves its last call. -/
theorem exists_left (h : CallsFit P size fixedsize sender receiver (r n))
    (hnil : ∀ t, P.actions t ((r n).loc t) = []) (left : Finset T) :
    ∃ m ≥ n, CallsFit P size fixedsize sender receiver (r m) ∧
      (∀ t, P.actions t ((r m).loc t) = []) ∧ ∀ t ∈ left, (r m).pc t = .outside := by
  induction left using Finset.induction with
  | empty => exact ⟨n, le_rfl, h, hnil, fun t ht => absurd ht (Finset.notMem_empty t)⟩
  | insert t left _ ih =>
    obtain ⟨m, hm, hcalls, hnil, hleft⟩ := ih
    by_cases hout : (r m).pc t = .outside
    · exact ⟨m, hm, hcalls, hnil, Finset.forall_mem_insert .. |>.mpr ⟨hout, hleft⟩⟩
    let I (s : SystemState T M σ μ) : Prop := CallsFit P size fixedsize sender receiver s ∧
      (∀ t, P.actions t (s.loc t) = []) ∧ ∀ t ∈ left, s.pc t = .outside
    have hI {s s' : SystemState T M σ μ} {u : T} (hs : I s)
        (hstep : NodeStep P size fixedsize failed s u s') : I s' := by
      obtain ⟨hcalls, hnil, hleft⟩ := hs
      obtain ⟨hloc, hpc⟩ := hstep.still hcalls hnil
      exact ⟨hstep.callsFit hP hsize hcalls, hloc ▸ hnil, fun t ht => hpc t (hleft t ht)⟩
    have hkeeps (s : SystemState T M σ μ) (u : T) (s' : SystemState T M σ μ)
        (hs : I s ∧ s.pc t ≠ .outside) (hstep : NodeStep P size fixedsize failed s u s') :
        (I s' ∧ s'.pc t = .outside) ∨
          (I s' ∧ s'.pc t ≠ .outside) ∧ (s'.pc t).rank s'.chan ≤ (s.pc t).rank s.chan := by
      have hs' := hI hs.1 hstep
      by_cases hout : s'.pc t = .outside
      · exact .inl ⟨hs', hout⟩
      · exact .inr ⟨⟨hs', hout⟩, hstep.rank_le hP hsize hs.1.1 hs.2⟩
    obtain ⟨k, hk, ⟨hcalls, hnil, hleft⟩, hout⟩ := hfair.exists_goal t
      (fun s => I s ∧ s.pc t ≠ .outside) (fun s => (s.pc t).rank s.chan)
      (fun s => I s ∧ s.pc t = .outside) hkeeps
      (fun s hs => hs.1.1.exists_step hsize hs.2)
      (fun s s' hs hstep => .inr (hstep.rank_lt hs.1.1 hs.2)) ⟨⟨hcalls, hnil, hleft⟩, hout⟩
    exact ⟨k, hm.trans hk, hcalls, hnil, Finset.forall_mem_insert .. |>.mpr ⟨hout, hleft⟩⟩

end Last

section Ends
variable [Fintype T] {rank : (t : T) → σ t → ℕ} {weight : (q : Q) → M q → ℕ} {Qs : Finset Q}
  (hR : Ranking P rank weight Qs) (hfailed : ∀ t x, rank t (failed t x) ≤ rank t x)
  (hP : OneToOne P sender receiver) (hsize : ∀ q, 0 < size q)
  (hbusy : ∀ s, (P.attempts fixedsize failed).Reachable mem s →
    (∃ t, P.actions t (s.loc t) ≠ []) → ∃ t, Busy P fixedsize failed s.queue t (s.loc t))
include hR hfailed hP hsize hbusy

/-- Every fair run comes to its end. -/
theorem fairRun_ended {r : ℕ → SystemState T M σ μ}
    (hfair : FairRun (NodeStep P size fixedsize failed) r)
    (h : SystemReachable P size fixedsize failed mem (r 0)) : ∃ n, (r n).Ended P := by
  obtain ⟨m, hm, hnil⟩ := exists_actions_nil hR hfailed hP hsize hfair hbusy h
  obtain ⟨n, -, -, hnil, hleft⟩ := exists_left hP hsize hfair
    (SystemReachable.callsFit hP hsize (h.trans (hfair.run hm))) hnil Finset.univ
  exact ⟨n, fun t => ⟨hleft t (Finset.mem_univ t), hnil t⟩⟩

theorem SystemReachable.exists_ended [Nonempty T]
    (h : SystemReachable P size fixedsize failed mem s) :
    ∃ s', Relation.ReflTransGen (SystemStep P size fixedsize failed) s s' ∧ s'.Ended P := by
  obtain ⟨r, rfl, hfair⟩ := exists_fairRun (NodeStep P size fixedsize failed) s
  obtain ⟨n, hended⟩ := fairRun_ended hR hfailed hP hsize hbusy hfair h
  exact ⟨r n, hfair.run (Nat.zero_le n), hended⟩

end Ends

end WaterMark.FastFlow.Channels
