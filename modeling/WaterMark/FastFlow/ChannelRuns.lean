import WaterMark.FastFlow.Channels

/-! # The runs on lock-free channels

A run on lock-free channels is a run of threads that try on atomic queues. A call ends
after so many accesses of its node, and one that finds room, or a value, does not fail.
-/

namespace WaterMark.FastFlow.Channels
open ChannelNetwork Swsr
open Unbounded (WriterStep ReaderStep pending Searching pushRank popRank)

variable {T Q : Type*} {M : Q → Type*} {σ : T → Type*} {μ : Type*}
  {P : Program T M σ μ} {size : Q → ℕ} {fixedsize : Q → Bool} {failed : (t : T) → σ t → σ t}
  {sender receiver : Q → T} {s s' : SystemState T M σ μ} {t : T} {q : Q}
  {b : Unbounded.State (M q)} {value : M q} {mem : μ}

section Contents
variable (h : CallsFit P size fixedsize sender receiver s) (hsize : ∀ q, 0 < size q)
include h hsize

theorem CallsFit.contents_push (hstep : WriterStep (size q) (fixedsize q) (s.chan q) b)
    (hsame : b.pushed = (s.chan q).pushed) : b.contents = (s.chan q).contents := by
  obtain ⟨pre, hq⟩ := (h.reachable q).inv (hsize q)
  have hcontents := hstep.contents_append (hsize q) hq (hsame.trans (List.append_nil _).symm)
  exact hcontents.trans (List.append_nil _)

theorem CallsFit.contents_pop (hstep : ReaderStep (size q) (s.chan q) b)
    (hsame : b.popped = (s.chan q).popped) : b.contents = (s.chan q).contents := by
  obtain ⟨pre, hq⟩ := (h.reachable q).inv (hsize q)
  exact (hstep.contents_append (hsize q) hq (hsame.trans (List.append_nil _).symm)).symm

theorem CallsFit.fixedsize_of_failed {next : σ t} (hpc : s.pc t = .pushing q value next)
    (hstep : WriterStep (size q) (fixedsize q) (s.chan q) b) (hidle : b.writer = .idle) :
    fixedsize q = true := by
  obtain ⟨pre, hq⟩ := (h.reachable q).inv (hsize q)
  by_contra hfixed
  exact hstep.ne_idle (hsize q) hq ((h.fits t q).pushing value next hpc) (absurd · hfixed) hidle

end Contents

variable [DecidableEq Q]

theorem contents_update (chan : (q : Q) → Unbounded.State (M q)) :
    (fun r => (Function.update chan q b r).contents) =
      Function.update (fun r => (chan r).contents) q b.contents := by
  funext r
  exact Function.apply_update (fun _ => Unbounded.State.contents) chan q b r

theorem atomic_update_chan (s : SystemState T M σ μ) (pc : (t : T) → CallPc M (σ t))
    (hcontents : b.contents = (s.chan q).contents) :
    { s with pc := pc, chan := Function.update s.chan q b }.atomic = s.atomic := by
  simp only [SystemState.atomic, contents_update, hcontents, Function.update_eq_self]

variable [DecidableEq T]

theorem atomic_failed (s : SystemState T M σ μ) (pc : (t : T) → CallPc M (σ t)) (x : σ t)
    (hcontents : b.contents = (s.chan q).contents) :
    SystemState.atomic { s with
      loc := Function.update s.loc t x, pc := pc, chan := Function.update s.chan q b } =
        s.atomic.afterWork t (x, s.mem) := by
  simp only [SystemState.atomic, State.afterWork, contents_update, hcontents,
    Function.update_eq_self]

/-- An access that stores or clears a value is an action on atomic queues, one that
ends a call in vain a failure, and the others leave the atomic queues as they are. -/
theorem NodeStep.atomic (hP : OneToOne P sender receiver) (hsize : ∀ q, 0 < size q)
    (hstep : NodeStep P size fixedsize failed s t s')
    (h : CallsFit P size fixedsize sender receiver s) :
    P.Attempt fixedsize failed s.atomic s'.atomic ∨ s'.atomic = s.atomic := by
  have hallowed := h.allowed
  cases hstep with
  | callPush q value next hpc ha => exact .inr (atomic_update_chan s _ rfl)
  | push q value next b hpc hpush hsame hrun =>
    exact .inr (atomic_update_chan s s.pc (h.contents_push hsize hpush hsame))
  | pushFailed q value next b hpc hpush hsame hidle =>
    have ha := hallowed t
    rw [hpc] at ha
    rw [atomic_failed s _ _ (h.contents_push hsize hpush hsame)]
    exact .inl (.fail s.atomic t _ ha (h.fixedsize_of_failed hsize hpc hpush hidle))
  | store q value v next b hpc hpush hstored =>
    obtain ⟨pre, hq⟩ := (h.reachable q).inv (hsize q)
    have hcontents := hpush.contents_append (hsize q) hq hstored
    have hv : v = value := by
      rcases h.pushing_step (hsize q) hpc hpush with ⟨hsame, -⟩ | ⟨hvalue, -⟩
      · simp [hsame] at hstored
      · simpa [hvalue] using hstored.symm
    subst hv
    have ha := hallowed t
    rw [hpc] at ha
    left
    convert Program.Attempt.act _ _ (Program.Step.push (P := P) s.atomic t q v next ha) using 1
    simp only [SystemState.atomic, State.afterPush, contents_update, hcontents]
  | leavePush q b hpc hpush hrun =>
    have hsame := (hpush.of_stored ((h.fits t q).pushed hpc)).1
    exact .inr (atomic_update_chan s s.pc (h.contents_push hsize hpush hsame))
  | returnPush q b hpc hpush hidle =>
    have hsame := (hpush.of_stored ((h.fits t q).pushed hpc)).1
    exact .inr (atomic_update_chan s _ (h.contents_push hsize hpush hsame))
  | callPop q next hpc ha =>
    have hidle := h.reader_idle (hP.pop t _ q next ha) hpc
    exact .inr (atomic_update_chan s _ (Unbounded.contents_testing hidle))
  | pop q next b hpc hpop hsame hrun =>
    exact .inr (atomic_update_chan s s.pc (h.contents_pop hsize hpop hsame))
  | popFailed q next b hpc hpop hsame hidle =>
    have ha := hallowed t
    rw [hpc] at ha
    rw [atomic_failed s _ _ (h.contents_pop hsize hpop hsame)]
    exact .inl (.fail s.atomic t _ ha rfl)
  | clear q next v b hpc hpop hcleared =>
    obtain ⟨pre, hq⟩ := (h.reachable q).inv (hsize q)
    have hcontents := hpop.contents_append (hsize q) hq hcleared
    have ha := hallowed t
    rw [hpc] at ha
    left
    convert Program.Attempt.act _ _
      (Program.Step.pop (P := P) s.atomic t q next v b.contents ha hcontents) using 1
    simp only [SystemState.atomic, State.afterPop, contents_update]
  | leavePop q b hpc hpop hrun =>
    have hsame := (hpop.of_cleared ((h.fits t q).popped hpc)).1
    exact .inr (atomic_update_chan s s.pc (h.contents_pop hsize hpop hsame))
  | returnPop q b hpc hpop hidle =>
    have hsame := (hpop.of_cleared ((h.fits t q).popped hpc)).1
    exact .inr (atomic_update_chan s _ (h.contents_pop hsize hpop hsame))
  | work f hpc ha => exact .inl (.act _ _ (.work s.atomic t f ha))

theorem SystemStep.atomic (hP : OneToOne P sender receiver) (hsize : ∀ q, 0 < size q)
    (hstep : SystemStep P size fixedsize failed s s')
    (h : CallsFit P size fixedsize sender receiver s) :
    P.Attempt fixedsize failed s.atomic s'.atomic ∨ s'.atomic = s.atomic := by
  obtain ⟨t, hstep⟩ := hstep
  exact hstep.atomic hP hsize h

theorem SystemReachable.callsFit (hP : OneToOne P sender receiver) (hsize : ∀ q, 0 < size q)
    (h : SystemReachable P size fixedsize failed mem s) :
    CallsFit P size fixedsize sender receiver s := by
  induction h with
  | refl => exact .initial mem
  | tail _ hstep ih => exact hstep.callsFit hP hsize ih

/-- A run on lock-free channels is a run of threads that try on atomic queues. -/
theorem SystemReachable.atomic (hP : OneToOne P sender receiver) (hsize : ∀ q, 0 < size q)
    (h : SystemReachable P size fixedsize failed mem s) :
    (P.attempts fixedsize failed).Reachable mem s.atomic := by
  induction h with
  | refl => exact .refl
  | tail hrun hstep ih =>
    rcases hstep.atomic hP hsize (SystemReachable.callsFit hP hsize hrun) with hact | hsame
    · exact ih.tail hact.step
    · rwa [hsame]

/-! ## The accesses of a node -/

/-- The accesses that are left in a call at the most. -/
def CallPc.rank (chan : (q : Q) → Unbounded.State (M q)) {σ : Type*} : CallPc M σ → ℕ
  | .outside => 0
  | .pushing q _ _ => pushRank (chan q).writerPlace
  | .pushed q => pushRank (chan q).writerPlace
  | .popping q _ => popRank (chan q).readerPlace
  | .popped q => popRank (chan q).readerPlace

omit [DecidableEq T] [DecidableEq Q] in
theorem CallPc.rank_le (chan : (q : Q) → Unbounded.State (M q)) {σ : Type*} (x : CallPc M σ) :
    x.rank chan ≤ 11 := by
  cases x with
  | outside => exact Nat.zero_le 11
  | pushing q | pushed q => exact (Unbounded.pushRank_le _).trans (by decide)
  | popping q | popped q => exact Unbounded.popRank_le _

/-- An access in a call brings its end nearer. -/
theorem NodeStep.rank_lt (hstep : NodeStep P size fixedsize failed s t s')
    (h : CallsFit P size fixedsize sender receiver s) (hpc : s.pc t ≠ .outside) :
    (s'.pc t).rank s'.chan < (s.pc t).rank s.chan := by
  have hfits := h.fits t
  cases hstep with
  | callPush q value next hout ha => exact absurd hout hpc
  | push q value next b ht hpush hsame hrun =>
    have hne := Unbounded.writer_ne_of_pending ((hfits q).pushing value next ht)
    simpa [ht, CallPc.rank] using hpush.pushRank_lt hne
  | pushFailed q value next b ht hpush hsame hidle =>
    have hne := Unbounded.writer_ne_of_pending ((hfits q).pushing value next ht)
    simpa [ht, CallPc.rank] using Nat.zero_lt_of_lt (hpush.pushRank_lt hne)
  | store q value v next b ht hpush hstored =>
    have hne := Unbounded.writer_ne_of_pending ((hfits q).pushing value next ht)
    simpa [ht, CallPc.rank] using hpush.pushRank_lt hne
  | leavePush q b ht hpush hrun =>
    have hne := Unbounded.writer_ne_of_stored ((hfits q).pushed ht)
    simpa [ht, CallPc.rank] using hpush.pushRank_lt hne
  | returnPush q b ht hpush hidle =>
    have hne := Unbounded.writer_ne_of_stored ((hfits q).pushed ht)
    simpa [ht, CallPc.rank] using Nat.zero_lt_of_lt (hpush.pushRank_lt hne)
  | callPop q next hout ha => exact absurd hout hpc
  | pop q next b ht hpop hsame hrun =>
    simpa [ht, CallPc.rank] using hpop.popRank_lt ((hfits q).popping next ht)
  | popFailed q next b ht hpop hsame hidle =>
    have hlt := hpop.popRank_lt ((hfits q).popping next ht)
    simpa [ht, CallPc.rank] using Nat.zero_lt_of_lt hlt
  | clear q next v b ht hpop hcleared =>
    simpa [ht, CallPc.rank] using hpop.popRank_lt ((hfits q).popping next ht)
  | leavePop q b ht hpop hrun =>
    have hne := Unbounded.reader_ne_of_cleared ((hfits q).popped ht)
    simpa [ht, CallPc.rank] using hpop.popRank_lt hne
  | returnPop q b ht hpop hidle =>
    have hne := Unbounded.reader_ne_of_cleared ((hfits q).popped ht)
    simpa [ht, CallPc.rank] using Nat.zero_lt_of_lt (hpop.popRank_lt hne)
  | work f hout ha => exact absurd hout hpc

theorem CallsFit.exists_step (h : CallsFit P size fixedsize sender receiver s)
    (hsize : ∀ q, 0 < size q) (hpc : s.pc t ≠ .outside) :
    ∃ s', NodeStep P size fixedsize failed s t s' := by
  cases ht : s.pc t with
  | outside => exact absurd ht hpc
  | pushing q value next =>
    have hne := Unbounded.writer_ne_of_pending ((h.fits t q).pushing value next ht)
    obtain ⟨b, hstep⟩ : ∃ b, WriterStep (size q) (fixedsize q) (s.chan q) b :=
      WriterStep.exists_of_ne hne
    rcases h.pushing_step (hsize q) ht hstep with ⟨hsame, -⟩ | ⟨hstored, -⟩
    · by_cases hidle : b.writer = .idle
      · exact ⟨_, .pushFailed s t q value next b ht hstep hsame hidle⟩
      · exact ⟨_, .push s t q value next b ht hstep hsame hidle⟩
    · exact ⟨_, .store s t q value value next b ht hstep hstored⟩
  | pushed q =>
    have hne := Unbounded.writer_ne_of_stored ((h.fits t q).pushed ht)
    obtain ⟨b, hstep⟩ : ∃ b, WriterStep (size q) (fixedsize q) (s.chan q) b :=
      WriterStep.exists_of_ne hne
    by_cases hidle : b.writer = .idle
    · exact ⟨_, .returnPush s t q b ht hstep hidle⟩
    · exact ⟨_, .leavePush s t q b ht hstep hidle⟩
  | popping q next =>
    have hne := (h.fits t q).popping next ht
    obtain ⟨pre, hq⟩ := (h.reachable q).inv (hsize q)
    obtain ⟨b, hstep⟩ := ReaderStep.exists_of_ne hne (hq.inner _)
    obtain ⟨-, old, hpopped⟩ := hstep.popped hq
    cases old with
    | none =>
      have hsame := hpopped.trans (List.append_nil _)
      by_cases hidle : b.reader = .idle
      · exact ⟨_, .popFailed s t q next b ht hstep hsame hidle⟩
      · exact ⟨_, .pop s t q next b ht hstep hsame hidle⟩
    | some v => exact ⟨_, .clear s t q next v b ht hstep hpopped⟩
  | popped q =>
    have hne := Unbounded.reader_ne_of_cleared ((h.fits t q).popped ht)
    obtain ⟨pre, hq⟩ := (h.reachable q).inv (hsize q)
    obtain ⟨b, hstep⟩ := ReaderStep.exists_of_ne hne (hq.inner _)
    by_cases hidle : b.reader = .idle
    · exact ⟨_, .returnPop s t q b ht hstep hidle⟩
    · exact ⟨_, .leavePop s t q b ht hstep hidle⟩

theorem NodeStep.act (hP : OneToOne P sender receiver) (hsize : ∀ q, 0 < size q)
    (hstep : NodeStep P size fixedsize failed s t s')
    (h : CallsFit P size fixedsize sender receiver s)
    (hne : s'.pushed ≠ s.pushed ∨ s'.popped ≠ s.popped) : P.Step s.atomic s'.atomic := by
  rcases hstep.atomic hP hsize h with hact | hsame
  · exact hact.act_of_ne hne
  · have hpushed : s'.pushed = s.pushed := congrArg State.pushed hsame
    have hpopped : s'.popped = s.popped := congrArg State.popped hsame
    simp [hpushed, hpopped] at hne

omit [DecidableEq T] in
theorem update_snoc_ne {A : Q → Type*} (log : (q : Q) → List (A q)) (e : A q) :
    Function.update log q (log q ++ [e]) ≠ log := by
  intro heq
  simpa using congrArg (fun log => (log q).length) heq

/-! ## Calls that do not fail -/

/-- An action that does not have to wait for another node. -/
def Goes (fixedsize : Q → Bool) (queue : (q : Q) → List (M q)) {σ : Type*} :
    Action M σ μ → Prop
  | .pop q _ => queue q ≠ []
  | .push q _ _ => fixedsize q = true → queue q = []
  | .work _ => True

/-- A `push` that finds room, or a `pop` that started with a value in the channel. -/
def CallPc.Sure (fixedsize : Q → Bool) (chan : (q : Q) → Unbounded.State (M q)) {σ : Type*} :
    CallPc M σ → Prop
  | .pushing q _ _ => fixedsize q = true → (chan q).contents = []
  | .popping q _ => Searching (chan q) ∧ (chan q).contents ≠ []
  | _ => False

section Sure
variable (hP : OneToOne P sender receiver) (hsize : ∀ q, 0 < size q)
  (hstep : NodeStep P size fixedsize failed s t s')
  (h : CallsFit P size fixedsize sender receiver s)
include hP hsize hstep h

omit hsize in
theorem NodeStep.of_goes (hpc : s.pc t = .outside)
    (hgoes : ∀ a ∈ P.actions t (s.loc t), Goes fixedsize s.atomic.queue a) :
    P.Step s.atomic s'.atomic ∨
      s'.atomic = s.atomic ∧ (s'.pc t).Sure fixedsize s'.chan := by
  cases hstep with
  | callPush q value next hout ha =>
    refine .inr ⟨atomic_update_chan s _ rfl, ?_⟩
    simp only [Function.update_self, CallPc.Sure]
    exact hgoes _ ha
  | callPop q next hout ha =>
    have hsame := Unbounded.contents_testing (h.reader_idle (hP.pop t _ q next ha) hpc)
    refine .inr ⟨atomic_update_chan s _ hsame, ?_⟩
    simp only [Function.update_self, CallPc.Sure]
    refine ⟨⟨id, fun stored hr => by cases hr⟩, ?_⟩
    rw [hsame]
    exact hgoes _ ha
  | work f hout ha => exact .inl (.work s.atomic t f ha)
  | push q value next b ht => simp [hpc] at ht
  | pushFailed q value next b ht => simp [hpc] at ht
  | store q value v next b ht => simp [hpc] at ht
  | leavePush q b ht => simp [hpc] at ht
  | returnPush q b ht => simp [hpc] at ht
  | pop q next b ht => simp [hpc] at ht
  | popFailed q next b ht => simp [hpc] at ht
  | clear q next v b ht => simp [hpc] at ht
  | leavePop q b ht => simp [hpc] at ht
  | returnPop q b ht => simp [hpc] at ht

/-- A call that is sure goes on to the store, or the clearing, of its value. -/
theorem NodeStep.of_sure (hsure : (s.pc t).Sure fixedsize s.chan) :
    P.Step s.atomic s'.atomic ∨
      s'.atomic = s.atomic ∧ (s'.pc t).Sure fixedsize s'.chan := by
  have hact := hstep.act hP hsize h
  cases hstep with
  | push q value next b ht hpush hsame hrun =>
    have hcontents := h.contents_push hsize hpush hsame
    rw [ht, CallPc.Sure] at hsure
    refine .inr ⟨atomic_update_chan s s.pc hcontents, ?_⟩
    simpa only [ht, CallPc.Sure, Function.update_self, hcontents] using hsure
  | pushFailed q value next b ht hpush hsame hidle =>
    obtain ⟨pre, hq⟩ := (h.reachable q).inv (hsize q)
    rw [ht] at hsure
    exact absurd hidle (hpush.ne_idle (hsize q) hq ((h.fits t q).pushing value next ht) hsure)
  | store q value v next b ht hpush hstored =>
    exact .inl (hact (.inl (update_snoc_ne s.pushed (t, v))))
  | pop q next b ht hpop hsame hrun =>
    obtain ⟨pre, hq⟩ := (h.reachable q).inv (hsize q)
    have hcontents := h.contents_pop hsize hpop hsame
    rw [ht, CallPc.Sure] at hsure
    refine .inr ⟨atomic_update_chan s s.pc hcontents, ?_⟩
    simp only [ht, CallPc.Sure, Function.update_self, hcontents]
    refine ⟨?_, hsure.2⟩
    rcases hpop.of_searching (hsize q) hq hsure.1 hsure.2 with ⟨v, hcleared⟩ | ⟨-, -, hsearch⟩
    · simp [hsame] at hcleared
    · exact hsearch
  | popFailed q next b ht hpop hsame hidle =>
    obtain ⟨pre, hq⟩ := (h.reachable q).inv (hsize q)
    rw [ht, CallPc.Sure] at hsure
    rcases hpop.of_searching (hsize q) hq hsure.1 hsure.2 with ⟨v, hcleared⟩ | ⟨-, hrun, -⟩
    · simp [hsame] at hcleared
    · exact absurd hidle hrun
  | clear q next v b ht hpop hcleared =>
    exact .inl (hact (.inr (update_snoc_ne s.popped (t, v))))
  | callPush q value next ht => simp [ht, CallPc.Sure] at hsure
  | leavePush q b ht => simp [ht, CallPc.Sure] at hsure
  | returnPush q b ht => simp [ht, CallPc.Sure] at hsure
  | callPop q next ht => simp [ht, CallPc.Sure] at hsure
  | leavePop q b ht => simp [ht, CallPc.Sure] at hsure
  | returnPop q b ht => simp [ht, CallPc.Sure] at hsure
  | work f ht => simp [ht, CallPc.Sure] at hsure

end Sure

def SystemState.Ended (P : Program T M σ μ) (s : SystemState T M σ μ) : Prop :=
  ∀ t, s.pc t = .outside ∧ P.actions t (s.loc t) = []

theorem SystemState.Ended.terminal (h : s.Ended P) :
    P.Terminal s.atomic := by
  intro s' hstep
  have hnone (t : T) (a : Action M (σ t) μ) : a ∉ P.actions t (s.loc t) := by
    rw [(h t).2]
    exact List.not_mem_nil
  cases hstep with
  | pop t q next m rest ha hq => exact hnone t _ ha
  | push t q m next ha => exact hnone t _ ha
  | work t f ha => exact hnone t _ ha

end WaterMark.FastFlow.Channels
