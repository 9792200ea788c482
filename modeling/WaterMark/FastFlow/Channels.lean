import WaterMark.FastFlow.UnboundedCalls
import WaterMark.Library.Attempts

/-! # Nodes on lock-free channels

The nodes of a program call `push` and `pop` of unbounded buffers access by access,
each channel with one node that sends and one that receives. A call can fail, and
the node goes on elsewhere then.
-/

namespace WaterMark.FastFlow.Channels
open ChannelNetwork Swsr
open Unbounded (WriterStep ReaderStep pending Stored Cleared)

variable {T Q : Type*} {M : Q → Type*} {σ : T → Type*} {μ : Type*}

/-- Where a node stands in its call of a channel, and where it goes on afterwards. -/
inductive CallPc {Q : Type*} (M : Q → Type*) (σ : Type*) where
  | outside
  | pushing (q : Q) (value : M q) (next : σ)
  | pushed (q : Q)
  | popping (q : Q) (next : M q → σ)
  | popped (q : Q)

/-- A node enters its next local state when its value is stored or cleared, and
takes its next action when it has left the call. -/
structure SystemState (T : Type*) {Q : Type*} (M : Q → Type*) (σ : T → Type*) (μ : Type*) where
  loc : (t : T) → σ t
  pc : (t : T) → CallPc M (σ t)
  chan : (q : Q) → Unbounded.State (M q)
  mem : μ
  pushed : (q : Q) → List (T × M q)
  popped : (q : Q) → List (T × M q)

namespace SystemState

def initial (P : Program T M σ μ) (mem : μ) : SystemState T M σ μ :=
  ⟨P.start, fun _ => .outside, fun _ => .start, mem, fun _ => [], fun _ => []⟩

@[simps] def atomic (s : SystemState T M σ μ) : State T M σ μ :=
  ⟨s.loc, fun q => (s.chan q).contents, s.mem, s.pushed, s.popped⟩

end SystemState

section Step
variable [DecidableEq T] [DecidableEq Q]

/-- The accesses to memory of a node. A call that returns with its value not
stored, or without a value, has failed, and `failed` is where the node goes on. -/
inductive NodeStep (P : Program T M σ μ) (size : Q → ℕ) (fixedsize : Q → Bool)
    (failed : (t : T) → σ t → σ t) : SystemState T M σ μ → T → SystemState T M σ μ → Prop
  | callPush (s : SystemState T M σ μ) (t : T) (q : Q) (value : M q) (next : σ t)
      (h : s.pc t = .outside) (ha : .push q value next ∈ P.actions t (s.loc t)) :
      NodeStep P size fixedsize failed s t { s with
        pc := Function.update s.pc t (.pushing q value next)
        chan := Function.update s.chan q { s.chan q with writer := .testing value } }
  | push (s : SystemState T M σ μ) (t : T) (q : Q) (value : M q) (next : σ t)
      (b : Unbounded.State (M q)) (h : s.pc t = .pushing q value next)
      (hstep : WriterStep (size q) (fixedsize q) (s.chan q) b)
      (hsame : b.pushed = (s.chan q).pushed) (hrun : b.writer ≠ .idle) :
      NodeStep P size fixedsize failed s t { s with chan := Function.update s.chan q b }
  | pushFailed (s : SystemState T M σ μ) (t : T) (q : Q) (value : M q) (next : σ t)
      (b : Unbounded.State (M q)) (h : s.pc t = .pushing q value next)
      (hstep : WriterStep (size q) (fixedsize q) (s.chan q) b)
      (hsame : b.pushed = (s.chan q).pushed) (hidle : b.writer = .idle) :
      NodeStep P size fixedsize failed s t { s with
        loc := Function.update s.loc t (failed t (s.loc t))
        pc := Function.update s.pc t .outside
        chan := Function.update s.chan q b }
  | store (s : SystemState T M σ μ) (t : T) (q : Q) (value v : M q) (next : σ t)
      (b : Unbounded.State (M q)) (h : s.pc t = .pushing q value next)
      (hstep : WriterStep (size q) (fixedsize q) (s.chan q) b)
      (hstored : b.pushed = (s.chan q).pushed ++ [v]) :
      NodeStep P size fixedsize failed s t { s with
        loc := Function.update s.loc t next
        pc := Function.update s.pc t (.pushed q)
        chan := Function.update s.chan q b
        pushed := Function.update s.pushed q (s.pushed q ++ [(t, v)]) }
  | leavePush (s : SystemState T M σ μ) (t : T) (q : Q) (b : Unbounded.State (M q))
      (h : s.pc t = .pushed q) (hstep : WriterStep (size q) (fixedsize q) (s.chan q) b)
      (hrun : b.writer ≠ .idle) :
      NodeStep P size fixedsize failed s t { s with chan := Function.update s.chan q b }
  | returnPush (s : SystemState T M σ μ) (t : T) (q : Q) (b : Unbounded.State (M q))
      (h : s.pc t = .pushed q) (hstep : WriterStep (size q) (fixedsize q) (s.chan q) b)
      (hidle : b.writer = .idle) :
      NodeStep P size fixedsize failed s t { s with
        pc := Function.update s.pc t .outside
        chan := Function.update s.chan q b }
  | callPop (s : SystemState T M σ μ) (t : T) (q : Q) (next : M q → σ t)
      (h : s.pc t = .outside) (ha : .pop q next ∈ P.actions t (s.loc t)) :
      NodeStep P size fixedsize failed s t { s with
        pc := Function.update s.pc t (.popping q next)
        chan := Function.update s.chan q { s.chan q with reader := .testing } }
  | pop (s : SystemState T M σ μ) (t : T) (q : Q) (next : M q → σ t)
      (b : Unbounded.State (M q)) (h : s.pc t = .popping q next)
      (hstep : ReaderStep (size q) (s.chan q) b) (hsame : b.popped = (s.chan q).popped)
      (hrun : b.reader ≠ .idle) :
      NodeStep P size fixedsize failed s t { s with chan := Function.update s.chan q b }
  | popFailed (s : SystemState T M σ μ) (t : T) (q : Q) (next : M q → σ t)
      (b : Unbounded.State (M q)) (h : s.pc t = .popping q next)
      (hstep : ReaderStep (size q) (s.chan q) b) (hsame : b.popped = (s.chan q).popped)
      (hidle : b.reader = .idle) :
      NodeStep P size fixedsize failed s t { s with
        loc := Function.update s.loc t (failed t (s.loc t))
        pc := Function.update s.pc t .outside
        chan := Function.update s.chan q b }
  | clear (s : SystemState T M σ μ) (t : T) (q : Q) (next : M q → σ t) (v : M q)
      (b : Unbounded.State (M q)) (h : s.pc t = .popping q next)
      (hstep : ReaderStep (size q) (s.chan q) b)
      (hcleared : b.popped = (s.chan q).popped ++ [v]) :
      NodeStep P size fixedsize failed s t { s with
        loc := Function.update s.loc t (next v)
        pc := Function.update s.pc t (.popped q)
        chan := Function.update s.chan q b
        popped := Function.update s.popped q (s.popped q ++ [(t, v)]) }
  | leavePop (s : SystemState T M σ μ) (t : T) (q : Q) (b : Unbounded.State (M q))
      (h : s.pc t = .popped q) (hstep : ReaderStep (size q) (s.chan q) b)
      (hrun : b.reader ≠ .idle) :
      NodeStep P size fixedsize failed s t { s with chan := Function.update s.chan q b }
  | returnPop (s : SystemState T M σ μ) (t : T) (q : Q) (b : Unbounded.State (M q))
      (h : s.pc t = .popped q) (hstep : ReaderStep (size q) (s.chan q) b)
      (hidle : b.reader = .idle) :
      NodeStep P size fixedsize failed s t { s with
        pc := Function.update s.pc t .outside
        chan := Function.update s.chan q b }
  | work (s : SystemState T M σ μ) (t : T) (f : μ → σ t × μ) (h : s.pc t = .outside)
      (ha : .work f ∈ P.actions t (s.loc t)) :
      NodeStep P size fixedsize failed s t { s with
        loc := Function.update s.loc t (f s.mem).1, mem := (f s.mem).2 }

def SystemStep (P : Program T M σ μ) (size : Q → ℕ) (fixedsize : Q → Bool)
    (failed : (t : T) → σ t → σ t) (s s' : SystemState T M σ μ) : Prop :=
  ∃ t, NodeStep P size fixedsize failed s t s'

def SystemReachable (P : Program T M σ μ) (size : Q → ℕ) (fixedsize : Q → Bool)
    (failed : (t : T) → σ t → σ t) (mem : μ) : SystemState T M σ μ → Prop :=
  Relation.ReflTransGen (SystemStep P size fixedsize failed) (.initial P mem)

end Step

/-! ## The calls and the channels -/

namespace CallPc
variable {σ : Type*}

def Pushes (q : Q) : CallPc M σ → Prop
  | .pushing r _ _ => r = q
  | .pushed r => r = q
  | _ => False

def Pops (q : Q) : CallPc M σ → Prop
  | .popping r _ => r = q
  | .popped r => r = q
  | _ => False

def Allowed (actions : List (Action M σ μ)) : CallPc M σ → Prop
  | .pushing q value next => .push q value next ∈ actions
  | .popping q next => .pop q next ∈ actions
  | _ => True

/-- The channel is where the call has brought it. -/
structure Fits (x : CallPc M σ) (q : Q) (b : Unbounded.State (M q)) : Prop where
  pushing : ∀ value next, x = .pushing q value next → pending b.writerPlace = some value
  pushed : x = .pushed q → Stored b.writerPlace
  popping : ∀ next, x = .popping q next → b.reader ≠ .idle
  popped : x = .popped q → Cleared b.readerPlace

section Fits
variable {x : CallPc M σ} {q r : Q} {a b : Unbounded.State (M q)} {value : M q}

theorem Pushes.not_pops (h : x.Pushes q) : ¬ x.Pops r := by
  cases x with
  | pushing => exact id
  | pushed => exact id
  | _ => exact h.elim

theorem Pushes.unique (h : x.Pushes q) (hr : x.Pushes r) : r = q := by
  cases x with
  | pushing => exact hr.symm.trans h
  | pushed => exact hr.symm.trans h
  | _ => exact h.elim

theorem Pops.unique (h : x.Pops q) (hr : x.Pops r) : r = q := by
  cases x with
  | popping => exact hr.symm.trans h
  | popped => exact hr.symm.trans h
  | _ => exact h.elim

theorem Fits.of_not (hpush : ¬ x.Pushes q) (hpop : ¬ x.Pops q) : x.Fits q b where
  pushing value next hx := absurd (by rw [hx]; rfl) hpush
  pushed hx := absurd (by rw [hx]; rfl) hpush
  popping next hx := absurd (by rw [hx]; rfl) hpop
  popped hx := absurd (by rw [hx]; rfl) hpop

theorem Fits.outside : (outside : CallPc M σ).Fits q b := .of_not id id

theorem Fits.of_pending {next : σ} (h : pending b.writerPlace = some value) :
    (CallPc.pushing q value next).Fits q b where
  pushing value' next' hx := by cases hx; exact h
  pushed hx := by cases hx
  popping next' hx := by cases hx
  popped hx := by cases hx

theorem Fits.of_stored (h : Stored b.writerPlace) : (CallPc.pushed q : CallPc M σ).Fits q b where
  pushing value next hx := by cases hx
  pushed _ := h
  popping next hx := by cases hx
  popped hx := by cases hx

theorem Fits.of_ne {next : M q → σ} (h : b.reader ≠ .idle) : (CallPc.popping q next).Fits q b where
  pushing value next' hx := by cases hx
  pushed hx := by cases hx
  popping _ _ := h
  popped hx := by cases hx

theorem Fits.of_cleared (h : Cleared b.readerPlace) : (CallPc.popped q : CallPc M σ).Fits q b where
  pushing value next hx := by cases hx
  pushed hx := by cases hx
  popping next hx := by cases hx
  popped _ := h

/-- Only its own end of the channel matters to a call. -/
theorem Fits.of_readerPlace (h : x.Fits q a) (hpush : ¬ x.Pushes q)
    (hplace : b.readerPlace = a.readerPlace) : x.Fits q b where
  pushing value next hx := absurd (by rw [hx]; rfl) hpush
  pushed hx := absurd (by rw [hx]; rfl) hpush
  popping next hx := by
    have hreader : b.reader = a.reader := congrArg Prod.fst hplace
    rw [hreader]
    exact h.popping next hx
  popped hx := by
    rw [hplace]
    exact h.popped hx

theorem Fits.of_writerPlace (h : x.Fits q a) (hpop : ¬ x.Pops q)
    (hplace : b.writerPlace = a.writerPlace) : x.Fits q b where
  pushing value next hx := by
    rw [hplace]
    exact h.pushing value next hx
  pushed hx := by
    rw [hplace]
    exact h.pushed hx
  popping next hx := absurd (by rw [hx]; rfl) hpop
  popped hx := absurd (by rw [hx]; rfl) hpop

end Fits

structure Only (q : Q) (x : CallPc M σ) : Prop where
  push : ∀ r, x.Pushes r → r = q
  pop : ∀ r, x.Pops r → r = q

/-- The node is in no call, or in one that pushes on `q`. -/
def Writes (q : Q) (x : CallPc M σ) : Prop := x = .outside ∨ x.Pushes q

def Reads (q : Q) (x : CallPc M σ) : Prop := x = .outside ∨ x.Pops q

section Writes
variable {x : CallPc M σ} {q r : Q}

theorem Writes.not_pops (h : x.Writes q) : ¬ x.Pops r := by
  rcases h with rfl | h
  · exact id
  · exact h.not_pops

theorem Writes.only (h : x.Writes q) : x.Only q where
  push r hr := by
    rcases h with rfl | h
    · exact hr.elim
    · exact h.unique hr
  pop r hr := absurd hr h.not_pops

theorem Reads.not_pushes (h : x.Reads q) : ¬ x.Pushes r := by
  rcases h with rfl | h
  · exact id
  · exact fun hpush => hpush.not_pops h

theorem Reads.only (h : x.Reads q) : x.Only q where
  push r hr := absurd hr h.not_pushes
  pop r hr := by
    rcases h with rfl | h
    · exact hr.elim
    · exact h.unique hr

end Writes

end CallPc

/-- What holds between the nodes and the channels. -/
structure CallsFit (P : Program T M σ μ) (size : Q → ℕ) (fixedsize : Q → Bool)
    (sender receiver : Q → T) (s : SystemState T M σ μ) : Prop where
  reachable : ∀ q, Unbounded.Reachable (size q) (fixedsize q) (s.chan q)
  allowed : ∀ t, (s.pc t).Allowed (P.actions t (s.loc t))
  sends : ∀ t q, (s.pc t).Pushes q → t = sender q
  receives : ∀ t q, (s.pc t).Pops q → t = receiver q
  writers : ∀ q, (s.chan q).writer ≠ .idle → (s.pc (sender q)).Pushes q
  readers : ∀ q, (s.chan q).reader ≠ .idle → (s.pc (receiver q)).Pops q
  fits : ∀ t q, (s.pc t).Fits q (s.chan q)

section CallsFit
variable {P : Program T M σ μ} {size : Q → ℕ} {fixedsize : Q → Bool}
  {failed : (t : T) → σ t → σ t} {sender receiver : Q → T} {s s' : SystemState T M σ μ} {t : T}
  {q : Q} {x : CallPc M (σ t)} {y : σ t} {b : Unbounded.State (M q)} {value : M q}

theorem CallsFit.initial (mem : μ) :
    CallsFit P size fixedsize sender receiver (.initial P mem) where
  reachable _ := .refl
  allowed _ := trivial
  sends _ _ h := h.elim
  receives _ _ h := h.elim
  writers _ h := absurd rfl h
  readers _ h := absurd rfl h
  fits _ _ := .outside

theorem CallsFit.writer_idle (h : CallsFit P size fixedsize sender receiver s) (ht : t = sender q)
    (hpc : s.pc t = .outside) : (s.chan q).writer = .idle := by
  by_contra hne
  have hpush := h.writers q hne
  rw [← ht, hpc] at hpush
  exact hpush

theorem CallsFit.reader_idle (h : CallsFit P size fixedsize sender receiver s) (ht : t = receiver q)
    (hpc : s.pc t = .outside) : (s.chan q).reader = .idle := by
  by_contra hne
  have hpop := h.readers q hne
  rw [← ht, hpc] at hpop
  exact hpop

theorem CallsFit.pushing_step (h : CallsFit P size fixedsize sender receiver s) (hsize : 0 < size q)
    {next : σ t} (hpc : s.pc t = .pushing q value next)
    (hstep : WriterStep (size q) (fixedsize q) (s.chan q) b) :
    b.pushed = (s.chan q).pushed ∧ (pending b.writerPlace = some value ∨ b.writer = .idle) ∨
      b.pushed = (s.chan q).pushed ++ [value] ∧ Stored b.writerPlace := by
  obtain ⟨pre, hinv⟩ := (h.reachable q).inv hsize
  exact hstep.of_pending hsize hinv ((h.fits t q).pushing value next hpc)

variable [DecidableEq T] [DecidableEq Q]

/-- A node moves in a call of `q`, and `q` with it. -/
theorem CallsFit.move (h : CallsFit P size fixedsize sender receiver s)
    (hloc : s'.loc = Function.update s.loc t y) (hpc : s'.pc = Function.update s.pc t x)
    (hchan : s'.chan = Function.update s.chan q b)
    (hreach : Unbounded.Reachable (size q) (fixedsize q) b)
    (hallowed : x.Allowed (P.actions t y)) (hold : (s.pc t).Only q) (hx : x.Only q)
    (hsends : x.Pushes q → t = sender q) (hreceives : x.Pops q → t = receiver q)
    (hwriters : b.writer ≠ .idle → (s'.pc (sender q)).Pushes q)
    (hreaders : b.reader ≠ .idle → (s'.pc (receiver q)).Pops q)
    (hfits : ∀ u, (s'.pc u).Fits q b) : CallsFit P size fixedsize sender receiver s' where
  reachable r := by
    rw [hchan]
    by_cases hrq : r = q
    · subst hrq
      rwa [Function.update_self]
    · rw [Function.update_of_ne hrq]
      exact h.reachable r
  allowed u := by
    rw [hloc, hpc]
    by_cases hut : u = t
    · subst hut
      simpa only [Function.update_self] using hallowed
    · simpa only [Function.update_of_ne hut] using h.allowed u
  sends u r hu := by
    rw [hpc] at hu
    by_cases hut : u = t
    · subst hut
      rw [Function.update_self] at hu
      have hrq := hx.push r hu
      subst hrq
      exact hsends hu
    · rw [Function.update_of_ne hut] at hu
      exact h.sends u r hu
  receives u r hu := by
    rw [hpc] at hu
    by_cases hut : u = t
    · subst hut
      rw [Function.update_self] at hu
      have hrq := hx.pop r hu
      subst hrq
      exact hreceives hu
    · rw [Function.update_of_ne hut] at hu
      exact h.receives u r hu
  writers r hr := by
    rw [hchan] at hr
    by_cases hrq : r = q
    · subst hrq
      rw [Function.update_self] at hr
      exact hwriters hr
    · rw [Function.update_of_ne hrq] at hr
      have hpush := h.writers r hr
      have hne : sender r ≠ t := by
        intro he
        rw [he] at hpush
        exact hrq (hold.push r hpush)
      rwa [hpc, Function.update_of_ne hne]
  readers r hr := by
    rw [hchan] at hr
    by_cases hrq : r = q
    · subst hrq
      rw [Function.update_self] at hr
      exact hreaders hr
    · rw [Function.update_of_ne hrq] at hr
      have hpop := h.readers r hr
      have hne : receiver r ≠ t := by
        intro he
        rw [he] at hpop
        exact hrq (hold.pop r hpop)
      rwa [hpc, Function.update_of_ne hne]
  fits u r := by
    by_cases hrq : r = q
    · subst hrq
      rw [hchan, Function.update_self]
      exact hfits u
    · rw [hpc, hchan, Function.update_of_ne hrq]
      by_cases hut : u = t
      · subst hut
        rw [Function.update_self]
        exact .of_not (fun hpush => hrq (hx.push r hpush)) fun hpop => hrq (hx.pop r hpop)
      · rw [Function.update_of_ne hut]
        exact h.fits u r

theorem CallsFit.writer (h : CallsFit P size fixedsize sender receiver s)
    (hstep : WriterStep (size q) (fixedsize q) (s.chan q) b) (ht : t = sender q)
    (hloc : s'.loc = Function.update s.loc t y) (hpc : s'.pc = Function.update s.pc t x)
    (hchan : s'.chan = Function.update s.chan q b) (hold : (s.pc t).Writes q) (hx : x.Writes q)
    (hallowed : x.Allowed (P.actions t y)) (hidle : b.writer ≠ .idle → x.Pushes q)
    (hfits : x.Fits q b) : CallsFit P size fixedsize sender receiver s' := by
  have hplace := hstep.readerPlace_eq
  have hreader : b.reader = (s.chan q).reader := congrArg Prod.fst hplace
  refine h.move hloc hpc hchan ((h.reachable q).tail (.writer _ _ hstep)) hallowed hold.only
    hx.only (fun _ => ht) (fun hpop => absurd hpop hx.not_pops) ?_ ?_ ?_
  · rw [hpc, ← ht, Function.update_self]
    exact hidle
  · rw [hreader]
    intro hr
    have hpop := h.readers q hr
    have hne : receiver q ≠ t := by
      intro he
      rw [he] at hpop
      exact hold.not_pops hpop
    rwa [hpc, Function.update_of_ne hne]
  · intro u
    rw [hpc]
    by_cases hut : u = t
    · subst hut
      rwa [Function.update_self]
    · rw [Function.update_of_ne hut]
      have hpush : ¬ (s.pc u).Pushes q := fun hpush => hut ((h.sends u q hpush).trans ht.symm)
      exact (h.fits u q).of_readerPlace hpush hplace

theorem CallsFit.reader (h : CallsFit P size fixedsize sender receiver s) (hsize : 0 < size q)
    (hstep : ReaderStep (size q) (s.chan q) b) (ht : t = receiver q)
    (hloc : s'.loc = Function.update s.loc t y) (hpc : s'.pc = Function.update s.pc t x)
    (hchan : s'.chan = Function.update s.chan q b) (hold : (s.pc t).Reads q) (hx : x.Reads q)
    (hallowed : x.Allowed (P.actions t y)) (hidle : b.reader ≠ .idle → x.Pops q)
    (hfits : x.Fits q b) : CallsFit P size fixedsize sender receiver s' := by
  obtain ⟨pre, hinv⟩ := (h.reachable q).inv hsize
  have hplace := hstep.writerPlace_eq hinv
  have hwriter : b.writer = (s.chan q).writer := congrArg Prod.fst hplace
  refine h.move hloc hpc hchan ((h.reachable q).tail (.reader _ _ hstep)) hallowed hold.only
    hx.only (fun hpush => absurd hpush hx.not_pushes) (fun _ => ht) ?_ ?_ ?_
  · rw [hwriter]
    intro hw
    have hpush := h.writers q hw
    have hne : sender q ≠ t := by
      intro he
      rw [he] at hpush
      exact hold.not_pushes hpush
    rwa [hpc, Function.update_of_ne hne]
  · rw [hpc, ← ht, Function.update_self]
    exact hidle
  · intro u
    rw [hpc]
    by_cases hut : u = t
    · subst hut
      rwa [Function.update_self]
    · rw [Function.update_of_ne hut]
      have hpop : ¬ (s.pc u).Pops q := fun hpop => hut ((h.receives u q hpop).trans ht.symm)
      exact (h.fits u q).of_writerPlace hpop hplace

theorem CallsFit.stay_push (h : CallsFit P size fixedsize sender receiver s)
    (hstep : WriterStep (size q) (fixedsize q) (s.chan q) b) (hpush : (s.pc t).Pushes q)
    (hfits : (s.pc t).Fits q b) :
    CallsFit P size fixedsize sender receiver { s with chan := Function.update s.chan q b } :=
  h.writer hstep (h.sends t q hpush) (Function.update_eq_self t _).symm
    (Function.update_eq_self t _).symm rfl (.inr hpush) (.inr hpush) (h.allowed t)
    (fun _ => hpush) hfits

theorem CallsFit.stay_pop (h : CallsFit P size fixedsize sender receiver s) (hsize : 0 < size q)
    (hstep : ReaderStep (size q) (s.chan q) b) (hpop : (s.pc t).Pops q)
    (hfits : (s.pc t).Fits q b) :
    CallsFit P size fixedsize sender receiver { s with chan := Function.update s.chan q b } :=
  h.reader hsize hstep (h.receives t q hpop) (Function.update_eq_self t _).symm
    (Function.update_eq_self t _).symm rfl (.inr hpop) (.inr hpop) (h.allowed t)
    (fun _ => hpop) hfits

theorem CallsFit.leave_push (h : CallsFit P size fixedsize sender receiver s)
    (hstep : WriterStep (size q) (fixedsize q) (s.chan q) b) (hpush : (s.pc t).Pushes q)
    (hidle : b.writer = .idle) (hloc : s'.loc = Function.update s.loc t y)
    (hpc : s'.pc = Function.update s.pc t .outside) (hchan : s'.chan = Function.update s.chan q b) :
    CallsFit P size fixedsize sender receiver s' :=
  h.writer hstep (h.sends t q hpush) hloc hpc hchan (.inr hpush) (.inl rfl) trivial
    (absurd hidle) .outside

theorem CallsFit.leave_pop (h : CallsFit P size fixedsize sender receiver s) (hsize : 0 < size q)
    (hstep : ReaderStep (size q) (s.chan q) b) (hpop : (s.pc t).Pops q)
    (hidle : b.reader = .idle) (hloc : s'.loc = Function.update s.loc t y)
    (hpc : s'.pc = Function.update s.pc t .outside) (hchan : s'.chan = Function.update s.chan q b) :
    CallsFit P size fixedsize sender receiver s' :=
  h.reader hsize hstep (h.receives t q hpop) hloc hpc hchan (.inr hpop) (.inl rfl) trivial
    (absurd hidle) .outside

/-- Every access of a node keeps the nodes and the channels together. -/
theorem NodeStep.callsFit (hP : OneToOne P sender receiver) (hsize : ∀ q, 0 < size q)
    (hstep : NodeStep P size fixedsize failed s t s')
    (h : CallsFit P size fixedsize sender receiver s) :
    CallsFit P size fixedsize sender receiver s' := by
  cases hstep with
  | callPush q value next hpc ha =>
    have ht := hP.push t _ q value next ha
    refine h.writer (.call _ value (h.writer_idle ht hpc)) ht (Function.update_eq_self t _).symm
      rfl rfl (.inl hpc) (.inr rfl) ha (fun _ => rfl) ?_
    exact .of_pending rfl
  | push q value next b hpc hpush hsame hrun =>
    refine h.stay_push hpush (by rw [hpc]; rfl) ?_
    rw [hpc]
    rcases h.pushing_step (hsize q) hpc hpush with ⟨-, hpending | hidle⟩ | ⟨hstored, -⟩
    · exact .of_pending hpending
    · exact absurd hidle hrun
    · simp [hsame] at hstored
  | pushFailed q value next b hpc hpush hsame hidle =>
    exact h.leave_push hpush (by rw [hpc]; rfl) hidle rfl rfl rfl
  | store q value v next b hpc hpush hstored =>
    have ht : t = sender q := h.sends t q (by rw [hpc]; rfl)
    rcases h.pushing_step (hsize q) hpc hpush with ⟨hsame, -⟩ | ⟨-, hplace⟩
    · simp [hsame] at hstored
    · exact h.writer hpush ht rfl rfl rfl (.inr (by rw [hpc]; rfl)) (.inr rfl) trivial
        (fun _ => rfl) (.of_stored hplace)
  | leavePush q b hpc hpush hrun =>
    refine h.stay_push hpush (by rw [hpc]; rfl) ?_
    rw [hpc]
    exact .of_stored ((hpush.of_stored ((h.fits t q).pushed hpc)).2.resolve_right hrun)
  | returnPush q b hpc hpush hidle =>
    exact h.leave_push hpush (by rw [hpc]; rfl) hidle (Function.update_eq_self t _).symm rfl rfl
  | callPop q next hpc ha =>
    have ht := hP.pop t _ q next ha
    refine h.reader (hsize q) (.call _ (h.reader_idle ht hpc)) ht
      (Function.update_eq_self t _).symm rfl rfl (.inl hpc) (.inr rfl) ha (fun _ => rfl) ?_
    exact .of_ne (by simp)
  | pop q next b hpc hpop hsame hrun =>
    refine h.stay_pop (hsize q) hpop (by rw [hpc]; rfl) ?_
    rw [hpc]
    exact .of_ne hrun
  | popFailed q next b hpc hpop hsame hidle =>
    exact h.leave_pop (hsize q) hpop (by rw [hpc]; rfl) hidle rfl rfl rfl
  | clear q next v b hpc hpop hcleared =>
    have ht : t = receiver q := h.receives t q (by rw [hpc]; rfl)
    exact h.reader (hsize q) hpop ht rfl rfl rfl (.inr (by rw [hpc]; rfl)) (.inr rfl) trivial
      (fun _ => rfl) (.of_cleared (hpop.cleared hcleared))
  | leavePop q b hpc hpop hrun =>
    refine h.stay_pop (hsize q) hpop (by rw [hpc]; rfl) ?_
    rw [hpc]
    exact .of_cleared ((hpop.of_cleared ((h.fits t q).popped hpc)).2.resolve_right hrun)
  | returnPop q b hpc hpop hidle =>
    exact h.leave_pop (hsize q) hpop (by rw [hpc]; rfl) hidle (Function.update_eq_self t _).symm
      rfl rfl
  | work f hpc ha =>
    refine ⟨h.reachable, fun u => ?_, h.sends, h.receives, h.writers, h.readers, h.fits⟩
    by_cases hut : u = t
    · subst hut
      rw [hpc]
      trivial
    · simpa only [Function.update_of_ne hut] using h.allowed u

theorem SystemStep.callsFit (hP : OneToOne P sender receiver) (hsize : ∀ q, 0 < size q)
    (hstep : SystemStep P size fixedsize failed s s')
    (h : CallsFit P size fixedsize sender receiver s) :
    CallsFit P size fixedsize sender receiver s' := by
  obtain ⟨t, hstep⟩ := hstep
  exact hstep.callsFit hP hsize h

end CallsFit

end WaterMark.FastFlow.Channels
