import Mathlib.Data.Fintype.Basic
import Mathlib.Tactic.Simps.Basic
import WaterMark.Library.ChannelNetwork

/-! # The blocking queue

A deque behind a mutex and a condition variable. `push` inserts in its critical
section and notifies after leaving it; `pop` tests its predicate under the
mutex, sleeps while the deque is empty and may wake up without cause.
-/

namespace WaterMark.Queue

/-- Where a thread stands in `push` or `pop`. -/
inductive QueuePc (α : Type*) where
  | outside
  | inserting (value : α)
  | notifying
  | testing
  | sleeping
  | removing

namespace QueuePc
variable {α : Type*}

def Awake : QueuePc α → Prop
  | .testing => True
  | .removing => True
  | _ => False

/-- One for a thread that is still to issue a notification or is awake in `pop`. -/
def active : QueuePc α → ℕ
  | .outside => 0
  | .inserting _ => 0
  | .notifying => 1
  | .testing => 1
  | .sleeping => 0
  | .removing => 1

end QueuePc

/-- `dQueue` lists the deque from its front, where `push` inserts, to its back,
where `pop` removes. `inserted` and `returned` record the values pushed and
popped so far, in the order of the insertions and of the removals. -/
structure QueueState (τ α : Type*) where
  pc : τ → QueuePc α
  dQueue : List α
  dMutex : Option τ
  inserted : List α
  returned : List α

variable {τ α : Type*} [DecidableEq τ]

namespace QueueState

def empty : QueueState τ α := ⟨fun _ => .outside, [], none, [], []⟩

@[simps] def goto (s : QueueState τ α) (t : τ) (x : QueuePc α) : QueueState τ α :=
  { s with pc := Function.update s.pc t x }

end QueueState

inductive QueueStep : QueueState τ α → QueueState τ α → Prop
  | callPush (s : QueueState τ α) (t : τ) (value : α) (h : s.pc t = .outside) :
      QueueStep s (s.goto t (.inserting value))
  | insert (s : QueueState τ α) (t : τ) (value : α) (h : s.pc t = .inserting value)
      (hlock : s.dMutex = none) :
      QueueStep s { s.goto t .notifying with
        dQueue := value :: s.dQueue, inserted := s.inserted ++ [value] }
  | notifyNobody (s : QueueState τ α) (t : τ) (h : s.pc t = .notifying)
      (hnone : ∀ u, s.pc u ≠ .sleeping) : QueueStep s (s.goto t .outside)
  | notifyOne (s : QueueState τ α) (t u : τ) (h : s.pc t = .notifying) (hu : s.pc u = .sleeping) :
      QueueStep s ((s.goto t .outside).goto u .testing)
  | callPop (s : QueueState τ α) (t : τ) (h : s.pc t = .outside) : QueueStep s (s.goto t .testing)
  | testEmpty (s : QueueState τ α) (t : τ) (h : s.pc t = .testing) (hlock : s.dMutex = none)
      (hempty : s.dQueue = []) : QueueStep s (s.goto t .sleeping)
  | testNonempty (s : QueueState τ α) (t : τ) (h : s.pc t = .testing) (hlock : s.dMutex = none)
      (hne : s.dQueue ≠ []) : QueueStep s { s.goto t .removing with dMutex := some t }
  | wakeSpuriously (s : QueueState τ α) (t : τ) (h : s.pc t = .sleeping) :
      QueueStep s (s.goto t .testing)
  | remove (s : QueueState τ α) (t : τ) (rest : List α) (rc : α) (h : s.pc t = .removing)
      (hback : s.dQueue = rest ++ [rc]) :
      QueueStep s { s.goto t .outside with
        dQueue := rest, dMutex := none, returned := s.returned ++ [rc] }

def QueueReachable : QueueState τ α → Prop := Relation.ReflTransGen QueueStep QueueState.empty

/-! ## The queue as a list from oldest to newest -/

def QueueState.contents (s : QueueState τ α) : List α := s.dQueue.reverse

/-- What an atomic FIFO queue does in one step: nothing, append, or take the head. -/
inductive FifoStep : List α → List α → Prop
  | idle (q : List α) : FifoStep q q
  | push (q : List α) (value : α) : FifoStep q (q ++ [value])
  | pop (q : List α) (value : α) : FifoStep (value :: q) q

theorem FifoStep.atEnd (q : List α) (new : Option α) : FifoStep q (q ++ new.toList) := by
  cases new with
  | none => exact (List.append_nil q).symm ▸ .idle q
  | some value => exact .push q value

theorem FifoStep.atFront (q : List α) (old : Option α) : FifoStep (old.toList ++ q) q := by
  cases old with
  | none => exact .idle q
  | some value => exact .pop q value

omit [DecidableEq τ] in
theorem contents_back {s : QueueState τ α} {rest : List α} {rc : α}
    (h : s.dQueue = rest ++ [rc]) : s.contents = rc :: rest.reverse := by
  simp [QueueState.contents, h]

/-- The blocking queue refines the atomic one. -/
theorem QueueStep.refines {s s' : QueueState τ α} (h : QueueStep s s') :
    FifoStep s.contents s'.contents := by
  cases h with
  | insert t value h hlock =>
    simpa [QueueState.contents, QueueState.goto] using FifoStep.push s.contents value
  | remove t rest rc h hback =>
    rw [contents_back hback]
    exact FifoStep.pop rest.reverse rc
  | _ => exact FifoStep.idle s.contents

/-- What was removed, then what is still there, is what was inserted. -/
theorem QueueReachable.fifo {s : QueueState τ α} (h : QueueReachable s) :
    s.returned ++ s.contents = s.inserted := by
  induction h with
  | refl => rfl
  | tail _ hstep ih =>
    cases hstep with
    | insert t value h hlock =>
      simp [QueueState.contents, ← ih]
    | remove t rest rc h hback =>
      rw [contents_back hback] at ih
      simp [QueueState.contents, ← ih]
    | _ => exact ih

/-! ## No lost wake-up -/

section Wakeup
variable [Fintype τ]

/-- While somebody sleeps, every value in the queue is covered by a pending
notification or by a thread awake in `pop`. -/
def Covered (pc : τ → QueuePc α) (dQueue : List α) : Prop :=
  (∃ t, pc t = .sleeping) → dQueue.length ≤ ∑ t, (pc t).active

variable {pc : τ → QueuePc α} {dQueue : List α}

omit [Fintype τ] in
theorem sleeping_of_update {t : τ} {x : QueuePc α} (hx : x ≠ .sleeping)
    (h : ∃ u, Function.update pc t x u = .sleeping) : ∃ u, pc u = .sleeping := by
  obtain ⟨u, hu⟩ := h
  by_cases hut : u = t
  · subst hut
    exact absurd (by simpa using hu) hx
  · exact ⟨u, by simpa [hut] using hu⟩

theorem Covered.move (hc : Covered pc dQueue) {t : τ} {x : QueuePc α} {q : List α}
    (hx : x ≠ .sleeping) (hq : q.length + (pc t).active ≤ dQueue.length + x.active) :
    Covered (Function.update pc t x) q := by
  intro hs
  have hle := hc (sleeping_of_update hx hs)
  have hsum := ChannelNetwork.sum_rank_update (fun _ => QueuePc.active) pc t x
  omega

/-- A notification that wakes a sleeper is replaced by that thread. -/
theorem Covered.notifyOne (hc : Covered pc dQueue) {t u : τ} (h : pc t = .notifying)
    (hu : pc u = .sleeping) :
    Covered (Function.update (Function.update pc t .outside) u .testing) dQueue := by
  intro _
  have hle := hc ⟨u, hu⟩
  have hne : u ≠ t := fun he => by rw [he, h] at hu; cases hu
  have ht := ChannelNetwork.sum_rank_update (fun _ => QueuePc.active) pc t .outside
  have hw := ChannelNetwork.sum_rank_update (fun _ => QueuePc.active)
    (Function.update pc t .outside) u .testing
  simp only [Function.update_of_ne hne, h, hu] at ht hw
  change _ + 1 = _ + 0 at ht
  change _ + 0 = _ + 1 at hw
  omega

theorem QueueStep.covered {s s' : QueueState τ α} (h : QueueStep s s')
    (hc : Covered s.pc s.dQueue) : Covered s'.pc s'.dQueue := by
  cases h with
  | callPush t value h => exact hc.move (by simp) (by simp [h, QueuePc.active])
  | insert t value h hlock => exact hc.move (by simp) (by simp [h, QueuePc.active])
  | notifyNobody t h hnone =>
    intro hs
    obtain ⟨u, hu⟩ := sleeping_of_update (by simp) hs
    exact absurd hu (hnone u)
  | notifyOne t u h hu => exact hc.notifyOne h hu
  | callPop t h => exact hc.move (by simp) (by simp [h, QueuePc.active])
  | testEmpty t h hlock hempty =>
    intro _
    simp [QueueState.goto, hempty]
  | testNonempty t h hlock hne => exact hc.move (by simp) (by simp [h, QueuePc.active])
  | wakeSpuriously t h => exact hc.move (by simp) (by simp [h, QueuePc.active])
  | remove t rest rc h hback => exact hc.move (by simp) (by simp [h, hback, QueuePc.active])

theorem QueueReachable.covered {s : QueueState τ α} (h : QueueReachable s) :
    Covered s.pc s.dQueue := by
  induction h with
  | refl => exact fun _ => Nat.zero_le _
  | tail _ hstep ih => exact hstep.covered ih

/-- A value waits while a thread sleeps, and nobody is on the way to it. -/
def LostWakeup (s : QueueState τ α) : Prop :=
  s.dQueue ≠ [] ∧ (∃ t, s.pc t = .sleeping) ∧ (∀ t, s.pc t ≠ .notifying) ∧ ∀ t, ¬ (s.pc t).Awake

omit [DecidableEq τ] in
theorem Covered.not_lostWakeup {s : QueueState τ α} (hc : Covered s.pc s.dQueue) :
    ¬ LostWakeup s := by
  rintro ⟨hne, hsleep, hnotify, hawake⟩
  have hzero : ∑ t, (s.pc t).active = 0 := Finset.sum_eq_zero fun t _ => by
    have hn := hnotify t
    have ha := hawake t
    cases hpc : s.pc t <;> simp_all [QueuePc.active, QueuePc.Awake]
  have hlen := List.length_pos_of_ne_nil hne
  have := hc hsleep
  omega

/-- The blocking queue is a FIFO without lost wake-ups. -/
theorem blockingQueue_fifo (s : QueueState τ α) (h : QueueReachable s) :
    s.returned ++ s.contents = s.inserted ∧ ¬ LostWakeup s :=
  ⟨h.fifo, h.covered.not_lostWakeup⟩

/-- Thread 1 fell asleep on the empty queue, then thread 0 inserted 7 and has not
notified yet. -/
def beforeNotify : QueueState (Fin 2) ℕ :=
  { (((QueueState.empty.goto 1 .testing).goto 1 .sleeping).goto 0 (.inserting 7)).goto 0 .notifying
    with dQueue := [7], inserted := [7] }

theorem blockingQueue_fifo_beforeNotify :
    beforeNotify.returned ++ beforeNotify.contents = beforeNotify.inserted ∧
      ¬ LostWakeup beforeNotify :=
  blockingQueue_fifo beforeNotify
    (.tail (.tail (.tail (.tail .refl (.callPop _ 1 rfl)) (.testEmpty _ 1 rfl rfl rfl))
      (.callPush _ 0 7 rfl)) (.insert _ 0 7 rfl rfl))

end Wakeup

/-! ## The mutex -/

/-- The threads past the predicate test are the holders of the mutex, and the
deque they remove from is not empty. -/
structure Locked (s : QueueState τ α) : Prop where
  holder : ∀ t, s.pc t = .removing ↔ s.dMutex = some t
  nonempty : s.dMutex ≠ none → s.dQueue ≠ []

theorem Locked.goto {s : QueueState τ α} (hl : Locked s) {t : τ} {x : QueuePc α}
    (h : s.pc t ≠ .removing) (hx : x ≠ .removing) : Locked (s.goto t x) where
  holder u := by
    by_cases hut : u = t
    · subst hut
      simpa [hx] using fun hm => h ((hl.holder u).mpr hm)
    · simpa [hut] using hl.holder u
  nonempty := hl.nonempty

theorem QueueStep.locked {s s' : QueueState τ α} (h : QueueStep s s') (hl : Locked s) :
    Locked s' := by
  cases h with
  | callPush t value h => exact hl.goto (by simp [h]) (by simp)
  | insert t value h hlock =>
    refine ⟨(hl.goto (by simp [h]) (by simp)).holder, ?_⟩
    simp [hlock]
  | notifyNobody t h hnone => exact hl.goto (by simp [h]) (by simp)
  | notifyOne t u h hu =>
    refine (hl.goto (by simp [h]) (by simp)).goto ?_ (by simp)
    have hne : u ≠ t := fun he => by rw [he, h] at hu; cases hu
    simp [hne, hu]
  | callPop t h => exact hl.goto (by simp [h]) (by simp)
  | testEmpty t h hlock hempty => exact hl.goto (by simp [h]) (by simp)
  | testNonempty t h hlock hne =>
    refine ⟨fun u => ?_, fun _ => hne⟩
    by_cases hut : u = t
    · subst hut
      simp
    · have hu := hl.holder u
      simp only [hlock, reduceCtorEq, iff_false] at hu
      simpa [hut, hu] using fun he => hut he.symm
  | wakeSpuriously t h => exact hl.goto (by simp [h]) (by simp)
  | remove t rest rc h hback =>
    refine ⟨fun u => ?_, by simp⟩
    have hm := (hl.holder t).mp h
    by_cases hut : u = t
    · subst hut
      simp
    · have hu := hl.holder u
      simpa [hut, hu, hm] using fun he => hut he.symm

theorem QueueReachable.locked {s : QueueState τ α} (h : QueueReachable s) : Locked s := by
  induction h with
  | refl => exact ⟨fun u => by simp [QueueState.empty], by simp [QueueState.empty]⟩
  | tail _ hstep ih => exact hstep.locked ih

/-- A thread that removes always finds a value: the test and the removal are one
critical section. -/
theorem QueueReachable.exists_back {s : QueueState τ α} (h : QueueReachable s) {t : τ}
    (ht : s.pc t = .removing) : ∃ rest rc, s.dQueue = rest ++ [rc] := by
  have hl := h.locked
  have hne := hl.nonempty (by rw [(hl.holder t).mp ht]; simp)
  exact ⟨s.dQueue.dropLast, s.dQueue.getLast hne, (List.dropLast_append_getLast hne).symm⟩

end WaterMark.Queue
