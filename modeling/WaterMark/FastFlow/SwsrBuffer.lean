import WaterMark.Library.CircularWindow
import WaterMark.Queue.Blocking

/-! # The bounded buffer of FastFlow

`SWSR_Ptr_Buffer`: one thread pushes and one thread pops, without locks, on a
circular array. A null in the slot of `pwrite` tells the writer that there is
room, a null in the slot of `pread` tells the reader that there is nothing.
-/

namespace WaterMark.FastFlow.Swsr
open CircularWindow Queue

variable {α : Type*}

inductive WriterPc (α : Type*) where
  | idle
  | testing (data : α)
  | storing (data : α)
  | advancing

inductive ReaderPc (α : Type*) where
  | idle
  | testing
  | reading
  | clearing (value : α)
  | advancing

/-- The members of the buffer and the places of its two threads, with the values
stored and cleared so far. -/
structure BufferState (α : Type*) where
  pread : ℕ
  pwrite : ℕ
  buf : ℕ → Option α
  writer : WriterPc α
  reader : ReaderPc α
  pushed : List α
  popped : List α

def BufferState.empty : BufferState α := ⟨0, 0, fun _ => none, .idle, .idle, [], []⟩

/-- The accesses to memory of `push`, one after the other. The first is the test
of `available`, and `full` ends in the result false. -/
inductive PushStep (size : ℕ) : BufferState α → BufferState α → Prop
  | full (s : BufferState α) (data : α) (h : s.writer = .testing data)
      (hfull : s.buf s.pwrite ≠ none) : PushStep size s { s with writer := .idle }
  | available (s : BufferState α) (data : α) (h : s.writer = .testing data)
      (hnull : s.buf s.pwrite = none) : PushStep size s { s with writer := .storing data }
  | store (s : BufferState α) (data : α) (h : s.writer = .storing data) :
      PushStep size s { s with
        writer := .advancing
        buf := Function.update s.buf s.pwrite (some data)
        pushed := s.pushed ++ [data] }
  | advance (s : BufferState α) (h : s.writer = .advancing) :
      PushStep size s { s with writer := .idle, pwrite := next size s.pwrite }

/-- The accesses to memory of `pop`. The first is the test of `empty`, and `empty`
ends in the result false. -/
inductive PopStep (size : ℕ) : BufferState α → BufferState α → Prop
  | empty (s : BufferState α) (h : s.reader = .testing) (hnull : s.buf s.pread = none) :
      PopStep size s { s with reader := .idle }
  | nonempty (s : BufferState α) (h : s.reader = .testing) (hne : s.buf s.pread ≠ none) :
      PopStep size s { s with reader := .reading }
  | read (s : BufferState α) (value : α) (h : s.reader = .reading)
      (hvalue : s.buf s.pread = some value) :
      PopStep size s { s with reader := .clearing value }
  | clear (s : BufferState α) (value : α) (h : s.reader = .clearing value) :
      PopStep size s { s with
        reader := .advancing
        buf := Function.update s.buf s.pread none
        popped := s.popped ++ [value] }
  | advance (s : BufferState α) (h : s.reader = .advancing) :
      PopStep size s { s with reader := .idle, pread := next size s.pread }

inductive BufferStep (size : ℕ) : BufferState α → BufferState α → Prop
  | callPush (s : BufferState α) (data : α) (h : s.writer = .idle) :
      BufferStep size s { s with writer := .testing data }
  | push (s s' : BufferState α) (h : PushStep size s s') : BufferStep size s s'
  | callPop (s : BufferState α) (h : s.reader = .idle) :
      BufferStep size s { s with reader := .testing }
  | pop (s s' : BufferState α) (h : PopStep size s s') : BufferStep size s s'

def BufferReachable (size : ℕ) : BufferState α → Prop :=
  Relation.ReflTransGen (BufferStep size) .empty

/-- A value is stored, and `pwrite` has not moved yet. -/
def WriterPc.stored : WriterPc α → ℕ
  | .advancing => 1
  | _ => 0

/-- A slot is cleared, and `pread` has not moved yet. -/
def ReaderPc.cleared : ReaderPc α → ℕ
  | .advancing => 1
  | _ => 0

def BufferState.contents (s : BufferState α) : List α := s.pushed.drop s.popped.length

/-- What holds whenever both threads stand somewhere in their calls. -/
structure BufferInv (size : ℕ) (s : BufferState α) : Prop where
  window : Window size s.buf s.pushed s.popped.length
  popped : s.popped <+: s.pushed
  pread : ∃ r, s.pread = r % size ∧ r + s.reader.cleared = s.popped.length
  pwrite : ∃ w, s.pwrite = w % size ∧ w + s.writer.stored = s.pushed.length
  storing : ∀ data, s.writer = .storing data → s.pushed.length < s.popped.length + size
  reading : s.reader = .reading → s.popped.length < s.pushed.length
  clearing : ∀ value, s.reader = .clearing value → s.pushed[s.popped.length]? = some value

section Inv
variable {size : ℕ} {s s' : BufferState α}

theorem BufferInv.pwrite_eq (h : BufferInv size s) (hw : s.writer.stored = 0) :
    s.pwrite = s.pushed.length % size := by
  obtain ⟨w, hpw, hlen⟩ := h.pwrite
  rw [hpw, ← hlen, hw, Nat.add_zero]

theorem BufferInv.pread_eq (h : BufferInv size s) (hr : s.reader.cleared = 0) :
    s.pread = s.popped.length % size := by
  obtain ⟨r, hpr, hlen⟩ := h.pread
  rw [hpr, ← hlen, hr, Nat.add_zero]

/-- The writer sees that there is room if and only if there is. -/
theorem BufferInv.available (h : BufferInv size s) (hsize : 0 < size)
    (hw : s.writer.stored = 0) :
    s.buf s.pwrite = none ↔ s.pushed.length < s.popped.length + size := by
  rw [h.pwrite_eq hw]
  exact h.window.back_none hsize

/-- The reader sees that there is nothing if and only if there is nothing. -/
theorem BufferInv.empty (h : BufferInv size s) (hsize : 0 < size) (hr : s.reader.cleared = 0) :
    s.buf s.pread = none ↔ s.popped = s.pushed := by
  rw [h.pread_eq hr, h.window.front_none hsize]
  exact ⟨h.popped.eq_of_length, congrArg List.length⟩

theorem BufferInv.read (h : BufferInv size s) (hr : s.reader.cleared = 0)
    (hne : s.popped.length < s.pushed.length) : s.buf s.pread = s.pushed[s.popped.length]? := by
  rw [h.pread_eq hr]
  exact h.window.filled _ le_rfl hne

theorem BufferInv.start (size : ℕ) : BufferInv size (.empty : BufferState α) where
  window := .empty size
  popped := List.prefix_rfl
  pread := ⟨0, (Nat.zero_mod size).symm, rfl⟩
  pwrite := ⟨0, (Nat.zero_mod size).symm, rfl⟩
  storing data h := by cases h
  reading h := by cases h
  clearing value h := by cases h

theorem BufferInv.writer (h : BufferInv size s) {x : WriterPc α} (hx : x.stored = s.writer.stored)
    (hstoring : ∀ data, x = .storing data → s.pushed.length < s.popped.length + size) :
    BufferInv size { s with writer := x } :=
  { h with
    pwrite := by
      obtain ⟨w, hpw, hlen⟩ := h.pwrite
      exact ⟨w, hpw, hx ▸ hlen⟩
    storing := hstoring }

theorem BufferInv.reader (h : BufferInv size s) {x : ReaderPc α}
    (hx : x.cleared = s.reader.cleared)
    (hreading : x = .reading → s.popped.length < s.pushed.length)
    (hclearing : ∀ value, x = .clearing value → s.pushed[s.popped.length]? = some value) :
    BufferInv size { s with reader := x } :=
  { h with
    pread := by
      obtain ⟨r, hpr, hlen⟩ := h.pread
      exact ⟨r, hpr, hx ▸ hlen⟩
    reading := hreading
    clearing := hclearing }

theorem BufferInv.store (h : BufferInv size s) {data : α} (hw : s.writer = .storing data) :
    BufferInv size { s with
      writer := .advancing
      buf := Function.update s.buf s.pwrite (some data)
      pushed := s.pushed ++ [data] } where
  window := by
    have hslot := h.pwrite_eq (by rw [hw]; rfl)
    simp only [hslot]
    exact h.window.push (h.storing data hw) data
  popped := h.popped.trans (List.prefix_append _ _)
  pread := h.pread
  pwrite := by
    refine ⟨s.pushed.length, h.pwrite_eq (by rw [hw]; rfl), ?_⟩
    rw [List.length_append]
    rfl
  storing data h := by cases h
  reading hr := by
    rw [List.length_append]
    exact Nat.lt_add_right _ (h.reading hr)
  clearing value hr := by
    have hget := h.clearing value hr
    rwa [List.getElem?_append_left (List.getElem?_eq_some_iff.mp hget).1]

theorem BufferInv.clear (h : BufferInv size s) {value : α} (hr : s.reader = .clearing value) :
    BufferInv size { s with
      reader := .advancing
      buf := Function.update s.buf s.pread none
      popped := s.popped ++ [value] } where
  window := by
    have hslot := h.pread_eq (by rw [hr]; rfl)
    have hget := h.clearing value hr
    simp only [hslot, List.length_append, List.length_singleton]
    exact h.window.pop (List.getElem?_eq_some_iff.mp hget).1
  popped := by
    obtain ⟨rest, hrest⟩ := h.popped
    have hget := h.clearing value hr
    rw [← hrest, List.getElem?_append_right le_rfl, Nat.sub_self] at hget
    cases rest with
    | nil => cases hget
    | cons v rest =>
      cases hget
      exact ⟨rest, by rw [← hrest, List.append_assoc]; rfl⟩
  pread := by
    refine ⟨s.popped.length, h.pread_eq (by rw [hr]; rfl), ?_⟩
    rw [List.length_append]
    rfl
  pwrite := h.pwrite
  storing data hw := by
    rw [List.length_append, List.length_singleton]
    exact (h.storing data hw).trans (by omega)
  reading h := by cases h
  clearing value h := by cases h

theorem BufferInv.callPush (h : BufferInv size s) (data : α) (hw : s.writer = .idle) :
    BufferInv size { s with writer := .testing data } :=
  h.writer (by rw [hw]; rfl) fun _ he => by cases he

theorem BufferInv.callPop (h : BufferInv size s) (hr : s.reader = .idle) :
    BufferInv size { s with reader := .testing } :=
  h.reader (by rw [hr]; rfl) (fun he => by cases he) fun _ he => by cases he

theorem PushStep.inv (hsize : 0 < size) (hstep : PushStep size s s') (h : BufferInv size s) :
    BufferInv size s' := by
  cases hstep with
  | full data hw hfull => exact h.writer (by rw [hw]; rfl) fun _ he => by cases he
  | available data hw hnull =>
    apply h.writer (by rw [hw]; rfl)
    intro _ _
    exact (h.available hsize (by rw [hw]; rfl)).mp hnull
  | store data hw => exact h.store hw
  | advance hw =>
    obtain ⟨w, hpw, hlen⟩ := h.pwrite
    rw [hw] at hlen
    refine { h with pwrite := ⟨w + 1, ?_, hlen⟩, storing := fun _ he => by cases he }
    rw [hpw]
    exact next_mod hsize w

theorem PopStep.inv (hsize : 0 < size) (hstep : PopStep size s s') (h : BufferInv size s) :
    BufferInv size s' := by
  cases hstep with
  | empty hr hnull =>
    exact h.reader (by rw [hr]; rfl) (fun he => by cases he) fun _ he => by cases he
  | nonempty hr hne =>
    apply h.reader (by rw [hr]; rfl)
    · intro _
      have hwhole := (h.empty hsize (by rw [hr]; rfl)).not.mp hne
      exact lt_of_le_of_ne h.popped.length_le fun he => hwhole (h.popped.eq_of_length he)
    · intro _ he
      cases he
  | read value hr hvalue =>
    apply h.reader (by rw [hr]; rfl)
    · intro he
      cases he
    · intro v he
      cases he
      rw [← h.read (by rw [hr]; rfl) (h.reading hr), hvalue]
  | clear value hr => exact h.clear hr
  | advance hr =>
    obtain ⟨r, hpr, hlen⟩ := h.pread
    rw [hr] at hlen
    refine { h with
      pread := ⟨r + 1, ?_, hlen⟩
      reading := fun he => by cases he
      clearing := fun _ he => by cases he }
    rw [hpr]
    exact next_mod hsize r

theorem BufferStep.inv (hsize : 0 < size) (hstep : BufferStep size s s') (h : BufferInv size s) :
    BufferInv size s' := by
  cases hstep with
  | callPush data hw => exact h.callPush data hw
  | push _ hpush => exact hpush.inv hsize h
  | callPop hr => exact h.callPop hr
  | pop _ hpop => exact hpop.inv hsize h

theorem BufferReachable.inv (hsize : 0 < size) (h : BufferReachable size s) : BufferInv size s := by
  induction h with
  | refl => exact .start size
  | tail _ hstep ih => exact hstep.inv hsize ih

end Inv

/-! ## The buffer as a bounded FIFO queue -/

section Fifo
variable {size : ℕ} {s s' : BufferState α}

theorem BufferInv.append_contents (h : BufferInv size s) : s.popped ++ s.contents = s.pushed :=
  List.prefix_iff_eq_append.mp h.popped

theorem BufferInv.length_contents (h : BufferInv size s) :
    s.popped.length + s.contents.length = s.pushed.length := by
  rw [← List.length_append, h.append_contents]

theorem BufferInv.contents_nil (h : BufferInv size s) :
    s.contents = [] ↔ s.popped = s.pushed := by
  constructor
  · intro hnil
    have happ := h.append_contents
    rwa [hnil, List.append_nil] at happ
  · intro heq
    rw [BufferState.contents, heq, List.drop_length]

theorem BufferState.head?_contents (s : BufferState α) :
    s.contents.head? = s.pushed[s.popped.length]? := by
  rw [BufferState.contents, List.head?_drop]

theorem PushStep.contents (hstep : PushStep size s s') (h : BufferInv size s) :
    ∃ new : Option α, s'.pushed = s.pushed ++ new.toList ∧ s'.popped = s.popped ∧
      s'.contents = s.contents ++ new.toList := by
  cases hstep with
  | store data hw =>
    exact ⟨some data, rfl, rfl, List.drop_append_of_le_length h.popped.length_le⟩
  | _ => exact ⟨none, (List.append_nil _).symm, rfl, (List.append_nil _).symm⟩

theorem PushStep.reader (hstep : PushStep size s s') : s'.reader = s.reader := by
  cases hstep <;> rfl

theorem PushStep.not_testing (hstep : PushStep size s s') (data : α) :
    s'.writer ≠ .testing data := by
  cases hstep <;> rintro ⟨⟩

theorem PopStep.writer (hstep : PopStep size s s') : s'.writer = s.writer := by
  cases hstep <;> rfl

theorem PopStep.not_testing (hstep : PopStep size s s') : s'.reader ≠ .testing := by
  cases hstep <;> rintro ⟨⟩

theorem PopStep.contents (hstep : PopStep size s s') (h : BufferInv size s) :
    ∃ old : Option α, s'.popped = s.popped ++ old.toList ∧ s'.pushed = s.pushed ∧
      s.contents = old.toList ++ s'.contents := by
  cases hstep with
  | clear value hr =>
    obtain ⟨hlt, hvalue⟩ := List.getElem?_eq_some_iff.mp (h.clearing value hr)
    refine ⟨some value, rfl, rfl, ?_⟩
    simp only [BufferState.contents, List.length_append, List.length_singleton]
    rw [List.drop_eq_getElem_cons hlt, hvalue]
    rfl
  | _ => exact ⟨none, (List.append_nil _).symm, rfl, rfl⟩

/-- One access to memory is at most one operation of the queue. -/
theorem BufferStep.refines (hstep : BufferStep size s s') (h : BufferInv size s) :
    FifoStep s.contents s'.contents := by
  cases hstep with
  | callPush data hw => exact .idle _
  | push _ hpush =>
    obtain ⟨new, -, -, hcontents⟩ := hpush.contents h
    exact hcontents ▸ .atEnd _ new
  | callPop hr => exact .idle _
  | pop _ hpop =>
    obtain ⟨old, -, -, hcontents⟩ := hpop.contents h
    exact hcontents ▸ .atFront _ old

theorem BufferInv.pread_lt (h : BufferInv size s) (hsize : 0 < size) : s.pread < size := by
  obtain ⟨r, hr, -⟩ := h.pread
  exact hr ▸ Nat.mod_lt r hsize

theorem BufferInv.pwrite_lt (h : BufferInv size s) (hsize : 0 < size) : s.pwrite < size := by
  obtain ⟨w, hw, -⟩ := h.pwrite
  exact hw ▸ Nat.mod_lt w hsize

/-- Until a value is stored the test of `available` says whether there is room. -/
theorem BufferInv.room (h : BufferInv size s) (hsize : 0 < size) (hw : s.writer.stored = 0) :
    s.buf s.pwrite = none ↔ s.contents.length < size := by
  have hlen := h.length_contents
  rw [h.available hsize hw]
  omega

theorem BufferInv.head (h : BufferInv size s) (hsize : 0 < size) (hr : s.reader.cleared = 0) :
    s.buf s.pread = s.contents.head? := by
  by_cases hne : s.popped.length < s.pushed.length
  · rw [h.read hr hne, s.head?_contents]
  · have heq := h.popped.eq_of_length (le_antisymm h.popped.length_le (not_lt.mp hne))
    rw [(h.empty hsize hr).mpr heq, h.contents_nil.mpr heq, List.head?_nil]

/-- When the writer stores, a reader past its null test is at another slot. -/
theorem BufferInv.apart (h : BufferInv size s) (hsize : 0 < size) {data : α}
    (hw : s.writer = .storing data) (hr : s.reader.cleared = 0) (hne : s.contents ≠ []) :
    s.pwrite ≠ s.pread := by
  intro heq
  have hroom := (h.available hsize (by rw [hw]; rfl)).mpr (h.storing data hw)
  rw [heq, h.empty hsize hr, ← h.contents_nil] at hroom
  exact hne hroom

/-- Every run of one thread that pushes and one that pops. -/
theorem swsrBuffer_fifo (hsize : 0 < size) (h : BufferReachable size s) :
    s.popped ++ s.contents = s.pushed ∧ s.contents.length ≤ size ∧
      s.pread < size ∧ s.pwrite < size ∧
      (∀ data, s.writer = .testing data → (s.buf s.pwrite = none ↔ s.contents.length < size)) ∧
      (∀ data, s.writer = .storing data → s.contents.length < size ∧ s.buf s.pwrite = none) ∧
      (s.reader = .testing → (s.buf s.pread = none ↔ s.contents = [])) ∧
      (s.reader = .reading → s.contents ≠ [] ∧ s.buf s.pread = s.contents.head?) ∧
      (∀ value, s.reader = .clearing value → s.contents.head? = some value) ∧
      (∀ data, s.writer = .storing data →
        (s.reader = .reading ∨ ∃ value, s.reader = .clearing value) → s.pwrite ≠ s.pread) ∧
      ∀ s', BufferStep size s s' → FifoStep s.contents s'.contents := by
  have hinv := h.inv hsize
  have hlen := hinv.length_contents
  have hreading : s.reader = .reading → s.contents ≠ [] := fun hr hnil => by
    have hlt := hinv.reading hr
    rw [hnil, List.length_nil] at hlen
    omega
  have hclearing : ∀ value, s.reader = .clearing value → s.contents.head? = some value :=
    fun value hr => by rw [s.head?_contents, hinv.clearing value hr]
  refine ⟨hinv.append_contents, ?_, hinv.pread_lt hsize, hinv.pwrite_lt hsize, ?_, ?_, ?_, ?_,
    hclearing, ?_, fun s' hstep => hstep.refines hinv⟩
  · have := hinv.window.room
    omega
  · intro data hw
    exact hinv.room hsize (by rw [hw]; rfl)
  · intro data hw
    have hroom := hinv.room hsize (by rw [hw]; rfl)
    have hlt : s.contents.length < size := by
      have := hinv.storing data hw
      omega
    exact ⟨hlt, hroom.mpr hlt⟩
  · intro hr
    rw [hinv.empty hsize (by rw [hr]; rfl), hinv.contents_nil]
  · intro hr
    exact ⟨hreading hr, hinv.head hsize (by rw [hr]; rfl)⟩
  · rintro data hw (hr | ⟨value, hr⟩)
    · exact hinv.apart hsize hw (by rw [hr]; rfl) (hreading hr)
    · refine hinv.apart hsize hw (by rw [hr]; rfl) fun hnil => ?_
      have hhead := hclearing value hr
      rw [hnil] at hhead
      cases hhead

/-- The only slot of a buffer, filled and then seen by both threads. -/
theorem swsrBuffer_fifo_oneSlot : ∃ s : BufferState ℕ, BufferReachable 1 s ∧
    s.writer = .testing 8 ∧ s.reader = .reading ∧ s.contents = [7] ∧ s.buf s.pwrite ≠ none ∧
      s.buf s.pread = some 7 := by
  have hstored : BufferReachable 1 (⟨0, 0, Function.update (fun _ => none) 0 (some 7),
      .idle, .idle, [7], []⟩ : BufferState ℕ) :=
    (((Relation.ReflTransGen.single (.callPush _ 7 rfl)).tail
      (.push _ _ (.available _ 7 rfl rfl))).tail
        (.push _ _ (.store _ 7 rfl))).tail (.push _ _ (.advance _ rfl))
  have hreach : BufferReachable 1 (⟨0, 0, Function.update (fun _ => none) 0 (some 7),
      .testing 8, .reading, [7], []⟩ : BufferState ℕ) :=
    ((hstored.tail (.callPush _ 8 rfl)).tail (.callPop _ rfl)).tail
      (.pop _ _ (.nonempty _ rfl (by simp)))
  have hfifo := swsrBuffer_fifo Nat.one_pos hreach
  refine ⟨_, hreach, rfl, rfl, rfl, ?_, (hfifo.2.2.2.2.2.2.2.1 rfl).2⟩
  intro hnull
  exact absurd ((hfifo.2.2.2.2.1 8 rfl).mp hnull) (by decide)

end Fifo

end WaterMark.FastFlow.Swsr
