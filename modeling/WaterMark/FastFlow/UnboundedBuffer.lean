import WaterMark.FastFlow.SwsrBuffer

/-! # The unbounded buffer of FastFlow

`uSWSR_Ptr_Buffer`, the channel between two nodes: a chain of bounded buffers. The
writer adds a buffer when the last one is full, the reader releases the first one
when it is empty and not the writer's. Its pool is taken from its two queues, of
the buffers in use and of the released ones, one operation at a time.
-/

namespace WaterMark.FastFlow.Unbounded
open Queue Swsr

variable {α : Type*}

def cacheSize : ℕ := 32

/-- Where the writer stands in `push`; `nextW` and `enqueue` are in `next_w`. -/
inductive Writer (α : Type*) where
  | idle
  | testing (data : α)
  | nextW (data : α)
  | enqueue (t : ℕ) (data : α)
  | switch (t : ℕ) (data : α)
  | pushing

/-- Where the reader stands in `pop`; `comparing` keeps how many values were stored
when the buffer was seen empty. -/
inductive Reader where
  | idle
  | testing
  | comparing (stored : ℕ)
  | retesting
  | nextR
  | releasing (tmp : ℕ)
  | switching (tmp : ℕ)
  | popping

def Reader.next : Reader → Option ℕ
  | .releasing tmp => some tmp
  | .switching tmp => some tmp
  | _ => none

/-- The bounded buffers by their pointers, and what the two threads have stored
and cleared. -/
structure State (α : Type*) where
  bufs : ℕ → BufferState α
  buf_r : ℕ
  buf_w : ℕ
  inuse : List ℕ
  bufcache : List ℕ
  writer : Writer α
  reader : Reader
  pushed : List α
  popped : List α

def State.start : State α := ⟨fun _ => .empty, 0, 0, [], [], .idle, .idle, [], []⟩

namespace State

def Available (s : State α) : Prop := (s.bufs s.buf_w).buf (s.bufs s.buf_w).pwrite = none

def Empty (s : State α) : Prop := (s.bufs s.buf_r).buf (s.bufs s.buf_r).pread = none

def callPush (s : State α) (data : α) : State α :=
  { s with
    bufs := Function.update s.bufs s.buf_w { s.bufs s.buf_w with writer := .testing data }
    writer := .pushing }

def callPop (s : State α) : State α :=
  { s with
    bufs := Function.update s.bufs s.buf_r { s.bufs s.buf_r with reader := .testing }
    reader := .popping }

/-- The buffer that `buf_r` points to, or will when the reader has switched. -/
def head (s : State α) : ℕ := s.reader.next.getD s.buf_r

/-- The buffer that the reader is about to release. -/
def older (s : State α) : List ℕ :=
  match s.reader with
  | .releasing _ => [s.buf_r]
  | _ => []

end State

/-- The buffer that the writer has taken from the pool. -/
def Writer.newer : Writer α → List ℕ
  | .enqueue t _ => [t]
  | .switch t _ => [t]
  | _ => []

/-- The buffer that is in use already and not the writer's yet. -/
def Writer.ahead : Writer α → List ℕ
  | .switch t _ => [t]
  | _ => []

namespace State

def live (s : State α) : List ℕ := s.head :: s.inuse ++ s.writer.newer ++ s.bufcache ++ s.older

def contents (s : State α) : List α := (s.head :: s.inuse).flatMap fun b => (s.bufs b).contents

end State

section Calls
variable (s : State α) (data : α) {b : ℕ}

theorem callPush_self : (s.callPush data).bufs s.buf_w =
    { s.bufs s.buf_w with writer := .testing data } := Function.update_self ..

theorem callPush_of_ne (hb : b ≠ s.buf_w) : (s.callPush data).bufs b = s.bufs b :=
  Function.update_of_ne hb ..

theorem callPop_self : s.callPop.bufs s.buf_r = { s.bufs s.buf_r with reader := .testing } :=
  Function.update_self ..

theorem callPop_of_ne (hb : b ≠ s.buf_r) : s.callPop.bufs b = s.bufs b :=
  Function.update_of_ne hb ..

theorem contents_callPush (b : ℕ) : ((s.callPush data).bufs b).contents = (s.bufs b).contents := by
  by_cases hb : b = s.buf_w
  · rw [hb, callPush_self]
    rfl
  · rw [callPush_of_ne s data hb]

theorem contents_callPop (b : ℕ) : (s.callPop.bufs b).contents = (s.bufs b).contents := by
  by_cases hb : b = s.buf_r
  · rw [hb, callPop_self]
    rfl
  · rw [callPop_of_ne s hb]

theorem reader_callPush (b : ℕ) : ((s.callPush data).bufs b).reader = (s.bufs b).reader := by
  by_cases hb : b = s.buf_w
  · rw [hb, callPush_self]
  · rw [callPush_of_ne s data hb]

theorem writer_callPop (b : ℕ) : (s.callPop.bufs b).writer = (s.bufs b).writer := by
  by_cases hb : b = s.buf_r
  · rw [hb, callPop_self]
  · rw [callPop_of_ne s hb]

end Calls

/-- The accesses to memory of `push`; what `next_w` does with its queues is one step each. -/
inductive WriterStep (size : ℕ) (fixedsize : Bool) : State α → State α → Prop
  | call (s : State α) (data : α) (h : s.writer = .idle) :
      WriterStep size fixedsize s { s with writer := .testing data }
  | available (s : State α) (data : α) (h : s.writer = .testing data) (hroom : s.Available) :
      WriterStep size fixedsize s (s.callPush data)
  | full (s : State α) (data : α) (h : s.writer = .testing data) (hfull : ¬ s.Available)
      (hfixed : fixedsize = true) : WriterStep size fixedsize s { s with writer := .idle }
  | grow (s : State α) (data : α) (h : s.writer = .testing data) (hfull : ¬ s.Available)
      (hfixed : fixedsize = false) :
      WriterStep size fixedsize s { s with writer := .nextW data }
  | hit (s : State α) (data : α) (t : ℕ) (rest : List ℕ) (h : s.writer = .nextW data)
      (hcache : s.bufcache = t :: rest) :
      WriterStep size fixedsize s { s with writer := .enqueue t data, bufcache := rest }
  | miss (s : State α) (data : α) (t : ℕ) (h : s.writer = .nextW data)
      (hcache : s.bufcache = []) (hnew : t ∉ s.live) :
      WriterStep size fixedsize s { s with
        writer := .enqueue t data, bufs := Function.update s.bufs t .empty }
  | enqueue (s : State α) (data : α) (t : ℕ) (h : s.writer = .enqueue t data) :
      WriterStep size fixedsize s { s with writer := .switch t data, inuse := s.inuse ++ [t] }
  | switch (s : State α) (data : α) (t : ℕ) (h : s.writer = .switch t data) :
      WriterStep size fixedsize s ({ s with buf_w := t }.callPush data)
  | push (s : State α) (b : BufferState α) (h : s.writer = .pushing)
      (hstep : PushStep size (s.bufs s.buf_w) b) :
      WriterStep size fixedsize s { s with
        bufs := Function.update s.bufs s.buf_w b
        pushed := s.pushed ++ b.pushed.drop (s.bufs s.buf_w).pushed.length }
  | returned (s : State α) (h : s.writer = .pushing) (hdone : (s.bufs s.buf_w).writer = .idle) :
      WriterStep size fixedsize s { s with writer := .idle }

/-- The accesses to memory of `pop`; `next_r` and `release` are one step each, and `same`
ends in the result false. -/
inductive ReaderStep (size : ℕ) : State α → State α → Prop
  | call (s : State α) (h : s.reader = .idle) : ReaderStep size s { s with reader := .testing }
  | nonempty (s : State α) (h : s.reader = .testing) (hne : ¬ s.Empty) :
      ReaderStep size s s.callPop
  | empty (s : State α) (h : s.reader = .testing) (hnull : s.Empty) :
      ReaderStep size s { s with reader := .comparing s.pushed.length }
  | same (s : State α) (stored : ℕ) (h : s.reader = .comparing stored)
      (heq : s.buf_r = s.buf_w) : ReaderStep size s { s with reader := .idle }
  | differ (s : State α) (stored : ℕ) (h : s.reader = .comparing stored)
      (hne : s.buf_r ≠ s.buf_w) : ReaderStep size s { s with reader := .retesting }
  | filled (s : State α) (h : s.reader = .retesting) (hne : ¬ s.Empty) :
      ReaderStep size s s.callPop
  | drained (s : State α) (h : s.reader = .retesting) (hnull : s.Empty) :
      ReaderStep size s { s with reader := .nextR }
  | nextR (s : State α) (tmp : ℕ) (rest : List ℕ) (h : s.reader = .nextR)
      (hinuse : s.inuse = tmp :: rest) :
      ReaderStep size s { s with reader := .releasing tmp, inuse := rest }
  | noNext (s : State α) (h : s.reader = .nextR) (hinuse : s.inuse = []) :
      ReaderStep size s s.callPop
  | release (s : State α) (tmp : ℕ) (h : s.reader = .releasing tmp)
      (hroom : s.bufcache.length < cacheSize) :
      ReaderStep size s { s with
        reader := .switching tmp
        bufs := Function.update s.bufs s.buf_r .empty
        bufcache := s.bufcache ++ [s.buf_r] }
  | free (s : State α) (tmp : ℕ) (h : s.reader = .releasing tmp)
      (hfull : cacheSize ≤ s.bufcache.length) :
      ReaderStep size s { s with
        reader := .switching tmp, bufs := Function.update s.bufs s.buf_r .empty }
  | switch (s : State α) (tmp : ℕ) (h : s.reader = .switching tmp) :
      ReaderStep size s ({ s with buf_r := tmp }.callPop)
  | pop (s : State α) (b : BufferState α) (h : s.reader = .popping)
      (hstep : PopStep size (s.bufs s.buf_r) b) :
      ReaderStep size s { s with
        bufs := Function.update s.bufs s.buf_r b
        popped := s.popped ++ b.popped.drop (s.bufs s.buf_r).popped.length }
  | returned (s : State α) (h : s.reader = .popping) (hdone : (s.bufs s.buf_r).reader = .idle) :
      ReaderStep size s { s with reader := .idle }

inductive Step (size : ℕ) (fixedsize : Bool) : State α → State α → Prop
  | writer (s s' : State α) (h : WriterStep size fixedsize s s') : Step size fixedsize s s'
  | reader (s s' : State α) (h : ReaderStep size s s') : Step size fixedsize s s'

def Reachable (size : ℕ) (fixedsize : Bool) : State α → Prop :=
  Relation.ReflTransGen (Step size fixedsize) .start

/-! ## What every step keeps -/

/-- The writer has seen its buffer full and has not left it yet. -/
def Writer.Growing : Writer α → Prop
  | .nextW _ => True
  | .enqueue _ _ => True
  | .switch _ _ => True
  | _ => False

/-- The reader is about to look into a buffer where it expects a value; `pc` is
where it stands in that buffer's `pop`. -/
def Reader.Expecting (pc : ReaderPc α) : Reader → Prop
  | .releasing _ => True
  | .switching _ => True
  | .popping => pc = .testing
  | _ => False

/-- `pre` are the buffers from the reader's to the one before the writer's. -/
structure Inv (size : ℕ) (s : State α) (pre : List ℕ) : Prop where
  chain : s.head :: s.inuse = pre ++ s.buf_w :: s.writer.ahead
  nodup : (pre ++ s.buf_w :: (s.writer.newer ++ s.bufcache ++ s.older)).Nodup
  inner : ∀ b, BufferInv size (s.bufs b)
  fresh : ∀ b ∈ s.writer.newer ++ s.bufcache, s.bufs b = .empty
  writers : ∀ b, (s.bufs b).writer ≠ .idle → b = s.buf_w ∧ s.writer = .pushing
  readers : ∀ b, (s.bufs b).reader ≠ .idle → b = s.buf_r ∧ s.reader = .popping
  room : ∀ data, (s.bufs s.buf_w).writer = .testing data →
    (s.bufs s.buf_w).contents.length < size
  full : ∀ b ∈ pre.tail, (s.bufs b).contents.length = size
  behind : s.writer.Growing → pre ≠ [] → (s.bufs s.buf_w).contents.length = size
  expecting : s.reader.Expecting (s.bufs s.buf_r).reader → s.writer.Growing ∨ pre ≠ [] →
    (s.bufs s.head).contents ≠ []
  later : s.reader = .retesting ∨ s.reader = .nextR → pre ≠ []
  drained : s.reader = .nextR → (s.bufs s.buf_r).contents = []
  compared : ∀ stored, s.reader = .comparing stored → pre = [] → s.popped.length = stored
  cache : s.bufcache.length ≤ cacheSize
  history : s.popped ++ s.contents = s.pushed

section Inv
variable {size : ℕ} {s : State α} {pre : List ℕ}

theorem Inv.start (size : ℕ) : Inv size (.start : State α) [] where
  chain := rfl
  nodup := List.nodup_singleton 0
  inner _ := .start size
  fresh b hb := by cases hb
  writers b hb := absurd rfl hb
  readers b hb := absurd rfl hb
  room data h := by cases h
  full b hb := by cases hb
  behind h := h.elim
  expecting h := h.elim
  later h := by rcases h with h | h <;> cases h
  drained h := by cases h
  compared stored h := by cases h
  cache := Nat.zero_le _
  history := rfl

/-- The reader stands at the writer's buffer when no buffer is before it. -/
theorem Inv.head_eq (h : Inv size s pre) (hpre : pre = []) : s.head = s.buf_w := by
  have hchain := h.chain
  rw [hpre, List.nil_append] at hchain
  exact (List.cons.inj hchain).1

theorem Inv.head_mem (h : Inv size s pre) (hpre : pre ≠ []) : ∃ rest, pre = s.head :: rest := by
  obtain ⟨p, rest, rfl⟩ := List.exists_cons_of_ne_nil hpre
  exact ⟨rest, by rw [(List.cons.inj h.chain).1]⟩

theorem Inv.head_ne (h : Inv size s pre) (hpre : pre ≠ []) : s.head ≠ s.buf_w := by
  obtain ⟨rest, hrest⟩ := h.head_mem hpre
  have hnodup := h.nodup
  rw [hrest, List.cons_append, List.nodup_cons] at hnodup
  intro heq
  exact hnodup.1 (by simp [heq])

theorem Inv.ne_head (h : Inv size s pre) {b : ℕ} (hb : b ∈ pre.tail) : b ≠ s.head := by
  obtain ⟨rest, hrest⟩ := h.head_mem (by rintro rfl; cases hb)
  have hnodup := h.nodup
  rw [hrest, List.cons_append, List.nodup_cons] at hnodup
  rw [hrest, List.tail_cons] at hb
  rintro rfl
  exact hnodup.1 (List.mem_append_left _ hb)

theorem Inv.ne_buf_w (h : Inv size s pre) {b : ℕ} (hb : b ∈ pre) : b ≠ s.buf_w := by
  rintro rfl
  exact (List.disjoint_of_nodup_append h.nodup) hb (List.mem_cons_self ..)

theorem Inv.ne_buf_w_of_fresh (h : Inv size s pre) {b : ℕ}
    (hb : b ∈ s.writer.newer ++ s.bufcache) : b ≠ s.buf_w := by
  rintro rfl
  have hnodup := (List.nodup_append.mp h.nodup).2.1
  exact (List.nodup_cons.mp hnodup).1 (List.mem_append_left _ hb)

theorem Inv.ne_head_of_fresh (h : Inv size s pre) {b : ℕ}
    (hb : b ∈ s.writer.newer ++ s.bufcache) : b ≠ s.head := by
  rintro rfl
  by_cases hpre : pre = []
  · exact h.ne_buf_w_of_fresh hb (h.head_eq hpre)
  · obtain ⟨rest, hrest⟩ := h.head_mem hpre
    have hmem : s.head ∈ pre := hrest ▸ List.mem_cons_self ..
    exact List.disjoint_of_nodup_append h.nodup hmem
      (List.mem_cons_of_mem _ (List.mem_append_left _ hb))

theorem Writer.ahead_sublist (x : Writer α) : x.ahead.Sublist x.newer := by
  cases x with
  | switch t data => exact .refl _
  | _ => exact List.nil_sublist _

theorem Inv.nodup_chain (h : Inv size s pre) : (s.head :: s.inuse).Nodup := by
  rw [h.chain]
  refine List.Nodup.sublist (List.Sublist.append_left (List.Sublist.cons_cons _ ?_) _) h.nodup
  rw [List.append_assoc]
  exact s.writer.ahead_sublist.trans (List.sublist_append_left _ _)

/-- The tests of the two threads say whether the buffers have room and values. -/
theorem Inv.available (h : Inv size s pre) (hsize : 0 < size) (hw : s.writer ≠ .pushing) :
    s.Available ↔ (s.bufs s.buf_w).contents.length < size := by
  have hidle : (s.bufs s.buf_w).writer = .idle := by
    by_contra hne
    exact hw (h.writers _ hne).2
  exact (h.inner _).room hsize (by rw [hidle]; rfl)

theorem Inv.empty (h : Inv size s pre) (hsize : 0 < size) (hr : s.reader ≠ .popping) :
    s.Empty ↔ (s.bufs s.buf_r).contents = [] := by
  have hidle : (s.bufs s.buf_r).reader = .idle := by
    by_contra hne
    exact hr (h.readers _ hne).2
  rw [State.Empty, (h.inner _).empty hsize (by rw [hidle]; rfl), (h.inner _).contents_nil]

theorem length_contents_le {b : BufferState α} (h : BufferInv size b) :
    b.contents.length ≤ size := by
  have := h.length_contents
  have := h.window.room
  omega

end Inv

end WaterMark.FastFlow.Unbounded
