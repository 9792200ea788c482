import Mathlib.Data.Fintype.EquivFin
import WaterMark.FastFlow.UnboundedFifo
import WaterMark.Library.OwnSteps

/-! # The calls of the unbounded buffer

Where the two threads stand in their calls. Neither of them can move the other
one, and none waits: a call is over after a few accesses to memory.
-/

namespace WaterMark.FastFlow.Unbounded
open Queue Swsr

variable {α : Type*} {size : ℕ} {s s' : State α} {pre : List ℕ} {fixedsize : Bool}

def State.writerPlace (s : State α) : Writer α × WriterPc α :=
  (s.writer, match s.writer with
    | .pushing => (s.bufs s.buf_w).writer
    | _ => .idle)

def State.readerPlace (s : State α) : Reader × ReaderPc α :=
  (s.reader, match s.reader with
    | .popping => (s.bufs s.buf_r).reader
    | _ => .idle)

theorem State.writerPlace_congr (hw : s'.writer = s.writer)
    (hinner : s.writer = .pushing → (s'.bufs s'.buf_w).writer = (s.bufs s.buf_w).writer) :
    s'.writerPlace = s.writerPlace := by
  unfold State.writerPlace
  rw [hw]
  cases hs : s.writer with
  | pushing => exact congrArg (Prod.mk _) (hinner hs)
  | _ => rfl

theorem State.readerPlace_congr (hr : s'.reader = s.reader)
    (hinner : s.reader = .popping → (s'.bufs s'.buf_r).reader = (s.bufs s.buf_r).reader) :
    s'.readerPlace = s.readerPlace := by
  unfold State.readerPlace
  rw [hr]
  cases hs : s.reader with
  | popping => exact congrArg (Prod.mk _) (hinner hs)
  | _ => rfl

theorem ReaderStep.writerPlace_eq (hstep : ReaderStep size s s') (h : Inv size s pre) :
    s'.writerPlace = s.writerPlace := by
  have hreset : ∀ tmp, s.reader = .releasing tmp →
      Function.update s.bufs s.buf_r .empty s.buf_w = s.bufs s.buf_w := fun tmp hr =>
    Function.update_of_ne (h.buf_r_apart hr).2.1.symm ..
  cases hstep with
  | nonempty => exact State.writerPlace_congr rfl fun _ => writer_callPop s _
  | filled => exact State.writerPlace_congr rfl fun _ => writer_callPop s _
  | noNext => exact State.writerPlace_congr rfl fun _ => writer_callPop s _
  | switch tmp =>
    exact State.writerPlace_congr rfl fun _ => writer_callPop { s with buf_r := tmp } _
  | release tmp hr => exact State.writerPlace_congr rfl fun _ => congrArg _ (hreset tmp hr)
  | free tmp hr => exact State.writerPlace_congr rfl fun _ => congrArg _ (hreset tmp hr)
  | pop b hr hpop =>
    refine State.writerPlace_congr rfl fun _ => ?_
    by_cases hb : s.buf_w = s.buf_r
    · simp only [hb, Function.update_self, hpop.writer]
    · simp only [Function.update_of_ne hb]
  | _ => rfl

theorem WriterStep.readerPlace_eq (hstep : WriterStep size fixedsize s s') :
    s'.readerPlace = s.readerPlace := by
  cases hstep with
  | available data => exact State.readerPlace_congr rfl fun _ => reader_callPush s data _
  | switch data t =>
    exact State.readerPlace_congr rfl fun _ => reader_callPush { s with buf_w := t } data _
  | miss data t hw hcache hnew =>
    refine State.readerPlace_congr rfl fun hr => ?_
    have hhead : s.head = s.buf_r := State.head_of_next (by rw [hr]; rfl)
    have hne : s.buf_r ≠ t := by
      rintro rfl
      exact hnew (by simp [State.live, hhead])
    simp only [Function.update_of_ne hne]
  | push b hw hpush =>
    refine State.readerPlace_congr rfl fun _ => ?_
    by_cases hb : s.buf_r = s.buf_w
    · simp only [hb, Function.update_self, hpush.reader]
    · simp only [Function.update_of_ne hb]
  | _ => rfl

/-! ## What a call has done -/

def pending : Writer α × WriterPc α → Option α
  | (.testing data, _) => some data
  | (.nextW data, _) => some data
  | (.enqueue _ data, _) => some data
  | (.switch _ data, _) => some data
  | (.pushing, .testing data) => some data
  | (.pushing, .storing data) => some data
  | _ => none

def Stored : Writer α × WriterPc α → Prop
  | (.pushing, .advancing) => True
  | (.pushing, .idle) => True
  | _ => False

def Cleared : Reader × ReaderPc α → Prop
  | (.popping, .advancing) => True
  | (.popping, .idle) => True
  | _ => False

theorem writer_ne_of_pending {value : α} (h : pending s.writerPlace = some value) :
    s.writer ≠ .idle := by
  intro hidle
  simp [State.writerPlace, hidle, pending] at h

theorem writer_ne_of_stored (h : Stored s.writerPlace) : s.writer ≠ .idle := by
  intro hidle
  simp [State.writerPlace, hidle, Stored] at h

theorem reader_ne_of_cleared (h : Cleared s.readerPlace) : s.reader ≠ .idle := by
  intro hidle
  simp [State.readerPlace, hidle, Cleared] at h

/-- A call of `push` stores its value, or returns without it. -/
theorem WriterStep.of_pending (hsize : 0 < size) (hstep : WriterStep size fixedsize s s')
    (h : Inv size s pre) {value : α} (hp : pending s.writerPlace = some value) :
    s'.pushed = s.pushed ∧ (pending s'.writerPlace = some value ∨ s'.writer = .idle) ∨
      s'.pushed = s.pushed ++ [value] ∧ Stored s'.writerPlace := by
  cases hstep with
  | push b hw hpush =>
    cases hpush with
    | full data hpc hfull =>
      have hroom := (h.inner _).room hsize (by rw [hpc]; rfl)
      exact absurd (hroom.mpr (h.room data hpc)) hfull
    | available data hpc => simp_all [State.writerPlace, pending]
    | store data hpc => simp_all [State.writerPlace, pending, Stored]
    | advance hpc => simp_all [State.writerPlace, pending]
  | _ => simp_all [State.writerPlace, State.callPush, pending]

theorem WriterStep.of_stored (hstep : WriterStep size fixedsize s s')
    (hs : Stored s.writerPlace) :
    s'.pushed = s.pushed ∧ (Stored s'.writerPlace ∨ s'.writer = .idle) := by
  cases hstep with
  | push b hw hpush => cases hpush <;> simp_all [State.writerPlace, Stored]
  | _ => simp_all [State.writerPlace, Stored]

theorem ReaderStep.of_cleared (hstep : ReaderStep size s s') (hs : Cleared s.readerPlace) :
    s'.popped = s.popped ∧ (Cleared s'.readerPlace ∨ s'.reader = .idle) := by
  cases hstep with
  | pop b hr hpop => cases hpop <;> simp_all [State.readerPlace, Cleared]
  | _ => simp_all [State.readerPlace, Cleared]

theorem ReaderStep.cleared (hstep : ReaderStep size s s') {value : α}
    (hpopped : s'.popped = s.popped ++ [value]) : Cleared s'.readerPlace := by
  have hne : s.popped ≠ s.popped ++ [value] := by simp
  cases hstep with
  | pop b hr hpop => cases hpop <;> simp_all [State.readerPlace, Cleared]
  | _ => exact absurd hpopped hne

theorem WriterStep.contents_append (hsize : 0 < size) (hstep : WriterStep size fixedsize s s')
    (h : Inv size s pre) {new : List α} (hpushed : s'.pushed = s.pushed ++ new) :
    s'.contents = s.contents ++ new := by
  obtain ⟨pre', h'⟩ := hstep.inv hsize h
  have hold := h.history
  have hnew := h'.history
  rw [(hstep.pushed h).1, hpushed, ← hold, List.append_assoc] at hnew
  exact List.append_cancel_left hnew

theorem ReaderStep.contents_append (hsize : 0 < size) (hstep : ReaderStep size s s')
    (h : Inv size s pre) {old : List α} (hpopped : s'.popped = s.popped ++ old) :
    s.contents = old ++ s'.contents := by
  obtain ⟨pre', h'⟩ := hstep.inv hsize h
  have hold := h.history
  have hnew := h'.history
  rw [(hstep.popped h).1, hpopped, ← hold, List.append_assoc] at hnew
  exact (List.append_cancel_left hnew).symm

theorem contents_testing (hidle : s.reader = .idle) :
    { s with reader := .testing }.contents = s.contents := by
  simp [State.contents, State.head, hidle, Reader.next]

/-! ## When a call does not fail -/

theorem Inv.available_of_nil (h : Inv size s pre) (hsize : 0 < size) (hw : s.writer ≠ .pushing)
    (hnil : s.contents = []) : s.Available := by
  have hmem : s.buf_w ∈ s.head :: s.inuse := by
    rw [h.chain]
    simp
  rw [h.available hsize hw, List.flatMap_eq_nil_iff.mp hnil _ hmem]
  exact hsize

/-- A `push` fails only on a full channel of fixed size. -/
theorem WriterStep.ne_idle (hsize : 0 < size) (hstep : WriterStep size fixedsize s s')
    (h : Inv size s pre) {value : α} (hp : pending s.writerPlace = some value)
    (hroom : fixedsize = true → s.contents = []) : s'.writer ≠ .idle := by
  cases hstep with
  | full data hw hfull hfixed =>
    exact absurd (h.available_of_nil hsize (by simp [hw]) (hroom hfixed)) hfull
  | returned hw hdone => simp [State.writerPlace, hw, hdone, pending] at hp
  | push b hw => simp [hw]
  | _ => simp [State.callPush]

/-- A `pop` that has cleared no value, and has seen its buffer empty only while a value
was in another one. -/
structure Searching (s : State α) : Prop where
  not_cleared : ¬ Cleared s.readerPlace
  compared : ∀ stored, s.reader = .comparing stored → s.popped.length < stored

/-- A `push` does not end the search. -/
theorem WriterStep.searching (hstep : WriterStep size fixedsize s s') (h : Inv size s pre)
    (hs : Searching s) : Searching s' := by
  have hplace := hstep.readerPlace_eq
  have hreader : s'.reader = s.reader := congrArg Prod.fst hplace
  constructor
  · rw [hplace]
    exact hs.not_cleared
  · rw [hreader, (hstep.pushed h).1]
    exact hs.compared

/-- With a value in the channel, `pop` goes on until it clears one. -/
theorem ReaderStep.of_searching (hsize : 0 < size) (hstep : ReaderStep size s s')
    (h : Inv size s pre) (hs : Searching s) (hne : s.contents ≠ []) :
    (∃ value, s'.popped = s.popped ++ [value]) ∨
      s'.popped = s.popped ∧ s'.reader ≠ .idle ∧ Searching s' := by
  have hlt : s.popped.length < s.pushed.length := by
    rw [← h.history, List.length_append]
    exact Nat.lt_add_of_pos_right (List.length_pos_iff.mpr hne)
  cases hstep with
  | empty hr hnull =>
    refine .inr ⟨rfl, by simp, by simp [State.readerPlace, Cleared], fun stored hstored => ?_⟩
    cases hstored
    exact hlt
  | same stored hr heq =>
    -- the reader's buffer is the writer's, so that it was the only one when it was empty
    have hhead : s.head = s.buf_r := State.head_of_next (by rw [hr]; rfl)
    have hpre : pre = [] := by
      by_contra hpre
      exact h.head_ne hpre (hhead.trans heq)
    exact absurd (h.compared stored hr hpre) (hs.compared stored hr).ne
  | pop b hr hpop =>
    cases hpop with
    | empty hpc hnull =>
      exact absurd (congrArg List.length (h.popped_of_empty hsize hr hpc hnull)) hlt.ne
    | clear value hpc => exact .inl ⟨value, by simp⟩
    | advance hpc => exact absurd (by simp [State.readerPlace, hr, hpc, Cleared]) hs.not_cleared
    | nonempty | read =>
      exact .inr ⟨by simp, by simp [hr], by simp [State.readerPlace, hr, Cleared], by simp [hr]⟩
  | returned hr hdone =>
    exact absurd (by simp [State.readerPlace, hr, hdone, Cleared]) hs.not_cleared
  | _ =>
    exact .inr ⟨rfl, by simp [State.callPop],
      by simp [State.readerPlace, State.callPop, Cleared], by simp [State.callPop]⟩

/-! ## No thread waits -/

/-- The most accesses that are left in a call of `push`. -/
def pushRank : Writer α × WriterPc α → ℕ
  | (.idle, _) => 0
  | (.testing _, _) => 8
  | (.nextW _, _) => 7
  | (.enqueue _ _, _) => 6
  | (.switch _ _, _) => 5
  | (.pushing, .testing _) => 4
  | (.pushing, .storing _) => 3
  | (.pushing, .advancing) => 2
  | (.pushing, .idle) => 1

def popRank : Reader × ReaderPc α → ℕ
  | (.idle, _) => 0
  | (.testing, _) => 11
  | (.comparing _, _) => 10
  | (.retesting, _) => 9
  | (.nextR, _) => 8
  | (.releasing _, _) => 7
  | (.switching _, _) => 6
  | (.popping, .testing) => 5
  | (.popping, .reading) => 4
  | (.popping, .clearing _) => 3
  | (.popping, .advancing) => 2
  | (.popping, .idle) => 1

theorem pushRank_le (place : Writer α × WriterPc α) : pushRank place ≤ 8 := by
  unfold pushRank
  split <;> decide

theorem popRank_le (place : Reader × ReaderPc α) : popRank place ≤ 11 := by
  unfold popRank
  split <;> decide

theorem WriterStep.pushRank_lt (hstep : WriterStep size fixedsize s s') (hw : s.writer ≠ .idle) :
    pushRank s'.writerPlace < pushRank s.writerPlace := by
  cases hstep with
  | call data hidle => exact absurd hidle hw
  | push b hpushing hpush =>
    cases hpush <;> simp_all [State.writerPlace, pushRank]
  | _ => simp_all [State.writerPlace, State.callPush, pushRank]

theorem ReaderStep.popRank_lt (hstep : ReaderStep size s s') (hr : s.reader ≠ .idle) :
    popRank s'.readerPlace < popRank s.readerPlace := by
  cases hstep with
  | call hidle => exact absurd hidle hr
  | pop b hpopping hpop => cases hpop <;> simp_all [State.readerPlace, popRank]
  | _ => simp_all [State.readerPlace, State.callPop, popRank]

theorem WriterStep.exists_of_ne (hw : s.writer ≠ .idle) :
    ∃ s', WriterStep size fixedsize s s' := by
  cases hs : s.writer with
  | idle => exact absurd hs hw
  | testing data =>
    by_cases hroom : s.Available
    · exact ⟨_, .available s data hs hroom⟩
    · cases hfixed : fixedsize with
      | false => exact ⟨_, .grow s data hs hroom rfl⟩
      | true => exact ⟨_, .full s data hs hroom rfl⟩
  | nextW data =>
    cases hcache : s.bufcache with
    | nil =>
      obtain ⟨t, ht⟩ := Infinite.exists_notMem_finset s.live.toFinset
      exact ⟨_, .miss s data t hs hcache (List.mem_toFinset.not.mp ht)⟩
    | cons t rest => exact ⟨_, .hit s data t rest hs hcache⟩
  | enqueue t data => exact ⟨_, .enqueue s data t hs⟩
  | switch t data => exact ⟨_, .switch s data t hs⟩
  | pushing =>
    cases hpc : (s.bufs s.buf_w).writer with
    | idle => exact ⟨_, .returned s hs hpc⟩
    | testing data =>
      by_cases hroom : s.Available
      · exact ⟨_, .push s _ hs (.available _ data hpc hroom)⟩
      · exact ⟨_, .push s _ hs (.full _ data hpc hroom)⟩
    | storing data => exact ⟨_, .push s _ hs (.store _ data hpc)⟩
    | advancing => exact ⟨_, .push s _ hs (.advance _ hpc)⟩

theorem ReaderStep.exists_of_ne (hr : s.reader ≠ .idle) (hin : BufferInv size (s.bufs s.buf_r)) :
    ∃ s', ReaderStep size s s' := by
  cases hs : s.reader with
  | idle => exact absurd hs hr
  | testing =>
    by_cases hnull : s.Empty
    · exact ⟨_, .empty s hs hnull⟩
    · exact ⟨_, .nonempty s hs hnull⟩
  | comparing stored =>
    by_cases heq : s.buf_r = s.buf_w
    · exact ⟨_, .same s stored hs heq⟩
    · exact ⟨_, .differ s stored hs heq⟩
  | retesting =>
    by_cases hnull : s.Empty
    · exact ⟨_, .drained s hs hnull⟩
    · exact ⟨_, .filled s hs hnull⟩
  | nextR =>
    cases hinuse : s.inuse with
    | nil => exact ⟨_, .noNext s hs hinuse⟩
    | cons tmp rest => exact ⟨_, .nextR s tmp rest hs hinuse⟩
  | releasing tmp =>
    by_cases hroom : s.bufcache.length < cacheSize
    · exact ⟨_, .release s tmp hs hroom⟩
    · exact ⟨_, .free s tmp hs (not_lt.mp hroom)⟩
  | switching tmp => exact ⟨_, .switch s tmp hs⟩
  | popping =>
    cases hpc : (s.bufs s.buf_r).reader with
    | idle => exact ⟨_, .returned s hs hpc⟩
    | testing =>
      by_cases hnull : s.Empty
      · exact ⟨_, .pop s _ hs (.empty _ hpc hnull)⟩
      · exact ⟨_, .pop s _ hs (.nonempty _ hpc hnull)⟩
    | reading =>
      have hlt := hin.reading hpc
      have hvalue := hin.read (by rw [hpc]; rfl) hlt
      rw [List.getElem?_eq_getElem hlt] at hvalue
      exact ⟨_, .pop s _ hs (.read _ _ hpc hvalue)⟩
    | clearing value => exact ⟨_, .pop s _ hs (.clear _ value hpc)⟩
    | advancing => exact ⟨_, .pop s _ hs (.advance _ hpc)⟩

/-! ## What a call comes to -/

/-- A call of `push` since the state `s`. It returns without having stored its value only
when the channel is of fixed size and holds values in `s`. -/
inductive PushSince (fixedsize : Bool) (s : State α) (value : α) (u : State α) : Prop
  | pending (hpushed : u.pushed = s.pushed) (hp : pending u.writerPlace = some value)
      (hnil : s.contents = [] → u.contents = [])
  | stored (hpushed : u.pushed = s.pushed ++ [value])
      (hs : Stored u.writerPlace ∨ u.writer = .idle)
  | failed (hpushed : u.pushed = s.pushed) (hidle : u.writer = .idle)
      (hfull : fixedsize = true ∧ s.contents ≠ [])

section Since
variable {u u' : State α} {value : α}

theorem WriterStep.pushSince (hsize : 0 < size) (hstep : WriterStep size fixedsize u u')
    (h : Inv size u pre) (hw : u.writer ≠ .idle) (hs : PushSince fixedsize s value u) :
    PushSince fixedsize s value u' := by
  cases hs with
  | pending hpushed hp hnil =>
    rcases hstep.of_pending hsize h hp with ⟨hsame, hnext | hidle⟩ | ⟨hstored, hnext⟩
    · refine .pending (hsame.trans hpushed) hnext fun hs => ?_
      rw [hstep.contents_append hsize h (hsame.trans (List.append_nil _).symm), hnil hs]
      rfl
    · refine .failed (hsame.trans hpushed) hidle ?_
      by_contra hroom
      refine hstep.ne_idle hsize h hp (fun hfixed => hnil ?_) hidle
      by_contra hne
      exact hroom ⟨hfixed, hne⟩
    · exact .stored (hstored.trans (congrArg (· ++ [value]) hpushed)) (.inl hnext)
  | stored hpushed hdone =>
    obtain ⟨hsame, hnext⟩ := hstep.of_stored (hdone.resolve_right hw)
    exact .stored (hsame.trans hpushed) hnext
  | failed _ hidle _ => exact absurd hidle hw

/-- The reader makes room only. -/
theorem ReaderStep.pushSince (hsize : 0 < size) (hstep : ReaderStep size u u')
    (h : Inv size u pre) (hs : PushSince fixedsize s value u) :
    PushSince fixedsize s value u' := by
  have hplace := hstep.writerPlace_eq h
  have hwriter : u'.writer = u.writer := congrArg Prod.fst hplace
  obtain ⟨hsame, old, hpopped⟩ := hstep.popped h
  cases hs with
  | pending hpushed hp hnil =>
    refine .pending (hsame.trans hpushed) (hplace ▸ hp) fun hs => ?_
    have hcontents := hstep.contents_append hsize h hpopped
    rw [hnil hs] at hcontents
    exact (List.append_eq_nil_iff.mp hcontents.symm).2
  | stored hpushed hdone => exact .stored (hsame.trans hpushed) (by rwa [hplace, hwriter])
  | failed hpushed hidle hfull =>
    exact .failed (hsame.trans hpushed) (hwriter.trans hidle) hfull

/-- A call of `pop` since the state `s`, in which `value` is the first one in the channel. -/
inductive PopSince (s : State α) (value : α) (u : State α) : Prop
  | searching (hpopped : u.popped = s.popped) (hr : u.reader ≠ .idle) (hs : Searching u)
      (hhead : ∃ rest, u.contents = value :: rest)
  | cleared (hpopped : u.popped = s.popped ++ [value])
      (hs : Cleared u.readerPlace ∨ u.reader = .idle)

theorem ReaderStep.popSince (hsize : 0 < size) (hstep : ReaderStep size u u')
    (h : Inv size u pre) (hr : u.reader ≠ .idle) (hs : PopSince s value u) :
    PopSince s value u' := by
  cases hs with
  | searching hpopped _ hsearch hhead =>
    obtain ⟨rest, hhead⟩ := hhead
    rcases hstep.of_searching hsize h hsearch (by simp [hhead]) with
      ⟨taken, htaken⟩ | ⟨hsame, hnext, hsearch'⟩
    · have hcontents := hstep.contents_append hsize h htaken
      rw [hhead, List.singleton_append] at hcontents
      obtain ⟨rfl, -⟩ := List.cons.inj hcontents
      exact .cleared (htaken.trans (congrArg (· ++ [value]) hpopped)) (.inl (hstep.cleared htaken))
    · refine .searching (hsame.trans hpopped) hnext hsearch' ⟨rest, ?_⟩
      have hcontents := hstep.contents_append hsize h (hsame.trans (List.append_nil _).symm)
      exact hcontents.symm.trans hhead
  | cleared hpopped hdone =>
    obtain ⟨hsame, hnext⟩ := hstep.of_cleared (hdone.resolve_right hr)
    exact .cleared (hsame.trans hpopped) hnext

/-- The writer adds values behind. -/
theorem WriterStep.popSince (hsize : 0 < size) (hstep : WriterStep size fixedsize u u')
    (h : Inv size u pre) (hs : PopSince s value u) : PopSince s value u' := by
  have hplace := hstep.readerPlace_eq
  have hreader : u'.reader = u.reader := congrArg Prod.fst hplace
  obtain ⟨hsame, new, hpushed⟩ := hstep.pushed h
  cases hs with
  | searching hpopped hr hsearch hhead =>
    obtain ⟨rest, hhead⟩ := hhead
    refine .searching (hsame.trans hpopped) (hreader ▸ hr) (hstep.searching h hsearch)
      ⟨rest ++ new.toList, ?_⟩
    rw [hstep.contents_append hsize h hpushed, hhead, List.cons_append]
  | cleared hpopped hdone => exact .cleared (hsame.trans hpopped) (by rwa [hplace, hreader])

end Since

/-- Each thread in a call has a step. A call of `push` returns after 8 own steps at the
most, whatever the other thread does in between, and with its value stored, but for a
channel of fixed size that held values when the call began. A call of `pop` returns
after 11 own steps at the most, and with the first value when there was one when the
call began. Each operation of the pool of buffers is one step. -/
theorem unboundedBuffer_waitFree (hsize : 0 < size) (h : Reachable size fixedsize s) :
    (s.writer ≠ .idle → ∃ s', WriterStep size fixedsize s s') ∧
      (s.reader ≠ .idle → ∃ s', ReaderStep size s s') ∧
      (∀ n s', OwnSteps.Run (fun u u' => u.writer ≠ .idle ∧ WriterStep size fixedsize u u')
        (ReaderStep size) s n s' → n ≤ 8 ∧
          ∀ value, s.writer = .testing value → s'.writer = .idle →
            s'.pushed = s.pushed ++ [value] ∨
              s'.pushed = s.pushed ∧ fixedsize = true ∧ s.contents ≠ []) ∧
      (∀ n s', OwnSteps.Run (fun u u' => u.reader ≠ .idle ∧ ReaderStep size u u')
        (WriterStep size fixedsize) s n s' → n ≤ 11 ∧
          ∀ value, s.reader = .testing → s.contents.head? = some value → s'.reader = .idle →
            s'.popped = s.popped ++ [value]) := by
  have hinv := h.inv hsize
  have ⟨pre, hs⟩ := hinv
  refine ⟨fun hw => WriterStep.exists_of_ne hw,
    fun hr => ReaderStep.exists_of_ne hr (hs.inner _), fun n s' hrun => ⟨?_, ?_⟩,
    fun n s' hrun => ⟨?_, ?_⟩⟩
  · have hle := hrun.add_rank_le (fun u => ∃ pre, Inv size u pre) (fun u => pushRank u.writerPlace)
      (fun u u' ⟨_, hu⟩ ⟨hw, hstep⟩ => ⟨hstep.inv hsize hu, hstep.pushRank_lt hw⟩)
      (fun u u' ⟨_, hu⟩ hstep =>
        ⟨hstep.inv hsize hu, (congrArg pushRank (hstep.writerPlace_eq hu)).le⟩) hinv
    have := pushRank_le s.writerPlace
    omega
  · intro value hvalue hidle
    have hstart : PushSince fixedsize s value s :=
      .pending rfl (by simp [State.writerPlace, hvalue, pending]) id
    obtain ⟨-, hend⟩ := hrun.preserves
      (fun u => (∃ pre, Inv size u pre) ∧ PushSince fixedsize s value u)
      (fun u u' ⟨⟨_, hu⟩, hcall⟩ ⟨hw, hstep⟩ =>
        ⟨hstep.inv hsize hu, hstep.pushSince hsize hu hw hcall⟩)
      (fun u u' ⟨⟨_, hu⟩, hcall⟩ hstep =>
        ⟨hstep.inv hsize hu, hstep.pushSince hsize hu hcall⟩) ⟨hinv, hstart⟩
    cases hend with
    | pending _ hp _ => exact absurd hidle (writer_ne_of_pending hp)
    | stored hpushed _ => exact .inl hpushed
    | failed hpushed _ hfull => exact .inr ⟨hpushed, hfull⟩
  · have hle := hrun.add_rank_le (fun u => ∃ pre, Inv size u pre) (fun u => popRank u.readerPlace)
      (fun u u' ⟨_, hu⟩ ⟨hr, hstep⟩ => ⟨hstep.inv hsize hu, hstep.popRank_lt hr⟩)
      (fun u u' ⟨_, hu⟩ hstep =>
        ⟨hstep.inv hsize hu, (congrArg popRank hstep.readerPlace_eq).le⟩) hinv
    have := popRank_le s.readerPlace
    omega
  · intro value hr hhead hidle
    have hstart : PopSince s value s :=
      .searching rfl (by simp [hr])
        ⟨by simp [State.readerPlace, hr, Cleared], by simp [hr]⟩
        (List.head?_eq_some_iff.mp hhead)
    obtain ⟨-, hend⟩ := hrun.preserves (fun u => (∃ pre, Inv size u pre) ∧ PopSince s value u)
      (fun u u' ⟨⟨_, hu⟩, hcall⟩ ⟨hr, hstep⟩ =>
        ⟨hstep.inv hsize hu, hstep.popSince hsize hu hr hcall⟩)
      (fun u u' ⟨⟨_, hu⟩, hcall⟩ hstep =>
        ⟨hstep.inv hsize hu, hstep.popSince hsize hu hcall⟩) ⟨hinv, hstart⟩
    cases hend with
    | searching _ hr _ _ => exact absurd hidle hr
    | cleared hpopped _ => exact hpopped

/-- The second value does not fit into the first buffer. Its `push` stores it all the
same, and a `pop` at the same time takes the first one. -/
theorem unboundedBuffer_waitFree_oneSlot : ∃ s : State ℕ, Reachable 1 false s ∧
    (∃ s', WriterStep 1 false s s') ∧ (∃ s', ReaderStep 1 s s') ∧
    (∀ n s', OwnSteps.Run (fun u u' => u.writer ≠ .idle ∧ WriterStep 1 false u u')
      (ReaderStep 1) s n s' → n ≤ 8 ∧ (s'.writer = .idle → s'.pushed = [7, 8])) ∧
    (∀ n s', OwnSteps.Run (fun u u' => u.reader ≠ .idle ∧ ReaderStep 1 u u')
      (WriterStep 1 false) s n s' → n ≤ 11 ∧ (s'.reader = .idle → s'.popped = [7])) := by
  have hstored : Relation.ReflTransGen (Step 1 false) (.start : State ℕ) _ :=
    (((((Relation.ReflTransGen.single (.writer _ _ (.call _ 7 rfl))).tail
      (.writer _ _ (.available _ 7 rfl rfl))).tail
        (.writer _ _ (.push _ _ rfl (.available _ 7 rfl rfl)))).tail
          (.writer _ _ (.push _ _ rfl (.store _ 7 rfl)))).tail
            (.writer _ _ (.push _ _ rfl (.advance _ rfl)))).tail
              (.writer _ _ (.returned _ rfl rfl))
  have hreach := (hstored.tail (.writer _ _ (.call _ 8 rfl))).tail (.reader _ _ (.call _ rfl))
  obtain ⟨hpush, hpop, hpushes, hpops⟩ := unboundedBuffer_waitFree Nat.one_pos hreach
  refine ⟨_, hreach, hpush nofun, hpop nofun, fun n s' hrun => ?_, fun n s' hrun => ?_⟩
  · obtain ⟨hn, hvalue⟩ := hpushes n s' hrun
    refine ⟨hn, fun hidle => ?_⟩
    rcases hvalue 8 rfl hidle with hpushed | ⟨-, hfixed, -⟩
    · exact hpushed
    · cases hfixed
  · obtain ⟨hn, hvalue⟩ := hpops n s' hrun
    exact ⟨hn, fun hidle => hvalue 7 rfl rfl hidle⟩

end WaterMark.FastFlow.Unbounded
