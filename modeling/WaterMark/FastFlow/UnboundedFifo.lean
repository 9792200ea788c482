import WaterMark.FastFlow.UnboundedPop

/-! # The unbounded buffer is a FIFO queue

A reader that moves on finds a value, and a reader at the writer's buffer sees the
end of the queue.
-/

namespace WaterMark.FastFlow.Unbounded
open Queue Swsr

variable {α : Type*} {size : ℕ} {s s' : State α} {pre : List ℕ} {fixedsize : Bool}

theorem WriterStep.pushed (hstep : WriterStep size fixedsize s s') (h : Inv size s pre) :
    s'.popped = s.popped ∧ ∃ new : Option α, s'.pushed = s.pushed ++ new.toList := by
  cases hstep with
  | push b hw hpush =>
    obtain ⟨new, hdrop, -⟩ := h.push_contents hw hpush
    exact ⟨rfl, new, by rw [hdrop]⟩
  | _ => exact ⟨rfl, none, (List.append_nil _).symm⟩

theorem ReaderStep.popped (hstep : ReaderStep size s s') (h : Inv size s pre) :
    s'.pushed = s.pushed ∧ ∃ old : Option α, s'.popped = s.popped ++ old.toList := by
  cases hstep with
  | pop b hr hpop =>
    obtain ⟨old, hdrop, -⟩ := h.pop_contents hr hpop
    exact ⟨rfl, old, by rw [hdrop]⟩
  | _ => exact ⟨rfl, none, (List.append_nil _).symm⟩

theorem Step.inv (hsize : 0 < size) (hstep : Step size fixedsize s s') (h : Inv size s pre) :
    ∃ pre', Inv size s' pre' := by
  cases hstep with
  | writer hw => exact hw.inv hsize h
  | reader hr => exact hr.inv hsize h

/-- One access to memory is at most one operation of the queue. -/
theorem Step.refines (hsize : 0 < size) (hstep : Step size fixedsize s s')
    (h : Inv size s pre) : FifoStep s.contents s'.contents := by
  obtain ⟨pre', h'⟩ := hstep.inv hsize h
  have hold := h.history
  have hnew := h'.history
  cases hstep with
  | writer hw =>
    obtain ⟨hpopped, new, hpushed⟩ := hw.pushed h
    rw [hpopped, hpushed, ← hold, List.append_assoc] at hnew
    rw [List.append_cancel_left hnew]
    exact .atEnd _ new
  | reader hr =>
    obtain ⟨hpushed, old, hpopped⟩ := hr.popped h
    rw [hpopped, hpushed, ← hold, List.append_assoc] at hnew
    rw [← List.append_cancel_left hnew]
    exact .atFront _ old

theorem Reachable.inv (hsize : 0 < size) (h : Reachable size fixedsize s) :
    ∃ pre, Inv size s pre := by
  induction h with
  | refl => exact ⟨[], .start size⟩
  | tail _ hstep ih =>
    obtain ⟨pre, h⟩ := ih
    exact hstep.inv hsize h

/-- A `pop` whose inner `pop` finds nothing has seen the end of the queue. -/
theorem Inv.popped_of_empty (h : Inv size s pre) (hsize : 0 < size) (hr : s.reader = .popping)
    (htest : (s.bufs s.buf_r).reader = .testing) (hnull : s.Empty) : s.popped = s.pushed := by
  have hhead : s.head = s.buf_r := State.head_of_next (by rw [hr]; rfl)
  have hnil : (s.bufs s.head).contents = [] := by
    rw [hhead, (h.inner _).contents_nil]
    exact ((h.inner _).empty hsize (by rw [htest]; rfl)).mp hnull
  apply h.all_popped _ hnil
  by_contra hpre
  exact h.expecting (by rw [hr, htest]; rfl) (.inr hpre) hnil

/-- Every run of one thread that pushes and one that pops, with any number of
buffers in the chain. -/
theorem unboundedBuffer_fifo (hsize : 0 < size) (h : Reachable size fixedsize s) :
    s.popped ++ s.contents = s.pushed ∧
      (∀ s', Step size fixedsize s s' → FifoStep s.contents s'.contents) ∧
      (∀ data, (s.bufs s.buf_w).writer = .testing data → s.Available) ∧
      (∀ stored, s.reader = .comparing stored → s.buf_r = s.buf_w →
        s.popped.length = stored) ∧
      (s.reader = .popping → (s.bufs s.buf_r).reader = .testing → s.Empty →
        s.popped = s.pushed) ∧
      (s.reader = .nextR → s.inuse ≠ []) ∧
      (∀ tmp, s.reader = .releasing tmp → s.buf_r ≠ s.buf_w ∧ s.buf_r ∉ s.head :: s.inuse ∧
        s.buf_r ∉ s.writer.newer ++ s.bufcache) := by
  obtain ⟨pre, hinv⟩ := h.inv hsize
  refine ⟨hinv.history, fun s' hstep => hstep.refines hsize hinv, ?_, ?_,
    hinv.popped_of_empty hsize, hinv.inuse_ne_nil, ?_⟩
  · intro data hdata
    exact ((hinv.inner _).room hsize (by rw [hdata]; rfl)).mpr (hinv.room data hdata)
  · intro stored hr heq
    have hhead : s.head = s.buf_r := State.head_of_next (by rw [hr]; rfl)
    apply hinv.compared stored hr
    by_contra hpre
    exact hinv.head_ne hpre (hhead.trans heq)
  · intro tmp hr
    obtain ⟨hpre, hbuf_w, hfresh⟩ := hinv.buf_r_apart hr
    refine ⟨hbuf_w, ?_, hfresh⟩
    rw [hinv.chain, List.mem_append, List.mem_cons]
    rintro (hmem | hmem | hmem)
    · exact hpre hmem
    · exact hbuf_w hmem
    · exact hfresh (List.mem_append_left _ (s.writer.ahead_sublist.subset hmem))

theorem exists_popping : ∃ s : State ℕ, Reachable 1 false s ∧ s.writer = .pushing ∧
    s.reader = .popping ∧ (s.bufs s.buf_r).reader = .testing ∧ s.contents = [7] ∧
      s.popped = [] := by
  have hstored : Relation.ReflTransGen (Step 1 false) .start _ :=
    (((Relation.ReflTransGen.single (.writer _ _ (.call _ 7 rfl))).tail
      (.writer _ _ (.available _ 7 rfl rfl))).tail
        (.writer _ _ (.push _ _ rfl (.available _ 7 rfl rfl)))).tail
          (.writer _ _ (.push _ _ rfl (.store _ 7 rfl)))
  exact ⟨_, (hstored.tail (.reader _ _ (.call _ rfl))).tail
    (.reader _ _ (.nonempty _ rfl fun hnull => by cases hnull)), rfl, rfl, rfl, rfl, rfl⟩

theorem unboundedBuffer_fifo_oneSlot : ∃ s : State ℕ, Reachable 1 false s ∧
    s.reader = .popping ∧ s.pushed = [7] ∧ ¬ s.Empty := by
  obtain ⟨s, hreach, -, hr, htest, hcontents, hpopped⟩ := exists_popping
  have hfifo := unboundedBuffer_fifo Nat.one_pos hreach
  have hpushed : s.pushed = [7] := by
    rw [← hfifo.1, hpopped, hcontents]
    rfl
  refine ⟨s, hreach, hr, hpushed, fun hnull => ?_⟩
  have hall := hfifo.2.2.2.2.1 hr htest hnull
  rw [hpopped, hpushed] at hall
  cases hall

end WaterMark.FastFlow.Unbounded
