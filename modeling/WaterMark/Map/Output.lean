import WaterMark.Map
import WaterMark.Seq

/-! # What the map writes

The statement of the gather that saves an image is commented out, so a run of
the map ends normally without any output.
-/

namespace WaterMark.Map
open ChannelNetwork TaggedLog Pixels Gather Maps

def output {nw : ℕ} (s : NetState Unit Task nw) : List (ℤ × Buffer) :=
  (s.mem.events.map Prod.snd).filterMap Event.output

variable {st : ImageStream} {nw : ℕ} {ptrMark : Buffer} {markHeight markWidth : ℕ}
  {pixels : Ptr → Buffer} {s : NetState Unit Task nw}

theorem output_worker {e : Event Task} (h : (worker ptrMark).Makes e) : e.output = none :=
  h.hidden (fun _ => rfl) (by simp [worker]) (by simp [worker, Event.output])

/-- Nothing is saved in any run. -/
theorem output_eq_nil (hnw : 1 ≤ nw)
    (h : (code st nw ptrMark markHeight markWidth).program.Reachable ⟨pixels, []⟩ s) :
    output s = [] := by
  have hF := feeds st ptrMark markHeight markWidth hnw
  apply List.filterMap_eq_nil_iff.mpr
  intro e he
  rcases List.mem_map.mp he with ⟨⟨t, e⟩, hte, rfl⟩
  rcases List.append_of_mem hte with ⟨before, after, hsplit⟩
  rcases Code.gather_or_makes hF.one_le_gather h (mem_entries.mpr hte) with ⟨m, rfl⟩ | hmakes
  · rcases hF.caused h before _ after hsplit m rfl with ⟨j, hj, ⟨pix, he⟩, -⟩ | ⟨n, he⟩
    · cases he
      rfl
    · cases he
  · exact output_worker hmakes

theorem seq_output_ne_nil (hn : 1 ≤ st.size) :
    Seq.output st ptrMark markHeight markWidth pixels ≠ [] := by
  rw [Seq.output_eq]
  intro hnil
  have hlen := congrArg List.length hnil
  simp at hlen
  omega

/-- On no input does the map write what the sequential program writes: every run
comes to an end, and at the end nothing is saved. -/
theorem map_output_ne_seq (st : ImageStream) (ptrMark : Buffer) (markHeight markWidth : ℕ)
    (pixels : Ptr → Buffer) {nw : ℕ} (hn : 1 ≤ st.size) (hnw : 1 ≤ nw) :
    (∀ s, (code st nw ptrMark markHeight markWidth).program.Reachable ⟨pixels, []⟩ s →
      (code st nw ptrMark markHeight markWidth).program.Terminal s →
        ¬ (output s).Perm (Seq.output st ptrMark markHeight markWidth pixels)) ∧
    ∃ s, (code st nw ptrMark markHeight markWidth).program.Reachable ⟨pixels, []⟩ s ∧
      (code st nw ptrMark markHeight markWidth).program.Terminal s := by
  constructor
  · intro s h _ hperm
    rw [output_eq_nil hnw h] at hperm
    exact seq_output_ne_nil hn hperm.nil_eq.symm
  · have hF := feeds st ptrMark markHeight markWidth hnw
    rcases (Code.ranking _ hF.routed).exists_terminal
      ((code st nw ptrMark markHeight markWidth).program.initial ⟨pixels, []⟩) with ⟨s, hs, hterm⟩
    exact ⟨s, hs, hterm⟩

/-- One image of one black pixel under a black mark, with one worker. -/
theorem map_output_ne_seq_pixel :
    (∀ s, (code oneImage 1 [0] 1 1).program.Reachable ⟨fun _ => [10, 20, 30], []⟩ s →
      (code oneImage 1 [0] 1 1).program.Terminal s →
        ¬ (output s).Perm (Seq.output oneImage [0] 1 1 fun _ => [10, 20, 30])) ∧
    ∃ s, (code oneImage 1 [0] 1 1).program.Reachable ⟨fun _ => [10, 20, 30], []⟩ s ∧
      (code oneImage 1 [0] 1 1).program.Terminal s :=
  map_output_ne_seq oneImage [0] 1 1 (fun _ => [10, 20, 30]) (le_refl 1) (le_refl 1)

/-- There the sequential program saves one picture and the map none. -/
theorem map_loses_pixel :
    ∃ s, (code oneImage 1 [0] 1 1).program.Reachable ⟨fun _ => [10, 20, 30], []⟩ s ∧
      (code oneImage 1 [0] 1 1).program.Terminal s ∧ output s = [] ∧
      Seq.output oneImage [0] 1 1 (fun _ => [10, 20, 30]) = [(0, [10, 10, 10])] := by
  have hF := feeds oneImage [0] 1 1 (le_refl 1)
  rcases (Code.ranking _ hF.routed).exists_terminal
    ((code oneImage 1 [0] 1 1).program.initial ⟨fun _ => [10, 20, 30], []⟩) with ⟨s, hs, hterm⟩
  exact ⟨s, hs, hterm, output_eq_nil (le_refl 1) hs, by decide⟩

end WaterMark.Map
