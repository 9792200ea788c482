import WaterMark.Library.ChannelNetwork
import WaterMark.Memory
import WaterMark.Pixels.ChunkLoops

/-! # The pictures in a run of a network

The threads of a network stamp chunks of many pictures. For each picture the
network runs the loops on that picture: one of its steps is a step of these loops
or leaves them alone. So a picture whose chunks are all finished is the one of
the sequential loop, as long as no chunk is in two hands or stamped again.
-/

namespace WaterMark.Pictures
open ChannelNetwork TaggedLog Pixels

variable {T Q J : Type} {M : Q → Type} {σ : T → Type} {nc : ℕ}

/-- What a computation of thread `t` is to the pictures: the next step of the loop
in hand, the end of this loop, or nothing of the kind. -/
inductive Works {X : Type} (t : T) (hand : X → Option (J × LoopState)) (info : J → ChunkInfo)
    (dataImg : J → Ptr) (ptrMark : Buffer) (x : X) (mem : Memory T J) : X × Memory T J → Prop
  | loop {task loop y} (hx : hand x = some (task, loop)) (hrun : (info task).finished loop = false)
      (hy : hand y = some
        (task, ((info task).bodyStep ptrMark loop (mem.pixels (dataImg task))).1)) :
      Works t hand info dataImg ptrMark x mem (y, mem.write (dataImg task)
        ((info task).bodyStep ptrMark loop (mem.pixels (dataImg task))).2)
  | finish {task loop y es} (hx : hand x = some (task, loop))
      (hend : (info task).finished loop = true) (hy : hand y = none)
      (hes : ∀ job, .chunkDone job ∈ es ↔ job = task) :
      Works t hand info dataImg ptrMark x mem (y, mem.record t es)
  | other {y es} (hx : hand x = none) (hy : hand y = none) (hes : ∀ job, .chunkDone job ∉ es) :
      Works t hand info dataImg ptrMark x mem (y, mem.record t es)

/-- How the threads of a version stamp: the task that a thread has in hand, with
its loop, and the chunk of the image number `j` that a task is to a thread. -/
structure Stamping (T J : Type) (σ : T → Type) (nc : ℕ) where
  hand : (t : T) → σ t → Option (J × LoopState)
  piece : T → J → ℕ → Fin nc → Prop
  dataImg : J → Ptr
  info : T → J → ChunkInfo
  ptrMark : Buffer

/-- The program stamps in this way: a task comes into a hand by a pop and leaves
it at the end of its loop. -/
structure Stamping.Describes (S : Stamping T J σ nc) (P : Program T M σ (Memory T J)) : Prop where
  start : ∀ t, S.hand t (P.start t) = none
  pop : ∀ t x q next m, .pop q next ∈ P.actions t x → S.hand t x = none ∧
    ∀ task loop, S.hand t (next m) = some (task, loop) → loop = .start
  push : ∀ t x q m next, .push q m next ∈ P.actions t x →
    S.hand t x = none ∧ S.hand t next = none
  work : ∀ t x mem f, .work f ∈ P.actions t x →
    Works t (S.hand t) (S.info t) S.dataImg S.ptrMark x mem (f mem)

/-- The pieces are the chunks of the images of the stream. -/
structure Stamping.Cuts (S : Stamping T J σ nc) (st : ImageStream) (h w : ℕ) : Prop where
  lt : ∀ {t task j c}, S.piece t task j c → j < st.size
  dataImg : ∀ {t task j c}, S.piece t task j c → S.dataImg task = st.pix j
  info : ∀ {t task j c}, S.piece t task j c → S.info t task = infoVector h w nc c
  chunk_unique : ∀ {t task j c d}, S.piece t task j c → S.piece t task j d → c = d

section State
variable (S : Stamping T J σ nc) (s : State T M σ (Memory T J))

def Stamping.Holds (t : T) (task : J) (loop : LoopState) : Prop :=
  S.hand t (s.loc t) = some (task, loop)

def Stamping.Running (j : ℕ) (c : Fin nc) : Prop :=
  ∃ t task loop, S.Holds s t task loop ∧ S.piece t task j c

def Stamping.Stamped (j : ℕ) (c : Fin nc) : Prop :=
  ∃ t task, (t, .chunkDone task) ∈ s.mem.events ∧ S.piece t task j c

/-- Every task in a hand is a chunk of some image, which nobody else has in hand
and nobody has stamped. -/
structure Stamping.Alone : Prop where
  known : ∀ {t task loop}, S.Holds s t task loop → ∃ j c, S.piece t task j c
  one : ∀ {t task loop u task' loop' j c}, S.Holds s t task loop → S.piece t task j c →
    S.Holds s u task' loop' → S.piece u task' j c → u = t
  fresh : ∀ {t task loop j c}, S.Holds s t task loop → S.piece t task j c → ¬ S.Stamped s j c

/-- The loops of image `j` as the threads show them. -/
structure Stamping.Shows (h w j : ℕ) (loop : Fin nc → LoopState) : Prop where
  running : ∀ {t task l c}, S.Holds s t task l → S.piece t task j c → loop c = l
  stamped : ∀ {c}, S.Stamped s j c → (infoVector h w nc c).finished (loop c) = true
  waiting : ∀ {c}, ¬ S.Running s j c → ¬ S.Stamped s j c → loop c = .start

end State

section Run
variable [DecidableEq T] {P : Program T M σ (Memory T J)} {S : Stamping T J σ nc}
  {st : ImageStream} {h w j : ℕ} {loop : Fin nc → LoopState} {s s' : State T M σ (Memory T J)}

/-! ## One thread moves -/

section Move
variable {t u : T} {y : σ t} {task : J} {l : LoopState} {c : Fin nc}

theorem Stamping.holds_self (hloc : s'.loc = Function.update s.loc t y) :
    S.Holds s' t task l ↔ S.hand t y = some (task, l) := by
  rw [Stamping.Holds, hloc, Function.update_self]

theorem Stamping.holds_ne (hloc : s'.loc = Function.update s.loc t y) (hu : u ≠ t) :
    S.Holds s' u task l ↔ S.Holds s u task l := by
  rw [Stamping.Holds, Stamping.Holds, hloc, Function.update_of_ne hu]

theorem Stamping.Shows.take (hS : S.Shows s h w j loop) (hA : S.Alone s')
    (hloc : s'.loc = Function.update s.loc t y) (hx : S.hand t (s.loc t) = none)
    (hy : ∀ task l, S.hand t y = some (task, l) → l = .start)
    (hev : ∀ c, S.Stamped s' j c ↔ S.Stamped s j c) : S.Shows s' h w j loop := by
  have hidle {u : T} {task : J} {l : LoopState} (hu : S.Holds s u task l) : u ≠ t := by
    rintro rfl
    rw [Stamping.Holds, hx] at hu
    cases hu
  refine ⟨fun {u task l c} hu hp => ?_, fun hc => hS.stamped ((hev _).mp hc), fun hr hc => ?_⟩
  · by_cases hut : u = t
    · subst hut
      rw [hy task l ((Stamping.holds_self hloc).mp hu)]
      refine hS.waiting ?_ fun hc => hA.fresh hu hp ((hev c).mpr hc)
      rintro ⟨v, task', l', hv, hpv⟩
      exact hidle hv (hA.one hu hp ((Stamping.holds_ne hloc (hidle hv)).mpr hv) hpv)
    · exact hS.running ((Stamping.holds_ne hloc hut).mp hu) hp
  · refine hS.waiting ?_ fun hd => hc ((hev _).mpr hd)
    rintro ⟨u, task, l, hu, hp⟩
    exact hr ⟨u, task, l, (Stamping.holds_ne hloc (hidle hu)).mpr hu, hp⟩

theorem Stamping.running_advance {l' : LoopState} (hloc : s'.loc = Function.update s.loc t y)
    (hx : S.Holds s t task l) (hy : S.hand t y = some (task, l')) :
    S.Running s j c → S.Running s' j c := by
  rintro ⟨u, task', l'', hu, hp⟩
  by_cases hut : u = t
  · subst hut
    rw [Stamping.Holds, hx] at hu
    cases hu
    exact ⟨u, task, l', (Stamping.holds_self hloc).mpr hy, hp⟩
  · exact ⟨u, task', l'', (Stamping.holds_ne hloc hut).mpr hu, hp⟩

theorem Stamping.Shows.advance_other {l' : LoopState} (hS : S.Shows s h w j loop)
    (hloc : s'.loc = Function.update s.loc t y) (hx : S.Holds s t task l)
    (hy : S.hand t y = some (task, l')) (hev : ∀ c, S.Stamped s' j c ↔ S.Stamped s j c)
    (hother : ∀ c, ¬ S.piece t task j c) : S.Shows s' h w j loop := by
  refine ⟨fun {u task' l'' c} hu hp => ?_, fun hc => hS.stamped ((hev _).mp hc), fun hr hc => ?_⟩
  · by_cases hut : u = t
    · subst hut
      rw [Stamping.holds_self hloc, hy] at hu
      cases hu
      exact absurd hp (hother c)
    · exact hS.running ((Stamping.holds_ne hloc hut).mp hu) hp
  · exact hS.waiting (fun hrun => hr (Stamping.running_advance hloc hx hy hrun))
      fun hd => hc ((hev _).mpr hd)

theorem Stamping.Shows.advance {l' : LoopState} (hS : S.Shows s h w j loop) (hC : S.Cuts st h w)
    (hA : S.Alone s) (hloc : s'.loc = Function.update s.loc t y) (hx : S.Holds s t task l)
    (hy : S.hand t y = some (task, l')) (hev : ∀ c, S.Stamped s' j c ↔ S.Stamped s j c)
    (hp : S.piece t task j c) : S.Shows s' h w j (Function.update loop c l') := by
  refine ⟨fun {u task' l'' d} hu hpu => ?_, fun {d} hd => ?_, fun {d} hr hd => ?_⟩
  · by_cases hut : u = t
    · subst hut
      rw [Stamping.holds_self hloc, hy] at hu
      cases hu
      rw [hC.chunk_unique hpu hp, Function.update_self]
    · have hu := (Stamping.holds_ne hloc hut).mp hu
      have hdc : d ≠ c := by
        rintro rfl
        exact hut (hA.one hx hp hu hpu)
      rw [Function.update_of_ne hdc]
      exact hS.running hu hpu
  · have hd := (hev d).mp hd
    have hdc : d ≠ c := by
      rintro rfl
      exact hA.fresh hx hp hd
    rw [Function.update_of_ne hdc]
    exact hS.stamped hd
  · have hdc : d ≠ c := by
      rintro rfl
      exact hr ⟨t, task, l', (Stamping.holds_self hloc).mpr hy, hp⟩
    rw [Function.update_of_ne hdc]
    exact hS.waiting (fun hrun => hr (Stamping.running_advance hloc hx hy hrun))
      fun hs => hd ((hev d).mpr hs)

theorem Stamping.Shows.finish (hS : S.Shows s h w j loop) (hC : S.Cuts st h w)
    (hloc : s'.loc = Function.update s.loc t y) (hx : S.Holds s t task l)
    (hend : (S.info t task).finished l = true) (hy : S.hand t y = none)
    (hev : ∀ c, S.Stamped s' j c ↔ S.Stamped s j c ∨ S.piece t task j c) :
    S.Shows s' h w j loop := by
  refine ⟨fun {u task' l' c} hu hp => ?_, fun {c} hc => ?_, fun {c} hr hc => ?_⟩
  · by_cases hut : u = t
    · subst hut
      rw [Stamping.holds_self hloc, hy] at hu
      cases hu
    · exact hS.running ((Stamping.holds_ne hloc hut).mp hu) hp
  · rcases (hev c).mp hc with hc | hp
    · exact hS.stamped hc
    · rw [hS.running hx hp, ← hC.info hp]
      exact hend
  · refine hS.waiting ?_ fun hd => hc ((hev c).mpr (Or.inl hd))
    rintro ⟨u, task', l', hu, hp⟩
    by_cases hut : u = t
    · subst hut
      rw [Stamping.Holds, hx] at hu
      cases hu
      exact hc ((hev c).mpr (Or.inr hp))
    · exact hr ⟨u, task', l', (Stamping.holds_ne hloc hut).mpr hu, hp⟩

end Move

/-! ## One step of the network -/

def picture (st : ImageStream) (s : State T M σ (Memory T J)) (j : ℕ) (loop : Fin nc → LoopState) :
    PixelState nc :=
  ⟨loop, s.mem.pixels (st.pix j)⟩

omit [DecidableEq T] in
theorem Stamping.stamped_append {t : T} {es : List (Event J)} (hev : s'.mem.events =
    s.mem.events ++ es.map fun e => (t, e)) (c : Fin nc) : S.Stamped s' j c ↔ S.Stamped s j c ∨
      ∃ task, .chunkDone task ∈ es ∧ S.piece t task j c := by
  constructor
  · rintro ⟨u, task, hu, hp⟩
    rw [hev] at hu
    rcases List.mem_append.mp hu with hu | hu
    · exact Or.inl ⟨u, task, hu, hp⟩
    · rcases List.mem_map.mp hu with ⟨e, he, heq⟩
      cases heq
      exact Or.inr ⟨task, he, hp⟩
  · rintro (⟨u, task, hu, hp⟩ | ⟨task, htask, hp⟩)
    · exact ⟨u, task, hev ▸ List.mem_append_left _ hu, hp⟩
    · exact ⟨t, task, hev ▸ List.mem_append_right _ (List.mem_map.mpr ⟨_, htask, rfl⟩), hp⟩

section Step
variable [DecidableEq Q]

/-- A step of the network is a step of the loops on picture `j`, or none. -/
theorem Stamping.Shows.step (hS : S.Shows s h w j loop) (hD : S.Describes P) (hC : S.Cuts st h w)
    (hA : S.Alone s) (hA' : S.Alone s') (hj : j < st.size) (hstep : P.Step s s') :
    ∃ loop', S.Shows s' h w j loop' ∧ Relation.ReflGen (PixelStep S.ptrMark (infoVector h w nc))
      (picture st s j loop) (picture st s' j loop') := by
  cases hstep with
  | pop t q next m rest ha hq =>
    rcases hD.pop t _ q next m ha with ⟨hx, hy⟩
    exact ⟨loop, hS.take hA' rfl hx hy fun c => Iff.rfl, .refl⟩
  | push t q m next ha =>
    rcases hD.push t _ q m next ha with ⟨hx, hy⟩
    refine ⟨loop, hS.take hA' rfl hx (fun task l hl => ?_) fun c => Iff.rfl, .refl⟩
    rw [hy] at hl
    cases hl
  | work t f ha =>
    have hf := hD.work t _ s.mem f ha
    generalize f s.mem = r at hf hA' ⊢
    cases hf with
    | @loop task l y hx hrun hy =>
      rcases hA.known hx with ⟨k, c, hp⟩
      have hpix : S.dataImg task = st.pix k := hC.dataImg hp
      by_cases hkj : k = j
      · -- the loop that moves is on this picture
        subst hkj
        refine ⟨_, hS.advance hC hA rfl hx hy (fun d => Iff.rfl) hp, .single ?_⟩
        have hl : loop c = l := hS.running hx hp
        rw [hC.info hp, ← hl] at hrun
        have hmove : PixelStep S.ptrMark (infoVector h w nc) (picture st s k loop) _ :=
          .worker _ c hrun
        simpa only [picture, hl, State.afterWork, Memory.write, hpix, Function.update_self,
          hC.info hp] using hmove
      · have hne : st.pix j ≠ S.dataImg task := fun he =>
          hkj ((st.pix_inj (hC.lt hp) hj).mp (hpix ▸ he.symm))
        refine ⟨loop, hS.advance_other rfl hx hy (fun d => Iff.rfl) fun d hd =>
          hne (hC.dataImg hd).symm, ?_⟩
        simp only [picture, State.afterWork, Memory.write, Function.update_of_ne hne]
        exact .refl
    | @finish task l y es hx hend hy hes =>
      refine ⟨loop, hS.finish hC rfl hx hend hy fun d => ?_, .refl⟩
      rw [Stamping.stamped_append rfl]
      simp only [hes, exists_eq_left]
    | @other y es hx hy hes =>
      refine ⟨loop, hS.take hA' rfl hx (fun task l hl => ?_) fun d => ?_, .refl⟩
      · rw [hy] at hl
        cases hl
      · rw [Stamping.stamped_append rfl]
        simp only [hes, false_and, exists_false, or_false]

/-! ## The whole run -/

/-- Every run of the network is, for each picture, a run of the loops on it. -/
theorem Stamping.Describes.simulates {pixels : Ptr → Buffer} (hD : S.Describes P)
    (hC : S.Cuts st h w) (hA : ∀ s, P.Reachable ⟨pixels, []⟩ s → S.Alone s) (hj : j < st.size)
    (hs : P.Reachable ⟨pixels, []⟩ s) : ∃ loop, S.Shows s h w j loop ∧
      Relation.ReflTransGen (PixelStep S.ptrMark (infoVector h w nc))
        ⟨fun _ => .start, pixels (st.pix j)⟩ (picture st s j loop) := by
  induction hs with
  | refl =>
    refine ⟨fun _ => .start, ⟨fun {t task l c} ht _ => ?_, ?_, fun _ _ => rfl⟩, .refl⟩
    · have hstart : S.hand t (P.start t) = some (task, l) := ht
      rw [hD.start] at hstart
      cases hstart
    · rintro c ⟨t, task, hmem, -⟩
      cases hmem
  | @tail s s' hs hstep ih =>
    rcases ih with ⟨loop, hS, hrun⟩
    rcases hS.step hD hC (hA s hs) (hA s' (hs.tail hstep)) hj hstep with ⟨loop', hS', hmove⟩
    exact ⟨loop', hS', hrun.trans hmove.to_reflTransGen⟩

/-- A picture whose chunks are all stamped is the sequential one. -/
theorem Stamping.Describes.pixels_eq {pixels : Ptr → Buffer} (hD : S.Describes P)
    (hC : S.Cuts st h w) (hA : ∀ s, P.Reachable ⟨pixels, []⟩ s → S.Alone s) (hnc : 0 < nc)
    (hj : j < st.size) (hs : P.Reachable ⟨pixels, []⟩ s) (hall : ∀ c, S.Stamped s j c) :
    s.mem.pixels (st.pix j) = (seqLoop S.ptrMark h w (pixels (st.pix j))).img := by
  rcases hD.simulates hC hA hj hs with ⟨loop, hS, hrun⟩
  have hI := PixelInv.run hrun
  apply img_eq_seqLoop hnc hI.stampedOn
  intro c
  exact (finished_iff.mp (hS.stamped (hall c))).2

/-- At any time every byte of a picture is the byte that was loaded or that of the
sequential loop. -/
theorem Stamping.Describes.byte_eq {pixels : Ptr → Buffer} (hD : S.Describes P)
    (hC : S.Cuts st h w) (hA : ∀ s, P.Reachable ⟨pixels, []⟩ s → S.Alone s)
    (hj : j < st.size) (hs : P.Reachable ⟨pixels, []⟩ s) (p : ℕ) :
    (s.mem.pixels (st.pix j))[p]? = (pixels (st.pix j))[p]? ∨
      (s.mem.pixels (st.pix j))[p]? = (seqLoop S.ptrMark h w (pixels (st.pix j))).img[p]? := by
  rcases hD.simulates hC hA hj hs with ⟨loop, hS, hrun⟩
  exact (PixelInv.run hrun).stampedOn.byte_eq (stampedOn_seqLoop _ _ h w)
    (fun _ _ => trivial) p

/-! ## The log of the events -/

theorem Stamping.Describes.events_step (hD : S.Describes P) (hstep : P.Step s s') :
    s.mem.events <+: s'.mem.events := by
  cases hstep with
  | pop t q next m rest ha hq => exact List.prefix_rfl
  | push t q m next ha => exact List.prefix_rfl
  | work t f ha =>
    have hf := hD.work t _ s.mem f ha
    generalize f s.mem = r at hf ⊢
    cases hf with
    | loop hx hrun hy => exact List.prefix_rfl
    | finish hx hend hy hes => exact List.prefix_append _ _
    | other hx hy hes => exact List.prefix_append _ _

theorem Stamping.Describes.events_le (hD : S.Describes P)
    (hrun : Relation.ReflTransGen P.Step s s') : s.mem.events <+: s'.mem.events := by
  induction hrun with
  | refl => exact List.prefix_rfl
  | tail _ hstep ih => exact ih.trans (hD.events_step hstep)

end Step

end Run

end WaterMark.Pictures
