import WaterMark.FastFlow.UnboundedPush

/-! # `pop` of the unbounded buffer

The reader leaves a buffer only when the writer has left it and no value is in it.
The next one is full or the writer's.
-/

namespace WaterMark.FastFlow.Unbounded
open Queue Swsr

variable {α : Type*} {size : ℕ} {s s' : State α} {pre : List ℕ}

theorem State.head_of_next (hnext : s.reader.next = none) : s.head = s.buf_r := by
  rw [State.head, hnext, Option.getD_none]

theorem State.older_of_next (hnext : s.reader.next = none) : s.older = [] := by
  unfold State.older
  split
  · rename_i hr
    rw [hr] at hnext
    cases hnext
  · rfl

theorem Inv.moveReader (h : Inv size s pre) {x : Reader} (hnext : s.reader.next = none)
    (hx : x.next = none) (hidle : (s.bufs s.buf_r).reader = .idle)
    (hexp : ∀ pc : ReaderPc α, ¬ x.Expecting pc)
    (hlater : x = .retesting ∨ x = .nextR → pre ≠ [])
    (hdrained : x = .nextR → (s.bufs s.buf_r).contents = [])
    (hcompared : ∀ stored, x = .comparing stored → pre = [] → s.popped.length = stored) :
    Inv size { s with reader := x } pre := by
  have hhead : State.head { s with reader := x } = s.head :=
    (State.head_of_next hx).trans (State.head_of_next hnext).symm
  have holder : State.older { s with reader := x } = s.older :=
    (State.older_of_next hx).trans (State.older_of_next hnext).symm
  exact { h with
    chain := by
      rw [hhead]
      exact h.chain
    nodup := by
      rw [holder]
      exact h.nodup
    readers := fun b hb => by
      obtain ⟨rfl, -⟩ := h.readers b hb
      exact absurd hidle hb
    expecting := fun hx' => absurd hx' (hexp _)
    later := hlater
    drained := hdrained
    compared := hcompared
    history := by
      have hcontents : State.contents { s with reader := x } = s.contents := by
        rw [State.contents, hhead]
        rfl
      rw [hcontents]
      exact h.history }

theorem Inv.callPop (h : Inv size s pre) (hhead : s.head = s.buf_r) (holder : s.older = [])
    (hr : s.reader ≠ .popping)
    (hvalue : s.writer.Growing ∨ pre ≠ [] → (s.bufs s.buf_r).contents ≠ []) :
    Inv size s.callPop pre where
  chain := by
    have hchain := h.chain
    rwa [hhead] at hchain
  nodup := by
    have hnodup := h.nodup
    rwa [holder] at hnodup
  inner b := by
    by_cases hb : b = s.buf_r
    · have hidle : (s.bufs s.buf_r).reader = .idle := by
        by_contra hne
        exact hr (h.readers _ hne).2
      rw [hb, callPop_self]
      exact (h.inner _).callPop hidle
    · rw [callPop_of_ne s hb]
      exact h.inner b
  fresh b hb := by
    have hne := h.ne_head_of_fresh hb
    rw [hhead] at hne
    rw [callPop_of_ne s hne]
    exact h.fresh b hb
  writers b hb := h.writers b (writer_callPop s b ▸ hb)
  readers b hb := by
    by_cases hne : b = s.buf_r
    · exact ⟨hne, rfl⟩
    · rw [callPop_of_ne s hne] at hb
      exact absurd (h.readers b hb).2 hr
  room data hdata := by
    rw [writer_callPop] at hdata
    rw [contents_callPop]
    exact h.room data hdata
  full b hb := (contents_callPop s b).symm ▸ h.full b hb
  behind hgrow hpre := (contents_callPop s _).symm ▸ h.behind hgrow hpre
  expecting _ hor := (contents_callPop s _).symm ▸ hvalue hor
  later hl := by rcases hl with hl | hl <;> cases hl
  drained hl := by cases hl
  compared _ hl := by cases hl
  cache := h.cache
  history := by
    have hcontents : s.callPop.contents = s.contents := by
      rw [State.contents, State.contents, hhead]
      exact List.flatMap_congr fun b _ => contents_callPop s b
    rw [hcontents]
    exact h.history

/-- `next_r` has a buffer, and the reader's own is empty. -/
theorem Inv.nextR (h : Inv size s pre) (hsize : 0 < size) {tmp : ℕ} {rest : List ℕ}
    (hr : s.reader = .nextR) (hinuse : s.inuse = tmp :: rest) :
    Inv size { s with reader := .releasing tmp, inuse := rest } pre.tail := by
  have hpre : pre ≠ [] := h.later (.inr hr)
  have hhead : s.head = s.buf_r := State.head_of_next (by rw [hr]; rfl)
  obtain ⟨ps, rfl⟩ := h.head_mem hpre
  have hchain : tmp :: rest = ps ++ s.buf_w :: s.writer.ahead := by
    have hold := h.chain
    rw [hinuse, List.cons_append] at hold
    exact (List.cons.inj hold).2
  exact { h with
    chain := hchain
    nodup := by
      have hnodup := h.nodup
      rw [State.older, hr, List.append_nil, hhead] at hnodup
      show (ps ++ s.buf_w :: (s.writer.newer ++ s.bufcache ++ [s.buf_r])).Nodup
      have hperm : (ps ++ s.buf_w :: (s.writer.newer ++ s.bufcache ++ [s.buf_r])).Perm
          (s.buf_r :: ps ++ s.buf_w :: (s.writer.newer ++ s.bufcache)) := by
        simpa using List.perm_append_singleton s.buf_r
          (ps ++ s.buf_w :: (s.writer.newer ++ s.bufcache))
      exact hperm.nodup_iff.mpr hnodup
    readers := fun b hb => by
      have hpopping := (h.readers b hb).2
      rw [hr] at hpopping
      cases hpopping
    full := fun b hb => h.full b (List.mem_of_mem_tail hb)
    behind := fun hgrow _ => h.behind hgrow (List.cons_ne_nil _ _)
    expecting := fun _ hor => by
      show (s.bufs tmp).contents ≠ []
      cases ps with
      | nil =>
        -- the next buffer is the writer's
        rw [(List.cons.inj hchain).1]
        exact ne_nil_of_full hsize (h.behind (hor.resolve_right (by simp)) (List.cons_ne_nil _ _))
      | cons p ps =>
        rw [(List.cons.inj hchain).1]
        exact ne_nil_of_full hsize (h.full p (List.mem_cons_self ..))
    later := fun hl => by rcases hl with hl | hl <;> cases hl
    drained := fun hl => by cases hl
    compared := fun _ hl => by cases hl
    history := by
      have hold := h.history
      rw [State.contents, List.flatMap_cons, hhead, h.drained hr, hinuse] at hold
      exact hold }

theorem Inv.buf_r_apart (h : Inv size s pre) {tmp : ℕ} (hr : s.reader = .releasing tmp) :
    s.buf_r ∉ pre ∧ s.buf_r ≠ s.buf_w ∧ s.buf_r ∉ s.writer.newer ++ s.bufcache := by
  have hnodup := h.nodup
  rw [State.older, hr, ← List.cons_append, ← List.append_assoc] at hnodup
  have hnot : s.buf_r ∉ pre ++ s.buf_w :: (s.writer.newer ++ s.bufcache) := fun hmem =>
    List.disjoint_of_nodup_append hnodup hmem (List.mem_singleton_self _)
  simpa using hnot

theorem Inv.inuse_ne_nil (h : Inv size s pre) (hr : s.reader = .nextR) : s.inuse ≠ [] := by
  obtain ⟨rest, hrest⟩ := h.head_mem (h.later (.inr hr))
  have hchain := h.chain
  rw [hrest, List.cons_append] at hchain
  rw [(List.cons.inj hchain).2]
  simp

/-- All values have been taken when the writer's buffer is the reader's and empty. -/
theorem Inv.all_popped (h : Inv size s pre) (hpre : pre = [])
    (hnil : (s.bufs s.head).contents = []) : s.popped = s.pushed := by
  have hchain := h.chain
  rw [hpre, List.nil_append] at hchain
  have hinuse : s.inuse = s.writer.ahead := (List.cons.inj hchain).2
  have hahead : s.inuse.flatMap (fun b => (s.bufs b).contents) = [] := by
    rw [List.flatMap_eq_nil_iff]
    intro b hb
    have hnewer := s.writer.ahead_sublist.subset (hinuse ▸ hb)
    rw [h.fresh b (List.mem_append_left _ hnewer)]
    rfl
  have hcontents : s.contents = [] := by
    rw [State.contents, List.flatMap_cons, hnil, hahead, List.nil_append]
  have hhistory := h.history
  rwa [hcontents, List.append_nil] at hhistory

/-- The reader gives its old buffer, made empty, back to the pool. -/
theorem Inv.release (h : Inv size s pre) {tmp : ℕ} {cache : List ℕ}
    (hr : s.reader = .releasing tmp) (hempty : s.bufs s.buf_r = .empty)
    (hsub : cache.Sublist (s.bufcache ++ [s.buf_r])) (hlen : cache.length ≤ cacheSize) :
    Inv size { s with reader := .switching tmp, bufcache := cache } pre := by
  have hhead : s.head = tmp := by rw [State.head, hr]; rfl
  exact { h with
    chain := by
      have hchain := h.chain
      rwa [hhead] at hchain
    nodup := by
      have hnodup := h.nodup
      rw [State.older, hr] at hnodup
      refine List.Nodup.sublist ?_ hnodup
      apply List.Sublist.append_left
      apply List.Sublist.cons_cons
      show (s.writer.newer ++ cache ++ []).Sublist _
      rw [List.append_nil, List.append_assoc]
      exact List.Sublist.append_left hsub _
    fresh := fun b hb => by
      rcases List.mem_append.mp hb with hb | hb
      · exact h.fresh b (List.mem_append_left _ hb)
      · rcases List.mem_append.mp (hsub.subset hb) with hb | hb
        · exact h.fresh b (List.mem_append_right _ hb)
        · rw [List.mem_singleton.mp hb]
          exact hempty
    readers := fun b hb => by
      have hpopping := (h.readers b hb).2
      rw [hr] at hpopping
      cases hpopping
    expecting := fun _ hor => by
      have hvalue := h.expecting (by rw [hr]; trivial) hor
      rwa [hhead] at hvalue
    later := fun hl => by rcases hl with hl | hl <;> cases hl
    drained := fun hl => by cases hl
    compared := fun _ hl => by cases hl
    cache := hlen
    history := by
      have hold := h.history
      rw [State.contents, hhead] at hold
      exact hold }

theorem Inv.switchR (h : Inv size s pre) {tmp : ℕ} (hr : s.reader = .switching tmp) :
    Inv size ({ s with buf_r := tmp }.callPop) pre := by
  have hhead : s.head = tmp := by rw [State.head, hr]; rfl
  have hmoved : Inv size { s with buf_r := tmp } pre :=
    { h with
      chain := by
        have hchain := h.chain
        rw [State.head, hr] at hchain ⊢
        exact hchain
      nodup := by
        have hnodup := h.nodup
        rw [State.older, hr] at hnodup ⊢
        exact hnodup
      readers := fun b hb => by
        have hpopping := (h.readers b hb).2
        rw [hr] at hpopping
        cases hpopping
      expecting := fun _ hor => by
        have hvalue := h.expecting (by rw [hr]; trivial) hor
        rw [State.head, hr] at hvalue ⊢
        exact hvalue
      drained := fun hl => by
        have hl' := hr.symm.trans hl
        cases hl'
      history := by
        have hold := h.history
        rw [State.contents, State.head, hr] at hold ⊢
        exact hold }
  apply hmoved.callPop
  · rw [State.head, hr]
    rfl
  · rw [State.older, hr]
  · simp [hr]
  · intro hor
    have hvalue := h.expecting (by rw [hr]; trivial) hor
    rwa [hhead] at hvalue

theorem Inv.pop_contents (h : Inv size s pre) {b : BufferState α} (hr : s.reader = .popping)
    (hstep : PopStep size (s.bufs s.buf_r) b) :
    ∃ old : Option α, b.popped.drop (s.bufs s.buf_r).popped.length = old.toList ∧
      s.contents = old.toList ++
        (s.head :: s.inuse).flatMap fun c => (Function.update s.bufs s.buf_r b c).contents := by
  obtain ⟨old, hpopped, -, hcontents⟩ := hstep.contents (h.inner _)
  have hhead : s.head = s.buf_r := State.head_of_next (by rw [hr]; rfl)
  have hnot : s.buf_r ∉ s.inuse := hhead ▸ (List.nodup_cons.mp h.nodup_chain).1
  have hinuse : s.inuse.flatMap (fun c => (Function.update s.bufs s.buf_r b c).contents) =
      s.inuse.flatMap fun c => (s.bufs c).contents :=
    List.flatMap_congr fun c hc => by rw [Function.update_of_ne (ne_of_mem_of_not_mem hc hnot)]
  refine ⟨old, by rw [hpopped, List.drop_left], ?_⟩
  rw [State.contents, List.flatMap_cons, List.flatMap_cons, hinuse, hhead, Function.update_self,
    hcontents, List.append_assoc]

theorem Inv.pop (h : Inv size s pre) (hsize : 0 < size) {b : BufferState α}
    (hr : s.reader = .popping) (hstep : PopStep size (s.bufs s.buf_r) b) :
    Inv size { s with
      bufs := Function.update s.bufs s.buf_r b
      popped := s.popped ++ b.popped.drop (s.bufs s.buf_r).popped.length } pre := by
  have hhead : s.head = s.buf_r := State.head_of_next (by rw [hr]; rfl)
  have hother : ∀ c ≠ s.buf_r, Function.update s.bufs s.buf_r b c = s.bufs c :=
    fun c hc => Function.update_of_ne hc ..
  have hwriter : ∀ c, (Function.update s.bufs s.buf_r b c).writer = (s.bufs c).writer := by
    intro c
    by_cases hc : c = s.buf_r
    · rw [hc, Function.update_self, hstep.writer]
    · rw [hother c hc]
  exact { h with
    inner := by
      intro c
      by_cases hc : c = s.buf_r
      · simpa only [hc, Function.update_self] using hstep.inv hsize (h.inner _)
      · simpa only [hother c hc] using h.inner c
    fresh := by
      intro c hc
      have hne : c ≠ s.buf_r := hhead ▸ h.ne_head_of_fresh hc
      simpa only [hother c hne] using h.fresh c hc
    writers := by
      intro c hc
      simp only [hwriter] at hc
      exact h.writers c hc
    readers := by
      intro c hc
      by_cases hne : c = s.buf_r
      · exact ⟨hne, hr⟩
      · simp only [hother c hne] at hc
        exact h.readers c hc
    room := by
      intro data hdata
      simp only [hwriter] at hdata
      have hroom := h.room data hdata
      obtain ⟨old, -, -, hcontents⟩ := hstep.contents (h.inner _)
      by_cases hne : s.buf_w = s.buf_r
      · rw [hne, hcontents, List.length_append] at hroom
        simp only [hne, Function.update_self]
        omega
      · simpa only [hother _ hne] using hroom
    full := by
      intro c hc
      have hne : c ≠ s.buf_r := hhead ▸ h.ne_head hc
      simpa only [hother c hne] using h.full c hc
    behind := by
      intro hgrow hpre
      have hne : s.buf_w ≠ s.buf_r := hhead ▸ (h.head_ne hpre).symm
      simpa only [hother _ hne] using h.behind hgrow hpre
    expecting := by
      intro hexp
      simp only [hr, Reader.Expecting, Function.update_self] at hexp
      exact absurd hexp hstep.not_testing
    drained := by
      intro hl
      have hl' := hr.symm.trans hl
      cases hl'
    compared := by
      intro stored hl
      have hl' := hr.symm.trans hl
      cases hl'
    history := by
      obtain ⟨old, hdrop, hcontents⟩ := h.pop_contents hr hstep
      have hold := h.history
      rw [hcontents, ← List.append_assoc, ← hdrop] at hold
      exact hold }

theorem ReaderStep.inv (hsize : 0 < size) (hstep : ReaderStep size s s') (h : Inv size s pre) :
    ∃ pre', Inv size s' pre' := by
  have hidle : s.reader ≠ .popping → (s.bufs s.buf_r).reader = .idle := by
    intro hr
    by_contra hne
    exact hr (h.readers _ hne).2
  cases hstep with
  | call hr =>
    have hdone := hidle (by simp [hr])
    refine ⟨pre, h.moveReader (by rw [hr]; rfl) rfl hdone (fun _ => id) ?_ ?_ ?_⟩ <;> simp
  | nonempty hr hne =>
    refine ⟨pre, h.callPop (State.head_of_next (by rw [hr]; rfl))
      (State.older_of_next (by rw [hr]; rfl)) (by simp [hr]) fun _ => ?_⟩
    exact (h.empty hsize (by simp [hr])).not.mp hne
  | empty hr hnull =>
    have hnil := (h.empty hsize (by simp [hr])).mp hnull
    refine ⟨pre, h.moveReader (by rw [hr]; rfl) rfl (hidle (by simp [hr])) (fun _ => id)
      (by simp) (by simp) ?_⟩
    intro stored hstored hpre
    have hhead : s.head = s.buf_r := State.head_of_next (by rw [hr]; rfl)
    rw [h.all_popped hpre (hhead ▸ hnil)]
    exact Reader.comparing.inj hstored
  | same stored hr heq =>
    have hdone := hidle (by simp [hr])
    refine ⟨pre, h.moveReader (by rw [hr]; rfl) rfl hdone (fun _ => id) ?_ ?_ ?_⟩ <;> simp
  | differ stored hr hne =>
    have hpre : pre ≠ [] := by
      intro hnil
      exact hne ((State.head_of_next (by rw [hr]; rfl)).symm.trans (h.head_eq hnil))
    refine ⟨pre, h.moveReader (by rw [hr]; rfl) rfl (hidle (by simp [hr])) (fun _ => id)
      (fun _ => hpre) ?_ ?_⟩ <;> simp
  | filled hr hne =>
    refine ⟨pre, h.callPop (State.head_of_next (by rw [hr]; rfl))
      (State.older_of_next (by rw [hr]; rfl)) (by simp [hr]) fun _ => ?_⟩
    exact (h.empty hsize (by simp [hr])).not.mp hne
  | drained hr hnull =>
    refine ⟨pre, h.moveReader (by rw [hr]; rfl) rfl (hidle (by simp [hr])) (fun _ => id)
      (fun _ => h.later (.inl hr)) (fun _ => ?_) (by simp)⟩
    exact (h.empty hsize (by simp [hr])).mp hnull
  | nextR tmp rest hr hinuse => exact ⟨_, h.nextR hsize hr hinuse⟩
  | noNext hr hinuse => exact absurd hinuse (h.inuse_ne_nil hr)
  | release tmp hr hroom =>
    obtain ⟨hpre, hbuf_w, -⟩ := h.buf_r_apart hr
    refine ⟨pre, (h.reset hpre hbuf_w).release hr (Function.update_self ..) (.refl _) ?_⟩
    rw [List.length_append]
    exact hroom
  | free tmp hr hfull =>
    obtain ⟨hpre, hbuf_w, -⟩ := h.buf_r_apart hr
    exact ⟨pre, (h.reset hpre hbuf_w).release hr (Function.update_self ..)
      (List.sublist_append_left _ _) h.cache⟩
  | switch tmp hr => exact ⟨pre, h.switchR hr⟩
  | pop b hr hpop => exact ⟨pre, h.pop hsize hr hpop⟩
  | returned hr hdone =>
    refine ⟨pre, h.moveReader (by rw [hr]; rfl) rfl hdone (fun _ => id) ?_ ?_ ?_⟩ <;> simp

end WaterMark.FastFlow.Unbounded
