import WaterMark.FastFlow.UnboundedBuffer

/-! # `push` of the unbounded buffer

Every step of the writer keeps the chain in order. A buffer that the writer leaves
is full, and no one but the reader takes values out of it.
-/

namespace WaterMark.FastFlow.Unbounded
open Queue Swsr

variable {α : Type*} {size : ℕ} {s : State α} {pre : List ℕ}

theorem ne_nil_of_full {b : BufferState α} (hsize : 0 < size) (hfull : b.contents.length = size) :
    b.contents ≠ [] := by
  intro hnil
  rw [hnil, List.length_nil] at hfull
  omega

theorem Inv.moveWriter (h : Inv size s pre) (hsize : 0 < size) {x : Writer α}
    (hahead : x.ahead = s.writer.ahead) (hnewer : x.newer = s.writer.newer)
    (hidle : (s.bufs s.buf_w).writer = .idle)
    (hgrow : x.Growing → (s.bufs s.buf_w).contents.length = size) :
    Inv size { s with writer := x } pre :=
  { h with
    chain := h.chain.trans (by rw [hahead])
    nodup := by
      have hnodup := h.nodup
      rwa [← hnewer] at hnodup
    fresh := fun b hb => h.fresh b (hnewer ▸ hb)
    writers := fun b hb => by
      obtain ⟨rfl, -⟩ := h.writers b hb
      exact absurd hidle hb
    behind := fun hx _ => hgrow hx
    expecting := fun hexp hor => by
      by_cases hpre : pre = []
      · rw [show State.head { s with writer := x } = s.buf_w from h.head_eq hpre]
        exact ne_nil_of_full hsize (hgrow (hor.resolve_right (not_not.mpr hpre)))
      · exact h.expecting hexp (.inr hpre) }

theorem Inv.callPush (h : Inv size s pre) {data : α} (hnewer : s.writer.newer = [])
    (hahead : s.writer.ahead = []) (hw : s.writer ≠ .pushing)
    (hroom : (s.bufs s.buf_w).contents.length < size) : Inv size (s.callPush data) pre where
  chain := h.chain.trans (by rw [hahead]; rfl)
  nodup := by
    have hnodup := h.nodup
    rwa [hnewer] at hnodup
  inner b := by
    by_cases hb : b = s.buf_w
    · have hidle : (s.bufs s.buf_w).writer = .idle := by
        by_contra hne
        exact hw (h.writers _ hne).2
      rw [hb, callPush_self]
      exact (h.inner _).callPush data hidle
    · rw [callPush_of_ne s data hb]
      exact h.inner b
  fresh b hb := by
    have hmem : b ∈ s.writer.newer ++ s.bufcache := hnewer.symm ▸ hb
    rw [callPush_of_ne s data (h.ne_buf_w_of_fresh hmem)]
    exact h.fresh b hmem
  writers b hb := by
    by_cases hne : b = s.buf_w
    · exact ⟨hne, rfl⟩
    · rw [callPush_of_ne s data hne] at hb
      exact absurd (h.writers b hb).2 hw
  readers b hb := h.readers b (reader_callPush s data b ▸ hb)
  room _ _ := (contents_callPush s data _).symm ▸ hroom
  full b hb := (contents_callPush s data b).symm ▸ h.full b hb
  behind hgrow := hgrow.elim
  expecting hexp hor := by
    rw [reader_callPush] at hexp
    rw [contents_callPush]
    exact h.expecting hexp (.inr (hor.resolve_left id))
  later := h.later
  drained hr := (contents_callPush s data _).symm ▸ h.drained hr
  compared := h.compared
  cache := h.cache
  history := by
    have hcontents : (s.callPush data).contents = s.contents :=
      List.flatMap_congr fun b _ => contents_callPush s data b
    rw [hcontents]
    exact h.history

theorem Inv.push_contents (h : Inv size s pre) {b : BufferState α} (hw : s.writer = .pushing)
    (hstep : PushStep size (s.bufs s.buf_w) b) :
    ∃ new : Option α, b.pushed.drop (s.bufs s.buf_w).pushed.length = new.toList ∧
      ((s.head :: s.inuse).flatMap fun c => (Function.update s.bufs s.buf_w b c).contents) =
        s.contents ++ new.toList := by
  obtain ⟨new, hpushed, -, hcontents⟩ := hstep.contents (h.inner _)
  have hchain : s.head :: s.inuse = pre ++ [s.buf_w] := by rw [h.chain, hw]; rfl
  have hpre : pre.flatMap (fun c => (Function.update s.bufs s.buf_w b c).contents) =
      pre.flatMap fun c => (s.bufs c).contents :=
    List.flatMap_congr fun c hc => by rw [Function.update_of_ne (h.ne_buf_w hc)]
  refine ⟨new, by rw [hpushed, List.drop_left], ?_⟩
  rw [State.contents, hchain, List.flatMap_append, List.flatMap_append, hpre]
  simp [hcontents]

theorem Inv.push (h : Inv size s pre) (hsize : 0 < size) {b : BufferState α}
    (hw : s.writer = .pushing) (hstep : PushStep size (s.bufs s.buf_w) b) :
    Inv size { s with
      bufs := Function.update s.bufs s.buf_w b
      pushed := s.pushed ++ b.pushed.drop (s.bufs s.buf_w).pushed.length } pre := by
  have hother : ∀ c ≠ s.buf_w, Function.update s.bufs s.buf_w b c = s.bufs c :=
    fun c hc => Function.update_of_ne hc ..
  have hreader : ∀ c, (Function.update s.bufs s.buf_w b c).reader = (s.bufs c).reader := by
    intro c
    by_cases hc : c = s.buf_w
    · rw [hc, Function.update_self, hstep.reader]
    · rw [hother c hc]
  exact { h with
    inner := by
      intro c
      by_cases hc : c = s.buf_w
      · simpa only [hc, Function.update_self] using hstep.inv hsize (h.inner _)
      · simpa only [hother c hc] using h.inner c
    fresh := by
      intro c hc
      simpa only [hother c (h.ne_buf_w_of_fresh hc)] using h.fresh c hc
    writers := by
      intro c hc
      by_cases hne : c = s.buf_w
      · exact ⟨hne, hw⟩
      · simp only [hother c hne] at hc
        exact h.writers c hc
    readers := by
      intro c hc
      simp only [hreader] at hc
      exact h.readers c hc
    room := by
      intro data hdata
      simp only [Function.update_self] at hdata
      exact absurd hdata (hstep.not_testing data)
    full := by
      intro c hc
      simpa only [hother c (h.ne_buf_w (List.mem_of_mem_tail hc))] using h.full c hc
    behind := by
      intro hgrow
      rw [hw] at hgrow
      exact hgrow.elim
    expecting := by
      intro hexp hor
      simp only [hreader] at hexp
      have hpre : pre ≠ [] := hor.resolve_left (by rw [hw]; exact id)
      have hhead := h.expecting hexp (.inr hpre)
      rwa [← hother _ (h.head_ne hpre)] at hhead
    drained := by
      intro hr
      have hne : s.buf_r ≠ s.buf_w := by
        have hhead := h.head_ne (h.later (.inr hr))
        rwa [State.head, hr] at hhead
      simpa only [hother _ hne] using h.drained hr
    history := by
      obtain ⟨new, hdrop, hcontents⟩ := h.push_contents hw hstep
      show s.popped ++ List.flatMap _ (s.head :: s.inuse) = s.pushed ++ _
      rw [hcontents, hdrop, ← h.history, List.append_assoc] }

/-- `next_w` has a buffer, a released one or a new one. -/
theorem Inv.take (h : Inv size s pre) {data : α} {t : ℕ} {rest : List ℕ}
    (hw : s.writer = .nextW data) (hnodup : (pre ++ s.buf_w :: ([t] ++ rest ++ s.older)).Nodup)
    (hfresh : ∀ b ∈ [t] ++ rest, s.bufs b = .empty) (hlen : rest.length ≤ cacheSize) :
    Inv size { s with writer := .enqueue t data, bufcache := rest } pre :=
  { h with
    chain := by
      have hchain := h.chain
      rwa [hw] at hchain
    nodup := hnodup
    fresh := hfresh
    writers := fun b hb => by
      have hpushing := (h.writers b hb).2
      rw [hw] at hpushing
      cases hpushing
    behind := fun _ => h.behind (by rw [hw]; trivial)
    expecting := fun hexp _ => h.expecting hexp (.inl (by rw [hw]; trivial))
    cache := hlen }

/-- A buffer that the chain does not need is made empty. -/
theorem Inv.reset (h : Inv size s pre) {p : ℕ} (hpre : p ∉ pre) (hbuf_w : p ≠ s.buf_w) :
    Inv size { s with bufs := Function.update s.bufs p .empty } pre := by
  have hother : ∀ b ≠ p, Function.update s.bufs p .empty b = s.bufs b :=
    fun b hb => Function.update_of_ne hb ..
  have hhead : s.head ≠ p := by
    rintro rfl
    by_cases hnil : pre = []
    · exact hbuf_w (h.head_eq hnil)
    · obtain ⟨rest, hrest⟩ := h.head_mem hnil
      exact hpre (hrest ▸ List.mem_cons_self ..)
  have hfresh : ∀ b ∈ s.writer.newer ++ s.bufcache,
      Function.update s.bufs p .empty b = .empty := by
    intro b hb
    by_cases hbp : b = p
    · rw [hbp, Function.update_self]
    · rw [hother b hbp, h.fresh b hb]
  have hchain : ∀ b ∈ s.head :: s.inuse,
      (Function.update s.bufs p .empty b).contents = (s.bufs b).contents := by
    intro b hb
    rw [h.chain, List.mem_append, List.mem_cons] at hb
    rcases hb with hb | rfl | hb
    · rw [hother b (ne_of_mem_of_not_mem hb hpre)]
    · rw [hother _ hbuf_w.symm]
    · have hnewer : b ∈ s.writer.newer := by
        cases hw : s.writer <;> simp_all [Writer.ahead, Writer.newer]
      rw [hfresh b (List.mem_append_left _ hnewer), h.fresh b (List.mem_append_left _ hnewer)]
  exact { h with
    inner := fun b => by
      by_cases hb : b = p
      · simpa only [hb, Function.update_self] using BufferInv.start size
      · simpa only [hother b hb] using h.inner b
    fresh := hfresh
    writers := fun b hb => by
      by_cases hbp : b = p
      · simp only [hbp, Function.update_self] at hb
        exact absurd rfl hb
      · simp only [hother b hbp] at hb
        exact h.writers b hb
    readers := fun b hb => by
      by_cases hbp : b = p
      · simp only [hbp, Function.update_self] at hb
        exact absurd rfl hb
      · simp only [hother b hbp] at hb
        exact h.readers b hb
    room := by
      have hroom := h.room
      rwa [← hother _ hbuf_w.symm] at hroom
    full := fun b hb => by
      have hne : b ≠ p := ne_of_mem_of_not_mem (List.mem_of_mem_tail hb) hpre
      simpa only [hother b hne] using h.full b hb
    behind := by
      have hbehind := h.behind
      rwa [← hother _ hbuf_w.symm] at hbehind
    expecting := fun hexp hor => by
      have hexp' : s.reader.Expecting (s.bufs s.buf_r).reader := by
        by_cases hne : s.buf_r = p
        · simp only [hne, Function.update_self] at hexp
          cases hr : s.reader <;> simp_all [Reader.Expecting, BufferState.empty]
        · simpa only [hother _ hne] using hexp
      have hvalue := h.expecting hexp' hor
      rwa [← hother _ hhead] at hvalue
    drained := fun hr => by
      by_cases hne : s.buf_r = p
      · simp only [hne, Function.update_self]
        rfl
      · simpa only [hother _ hne] using h.drained hr
    history := by
      have hcontents := List.flatMap_congr hchain
      show s.popped ++ List.flatMap _ (s.head :: s.inuse) = s.pushed
      rw [hcontents]
      exact h.history }

theorem Inv.miss (h : Inv size s pre) {data : α} {t : ℕ} (hw : s.writer = .nextW data)
    (hcache : s.bufcache = []) (hnew : t ∉ s.live) :
    Inv size { s with
      writer := .enqueue t data, bufs := Function.update s.bufs t .empty } pre := by
  have hlive : t ∉ pre ∧ t ≠ s.buf_w ∧ t ∉ s.older := by
    rw [State.live, h.chain, hw, hcache] at hnew
    simpa [Writer.newer, Writer.ahead] using hnew
  obtain ⟨hpre, hbuf_w, holder⟩ := hlive
  have hnodup : (pre ++ s.buf_w :: ([t] ++ s.bufcache ++ s.older)).Nodup := by
    have hold := h.nodup
    have hmiddle : (pre ++ [s.buf_w] ++ t :: (s.bufcache ++ s.older)).Perm
        (t :: (pre ++ [s.buf_w] ++ (s.bufcache ++ s.older))) := List.perm_middle
    have hperm : (pre ++ s.buf_w :: ([t] ++ s.bufcache ++ s.older)).Perm
        (t :: (pre ++ s.buf_w :: (s.bufcache ++ s.older))) := by
      simpa using hmiddle
    rw [hw] at hold
    rw [hperm.nodup_iff, List.nodup_cons]
    refine ⟨?_, hold⟩
    simp [hpre, hbuf_w, holder, hcache]
  refine (h.reset hpre hbuf_w).take hw hnodup ?_ h.cache
  intro b hb
  rw [hcache] at hb
  rw [List.mem_singleton.mp hb]
  exact Function.update_self ..

theorem Inv.enqueue (h : Inv size s pre) {data : α} {t : ℕ} (hw : s.writer = .enqueue t data) :
    Inv size { s with writer := .switch t data, inuse := s.inuse ++ [t] } pre :=
  { h with
    chain := by
      have hchain := h.chain
      rw [hw] at hchain
      show (s.head :: s.inuse) ++ [t] = _
      rw [hchain, List.append_assoc]
      rfl
    nodup := by
      have hnodup := h.nodup
      rwa [hw] at hnodup
    fresh := by
      have hfresh := h.fresh
      rwa [hw] at hfresh
    writers := fun b hb => by
      have hpushing := (h.writers b hb).2
      rw [hw] at hpushing
      cases hpushing
    behind := fun _ => h.behind (by rw [hw]; trivial)
    expecting := fun hexp _ => h.expecting hexp (.inl (by rw [hw]; trivial))
    history := by
      have hnil : (s.bufs t).contents = [] := by
        rw [h.fresh t (by rw [hw]; exact List.mem_append_left _ (List.mem_singleton_self t))]
        rfl
      show s.popped ++ List.flatMap _ ((s.head :: s.inuse) ++ [t]) = s.pushed
      rw [List.flatMap_append, List.flatMap_singleton, hnil, List.append_nil]
      exact h.history }

theorem Inv.switch (h : Inv size s pre) {data : α} {t : ℕ} (hw : s.writer = .switch t data) :
    Inv size { s with buf_w := t, writer := .idle } (pre ++ [s.buf_w]) := by
  have hempty : s.bufs t = .empty :=
    h.fresh t (by rw [hw]; exact List.mem_append_left _ (List.mem_singleton_self t))
  have hidle : ∀ b, (s.bufs b).writer = .idle := by
    intro b
    by_contra hb
    have hpushing := (h.writers b hb).2
    rw [hw] at hpushing
    cases hpushing
  have hgrowing : s.writer.Growing := by
    rw [hw]
    trivial
  have hne : pre ++ [s.buf_w] ≠ [] := List.append_ne_nil_of_right_ne_nil _ (List.cons_ne_nil _ _)
  exact { h with
    chain := by
      have hchain := h.chain
      rwa [hw, List.append_cons] at hchain
    nodup := by
      have hnodup := h.nodup
      rwa [hw, List.append_cons] at hnodup
    fresh := fun b hb => h.fresh b (List.mem_append_right _ hb)
    writers := fun b hb => absurd (hidle b) hb
    room := fun data' hdata => by
      have hdata' := (hidle t).symm.trans hdata
      cases hdata'
    full := fun b hb => by
      cases pre with
      | nil => cases hb
      | cons p rest =>
        rcases List.mem_append.mp hb with hb | hb
        · exact h.full b hb
        · rw [List.mem_singleton.mp hb]
          exact h.behind hgrowing (List.cons_ne_nil _ _)
    behind := fun hx => hx.elim
    expecting := fun hexp _ => h.expecting hexp (.inl hgrowing)
    later := fun _ => hne
    compared := fun _ _ hnil => absurd hnil hne }

variable {fixedsize : Bool} {s' : State α}

theorem WriterStep.inv (hsize : 0 < size) (hstep : WriterStep size fixedsize s s')
    (h : Inv size s pre) : ∃ pre', Inv size s' pre' := by
  have hidle : s.writer ≠ .pushing → (s.bufs s.buf_w).writer = .idle := by
    intro hw
    by_contra hne
    exact hw (h.writers _ hne).2
  cases hstep with
  | call data hw =>
    have hdone := hidle (by simp [hw])
    exact ⟨pre, h.moveWriter hsize (by rw [hw]; rfl) (by rw [hw]; rfl) hdone False.elim⟩
  | available data hw hroom =>
    have hroom' := (h.available hsize (by simp [hw])).mp hroom
    exact ⟨pre, h.callPush (by rw [hw]; rfl) (by rw [hw]; rfl) (by simp [hw]) hroom'⟩
  | full data hw hfull hfixed =>
    have hdone := hidle (by simp [hw])
    exact ⟨pre, h.moveWriter hsize (by rw [hw]; rfl) (by rw [hw]; rfl) hdone False.elim⟩
  | grow data hw hfull hfixed =>
    have hlen := (h.available hsize (by simp [hw])).not.mp hfull
    have heq := le_antisymm (length_contents_le (h.inner s.buf_w)) (not_lt.mp hlen)
    exact ⟨pre, h.moveWriter hsize (by rw [hw]; rfl) (by rw [hw]; rfl) (hidle (by simp [hw]))
      fun _ => heq⟩
  | hit data t rest hw hcache =>
    have hnodup := h.nodup
    have hfresh := h.fresh
    have hlen := h.cache
    rw [hw, hcache] at hnodup hfresh
    rw [hcache, List.length_cons] at hlen
    exact ⟨pre, h.take hw hnodup hfresh ((Nat.le_succ _).trans hlen)⟩
  | miss data t hw hcache hnew => exact ⟨pre, h.miss hw hcache hnew⟩
  | enqueue data t hw => exact ⟨pre, h.enqueue hw⟩
  | switch data t hw =>
    have hempty : s.bufs t = .empty :=
      h.fresh t (by rw [hw]; exact List.mem_append_left _ (List.mem_singleton_self t))
    have hroom : (s.bufs t).contents.length < size := by
      rw [hempty]
      exact hsize
    exact ⟨_, (h.switch hw).callPush rfl rfl (fun he => by cases he) hroom⟩
  | push b hw hpush => exact ⟨pre, h.push hsize hw hpush⟩
  | returned hw hdone =>
    exact ⟨pre, h.moveWriter hsize (by rw [hw]; rfl) (by rw [hw]; rfl) hdone False.elim⟩

end WaterMark.FastFlow.Unbounded
