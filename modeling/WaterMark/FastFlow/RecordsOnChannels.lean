import WaterMark.FastFlow.OnChannels

/-! # The FastFlow map on its channels

The workers read the records from memory, as in `Records`, between their calls of `push`
and `pop`. A read does not wait for a channel, and a node that has tried in vain has
nothing to read. So the runs in which no deleted record is read are those of the nodes
that have the fields at hand, and they end.
-/

namespace WaterMark.FastFlow.Channels
open ChannelNetwork

variable {T Q R : Type*} {M : Q → Type*} {σ : T → Type*} {μ : Type*} {P : Program T M σ μ}
  {D : Reads σ μ R} {fixedsize : Q → Bool} {failed : (t : T) → σ t → σ t}
  {queue : (q : Q) → List (M q)} {t : T}

/-- Where a node goes on after a failure: what it has to read stays. -/
def attempted (failed : (t : T) → σ t → σ t) (t : T) (x : σ t × List R) : σ t × List R :=
  (failed t x.1, x.2)

theorem busy_of_reads {x : σ t × List R} (hreads : x.2 ≠ []) :
    Busy (P.reading D) fixedsize (attempted failed) queue t x := by
  refine ⟨{y | y.2 ≠ []}, hreads, fun y hy => ⟨hy, ?_⟩⟩
  obtain ⟨y, todo⟩ := y
  cases todo with
  | nil => exact absurd rfl hy
  | cons r rest =>
    refine ⟨List.cons_ne_nil _ _, fun a ha => ?_⟩
    rw [List.mem_singleton.mp ha]
    trivial

/-- A node that is busy is busy between its reads as well. -/
theorem Busy.reading {x : σ t × List R} (h : Busy P fixedsize failed queue t x.1) :
    Busy (P.reading D) fixedsize (attempted failed) queue t x := by
  obtain ⟨places, hmem, hplaces⟩ := h
  refine ⟨{y | y.1 ∈ places}, hmem, fun y hy => ⟨(hplaces y.1 hy).1, ?_⟩⟩
  obtain ⟨y, todo⟩ := y
  obtain ⟨-, hne, hgoes⟩ := hplaces y hy
  cases todo with
  | nil =>
    refine ⟨fun hnil => hne (List.map_eq_nil_iff.mp hnil), fun a ha => ?_⟩
    obtain ⟨b, hb, rfl⟩ := List.mem_map.mp ha
    have hb := hgoes b hb
    cases b <;> exact hb
  | cons r rest =>
    refine ⟨List.cons_ne_nil _ _, fun a ha => ?_⟩
    rw [List.mem_singleton.mp ha]
    trivial

theorem exists_busy_reading [DecidableEq T] [DecidableEq Q]
    {s : State T M (fun t => σ t × List R) (Watched μ R)}
    (hbusy : (∃ t, P.actions t (s.unread.loc t) ≠ []) →
      ∃ t, Busy P fixedsize failed s.queue t (s.unread.loc t))
    (hleft : ∃ t, (P.reading D).actions t (s.loc t) ≠ []) :
    ∃ t, Busy (P.reading D) fixedsize (attempted failed) s.queue t (s.loc t) := by
  obtain ⟨t, hne⟩ := hleft
  by_cases hreads : (s.loc t).2 = []
  · have hactions : P.actions t (s.unread.loc t) ≠ [] := by
      intro hnil
      refine hne ?_
      rw [show s.loc t = ((s.loc t).1, []) from Prod.ext rfl hreads]
      exact List.map_eq_nil_iff.mpr hnil
    obtain ⟨u, hu⟩ := hbusy ⟨t, hactions⟩
    exact ⟨u, hu.reading⟩
  · exact ⟨t, busy_of_reads hreads⟩

end WaterMark.FastFlow.Channels

namespace WaterMark.FastFlow.Map
open ChannelNetwork TaggedLog Pixels Maps Gather Pictures Channels

variable {st : ImageStream} {nw : ℕ} {ptrMark : Buffer} {markHeight markWidth : ℕ}
  {pixels : Ptr → Buffer} {junk : Junk nw}

def svcReads (infoChunk : ChunkInfo) : ThWorker Task → List Read
  | .svc x => workerReads infoChunk x
  | _ => []

def assignSvc (r : Read) (value : Ptr) : ThWorker Task → ThWorker Task
  | .svc x => .svc (r.assign value x)
  | x => x

def nodeReads (markHeight markWidth : ℕ) (junk : Junk nw) :
    Reads (T := Thread nw) (NodeLoc Task) (Memory (Thread nw) Task) Read where
  upon
    | .worker i => svcReads (infoVector markHeight markWidth nw i)
    | _ => fun _ => []
  freed := freed
  found
    | .worker _ => fun mem r => assignSvc r (junk mem r)
    | _ => fun _ _ x => x

variable (st nw ptrMark markHeight markWidth) in
/-- The nodes of the farm, whose workers read the records from memory. -/
def nodes (junk : Junk nw) : Program (Thread nw) (Marked Task nw)
    (fun t => NodeLoc Task t × List Read) (Watched (Memory (Thread nw) Task) Read) :=
  (code st nw ptrMark markHeight markWidth).nodes.reading (nodeReads markHeight markWidth junk)

abbrev RecordChannelState (nw : ℕ) := SystemState (Thread nw) (Marked Task nw)
  (fun t => NodeLoc Task t × List Read) (Watched (Memory (Thread nw) Task) Read)

section Run
variable {size : Chan (Fin nw) → ℕ} {s : RecordChannelState nw}

theorem oneToOne :
    OneToOne (nodes st nw ptrMark markHeight markWidth junk) Code.sender Code.receiver :=
  OneToOne.reading (code st nw ptrMark markHeight markWidth).oneToOne _

theorem nodes_attempts : (nodes st nw ptrMark markHeight markWidth junk).attempts
      (fun _ => false) (attempted Code.failed) =
    ((code st nw ptrMark markHeight markWidth).nodes.attempts (fun _ => false)
      Code.failed).reading (nodeReads markHeight markWidth junk) := by
  refine Program.reading_attempts _ _ fun t x ⟨a, ha, hfails⟩ => ?_
  cases t with
  | emitter | collector => rfl
  | worker i =>
    cases a with
    | pop q next =>
      obtain ⟨imageCounter, rfl, -⟩ := ThWorker.pop ha
      rfl
    | push q m next => cases hfails
    | work f => cases hfails

/-- With the fields at hand, one worker or no image, what is read is not deleted. -/
theorem nodes_not_freed (hcond : nw = 1 ∨ st.size = 0) {s : Code.NodesState Task nw}
    (h : ((code st nw ptrMark markHeight markWidth).nodes.attempts (fun _ => false)
      Code.failed).Reachable ⟨pixels, []⟩ s) (t : Thread nw) {r : Read}
    (hr : r ∈ (nodeReads markHeight markWidth junk).upon t (s.loc t)) :
    freed s.mem r = false := by
  have hfarm := (Code.unmarks_attempts schedules).reachable h
  cases t with
  | emitter => cases hr
  | collector => cases hr
  | worker i =>
    change r ∈ svcReads (infoVector markHeight markWidth nw i) (s.loc (.worker i)) at hr
    have hread : r ∈ workerReads (infoVector markHeight markWidth nw i)
        (ThWorker.filter (s.loc (.worker i))) := by
      cases hx : s.loc (.worker i) with
      | svc x => rwa [hx] at hr
      | eos x => simp [hx, svcReads] at hr
      | returned x => simp [hx, svcReads] at hr
    exact not_freed hcond hfarm hread

theorem attempts_stale (hcond : nw = 1 ∨ st.size = 0)
    {s : State (Thread nw) (Marked Task nw) (fun t => NodeLoc Task t × List Read)
      (Watched (Memory (Thread nw) Task) Read)}
    (h : (((code st nw ptrMark markHeight markWidth).nodes.attempts (fun _ => false)
      Code.failed).reading (nodeReads markHeight markWidth junk)).Reachable
      ⟨⟨pixels, []⟩, []⟩ s) : s.mem.stale = [] :=
  Program.Reachable.stale_eq_nil (fun _ hs t _ hr => nodes_not_freed hcond hs t hr) h

variable (hsize : ∀ q, 0 < size q)
  (h : SystemReachable (nodes st nw ptrMark markHeight markWidth junk) size (fun _ => false)
    (attempted Code.failed) ⟨⟨pixels, []⟩, []⟩ s)
include hsize h

theorem reachable_attempts : (((code st nw ptrMark markHeight markWidth).nodes.attempts
      (fun _ => false) Code.failed).reading (nodeReads markHeight markWidth junk)).Reachable
    ⟨⟨pixels, []⟩, []⟩ s.atomic := by
  rw [← nodes_attempts]
  exact SystemReachable.atomic oneToOne hsize h

/-- As long as the nodes read no deleted record, they make a run of the farm. -/
theorem farm_reachable (hs : Defined s.mem) :
    (code st nw ptrMark markHeight markWidth).program.Reachable ⟨pixels, []⟩
      (s.atomic.unread.unmark (code st nw ptrMark markHeight markWidth).place) :=
  (Code.unmarks_attempts schedules).reachable
    (Program.Reachable.unread (reachable_attempts hsize h) hs.read)

theorem farm_terminal (hnw : 1 ≤ nw) (hs : Defined s.mem)
    (hend : s.Ended (nodes st nw ptrMark markHeight markWidth junk)) :
    (code st nw ptrMark markHeight markWidth).program.Terminal
      (s.atomic.unread.unmark (code st nw ptrMark markHeight markWidth).place) :=
  Code.unmark_terminal (Program.Reachable.unread (reachable_attempts hsize h) hs.read)
    (delivers ptrMark markHeight markWidth hnw) schedules
    (Program.Terminal.unread hend.terminal)

theorem channels_defined (hcond : nw = 1 ∨ st.size = 0) : Defined s.mem := by
  have hstale : s.mem.stale = [] := attempts_stale hcond (reachable_attempts hsize h)
  refine ⟨hstale, nodup_releases hcond ((Code.unmarks_attempts schedules).reachable
    (Program.Reachable.unread (reachable_attempts hsize h) hstale))⟩

theorem defined_ended_iff (hnw : 1 ≤ nw)
    (hend : s.Ended (nodes st nw ptrMark markHeight markWidth junk)) :
    Defined s.mem ↔ nw = 1 ∨ st.size = 0 := by
  refine ⟨fun hs => ?_, fun hcond => channels_defined hsize h hcond⟩
  exact (nodup_releases_iff hnw (farm_reachable hsize h hs)
    (farm_terminal hsize h hnw hs hend)).mp hs.deleted

end Run

theorem rank_found (t : Thread nw) (mem : Memory (Thread nw) Task) (r : Read)
    (x : NodeLoc Task t) :
    (code st nw ptrMark markHeight markWidth).nodeRank t
        ((nodeReads markHeight markWidth junk).found t mem r x) ≤
      (code st nw ptrMark markHeight markWidth).nodeRank t x := by
  cases t with
  | emitter | collector => exact le_rfl
  | worker i =>
    cases x with
    | svc x => exact (rank_assign _ r _ (fun _ _ => rfl) x).le
    | eos | returned => exact le_rfl

theorem length_upon_le (t : Thread nw) (x : NodeLoc Task t) :
    ((nodeReads markHeight markWidth junk).upon t x).length ≤ 2 := by
  cases t with
  | emitter | collector => exact Nat.zero_le 2
  | worker i =>
    cases x with
    | svc x => exact length_workerReads_le _ x
    | eos | returned => exact Nat.zero_le 2

variable (st nw ptrMark markHeight markWidth) in
/-- Steps left, with at most two reads after each action. -/
def recordRank (t : Thread nw) (x : NodeLoc Task t × List Read) : ℕ :=
  (2 + 1) * (code st nw ptrMark markHeight markWidth).nodeRank t x.1 + x.2.length

theorem nodes_ranking (hnw : 1 ≤ nw) : Ranking (nodes st nw ptrMark markHeight markWidth junk)
    (recordRank st nw ptrMark markHeight markWidth)
    (fun q m => (2 + 1) * (code st nw ptrMark markHeight markWidth).markedWeight q m)
    (Code.queues nw) :=
  ((code st nw ptrMark markHeight markWidth).nodes_ranking hnw).reading 2 length_upon_le rank_found

theorem recordRank_attempted (t : Thread nw) (x : NodeLoc Task t × List Read) :
    recordRank st nw ptrMark markHeight markWidth t (attempted Code.failed t x) ≤
      recordRank st nw ptrMark markHeight markWidth t x :=
  Nat.add_le_add_right (Nat.mul_le_mul_left _ (Code.nodeRank_failed _ t x.1)) _

section Ends
variable (hnw : 1 ≤ nw) (hcond : nw = 1 ∨ st.size = 0)
include hnw hcond

theorem nodes_busy
    {s : State (Thread nw) (Marked Task nw) (fun t => NodeLoc Task t × List Read)
      (Watched (Memory (Thread nw) Task) Read)}
    (h : ((nodes st nw ptrMark markHeight markWidth junk).attempts (fun _ => false)
      (attempted Code.failed)).Reachable ⟨⟨pixels, []⟩, []⟩ s)
    (hleft : ∃ t, (nodes st nw ptrMark markHeight markWidth junk).actions t (s.loc t) ≠ []) :
    ∃ t, Busy (nodes st nw ptrMark markHeight markWidth junk) (fun _ => false)
      (attempted Code.failed) s.queue t (s.loc t) := by
  rw [nodes_attempts] at h
  have hbase := Program.Reachable.unread h (attempts_stale hcond h)
  exact exists_busy_reading (fun hne => Code.exists_busy hnw
    (delivers ptrMark markHeight markWidth hnw) schedules (fun _ => rfl) hbase hne) hleft

variable {size : Chan (Fin nw) → ℕ} (hsize : ∀ q, 0 < size q)
include hsize

theorem nodes_fairRun_ended {r : ℕ → RecordChannelState nw}
    (hfair : FairRuns.FairRun (NodeStep (nodes st nw ptrMark markHeight markWidth junk) size
      (fun _ => false) (attempted Code.failed)) r)
    (h : SystemReachable (nodes st nw ptrMark markHeight markWidth junk) size (fun _ => false)
      (attempted Code.failed) ⟨⟨pixels, []⟩, []⟩ (r 0)) :
    ∃ n, (r n).Ended (nodes st nw ptrMark markHeight markWidth junk) :=
  Channels.fairRun_ended (nodes_ranking hnw) recordRank_attempted oneToOne hsize
    (fun _ hs hleft => nodes_busy hnw hcond hs hleft) hfair h

theorem nodes_exists_ended {s : RecordChannelState nw}
    (h : SystemReachable (nodes st nw ptrMark markHeight markWidth junk) size (fun _ => false)
      (attempted Code.failed) ⟨⟨pixels, []⟩, []⟩ s) :
    ∃ s', Relation.ReflTransGen (SystemStep (nodes st nw ptrMark markHeight markWidth junk) size
        (fun _ => false) (attempted Code.failed)) s s' ∧
      s'.Ended (nodes st nw ptrMark markHeight markWidth junk) :=
  have : Nonempty (Thread nw) := ⟨.emitter⟩
  SystemReachable.exists_ended (nodes_ranking hnw) recordRank_attempted oneToOne hsize
    (fun _ hs hleft => nodes_busy hnw hcond hs hleft) h

end Ends

/-- The FastFlow map on its channels, which are not of fixed size. As long as no deleted
record has been read or deleted once more, its pictures and its files are right whatever
the nodes have begun; with more than one worker and an image no run ends so. With one
worker or without images all runs are of this kind, every run can go on until all nodes
have ended, and a fair run does. Then all pictures are stamped and those with a number
inside `pool` are written. -/
theorem ffMap_onChannels (st : ImageStream) (ptrMark : Buffer) (markHeight markWidth : ℕ)
    (pixels : Ptr → Buffer) {nw : ℕ} (hnw : 1 ≤ nw) (junk : Junk nw) (size : Chan (Fin nw) → ℕ)
    (hsize : ∀ q, 0 < size q) (s : RecordChannelState nw)
    (h : SystemReachable (nodes st nw ptrMark markHeight markWidth junk) size (fun _ => false)
      (attempted Code.failed) ⟨⟨pixels, []⟩, []⟩ s) :
    (Defined s.mem →
      (∀ k < st.size, ∀ p : ℕ,
        (s.mem.mem.pixels (st.pix k))[p]? = (pixels (st.pix k))[p]? ∨
        (s.mem.mem.pixels (st.pix k))[p]? =
          (Seq.stamped st ptrMark markHeight markWidth pixels k).2[p]?) ∧
      (∀ imageId path ptrImg picture,
        (.collector, .save imageId path ptrImg picture) ∈ s.mem.mem.events →
        (gatherMap st nw).inPool imageId = true → ∃ k < st.size, imageId = k + 1 ∧
          ptrImg = st.img k ∧
          picture = (Seq.stamped st ptrMark markHeight markWidth pixels k).2)) ∧
    (s.Ended (nodes st nw ptrMark markHeight markWidth junk) →
      (Defined s.mem ↔ nw = 1 ∨ st.size = 0) ∧ (Defined s.mem → ∀ k < st.size,
        s.mem.mem.pixels (st.pix k) = (Seq.stamped st ptrMark markHeight markWidth pixels k).2 ∧
        (k + 1 < st.size → (.collector, .save (k + 1) (savePath (k + 1)) (st.img k)
          (Seq.stamped st ptrMark markHeight markWidth pixels k).2) ∈ s.mem.mem.events))) ∧
    (nw = 1 ∨ st.size = 0 → Defined s.mem ∧
      (∀ r : ℕ → RecordChannelState nw, r 0 = s →
        FairRuns.FairRun (NodeStep (nodes st nw ptrMark markHeight markWidth junk) size
          (fun _ => false) (attempted Code.failed)) r →
        ∃ n, (r n).Ended (nodes st nw ptrMark markHeight markWidth junk)) ∧
      ∃ s', Relation.ReflTransGen (SystemStep (nodes st nw ptrMark markHeight markWidth junk) size
          (fun _ => false) (attempted Code.failed)) s s' ∧
        s'.Ended (nodes st nw ptrMark markHeight markWidth junk)) := by
  refine ⟨fun hs => ⟨fun k hk p => ?_, fun imageId path ptrImg picture hsave hin => ?_⟩,
    fun hend => ⟨defined_ended_iff hsize h hnw hend, fun hs k hk => ?_⟩,
    fun hcond => ⟨channels_defined hsize h hcond, fun r hr hfair => ?_,
      nodes_exists_ended hnw hcond hsize h⟩⟩
  · exact (Code.describes quiet (piece st)).byte_eq cuts (fun _ hs => alone hs) hk
      (farm_reachable hsize h hs) p
  · exact saved_picture hnw (farm_reachable hsize h hs) _ hsave imageId path ptrImg picture rfl hin
  · have hfarm := farm_reachable hsize h hs
    have hterm := farm_terminal hsize h hnw hs hend
    exact ⟨pixels_eq hnw hfarm hk fun i => stamped_terminal hnw hfarm hterm hk i,
      written_terminal hnw hfarm hterm⟩
  · exact nodes_fairRun_ended hnw hcond hsize hfair (hr ▸ h)

/-- One worker with buffers of one slot stamps two pictures of four pixels. -/
theorem ffMap_onChannels_twoImages :
    ∃ s, SystemReachable (nodes twoImages 1 [0, 200, 49, 50] 2 2 fun _ _ => NULL) (fun _ => 1)
        (fun _ => false) (attempted Code.failed) ⟨⟨fun _ => List.replicate 12 100, []⟩, []⟩ s ∧
      s.Ended (nodes twoImages 1 [0, 200, 49, 50] 2 2 fun _ _ => NULL) ∧
      s.mem.mem.pixels (twoImages.pix 1) =
        [50, 100, 74, 100, 50, 100, 74, 100, 50, 100, 74, 100] := by
  have hall := ffMap_onChannels twoImages [0, 200, 49, 50] 2 2 (fun _ => List.replicate 12 100)
    le_rfl (fun _ _ => NULL) (fun _ => 1) fun _ => Nat.one_pos
  obtain ⟨hdefined, -, s, hrun, hend⟩ := (hall _ .refl).2.2 (.inl rfl)
  exact ⟨s, hrun, hend, (((hall s hrun).2.1 hend).2 ((hall s hrun).2.2 (.inl rfl)).1 1
    (by decide)).1⟩

end WaterMark.FastFlow.Map
