import RangeCache.CompactionQueue
import RangeCache.TableRebuild

/-!
# The whole life of a cache

All that a cache goes through, in any order: appends, compactions that are chosen, started and
ended, restarts. A range is seen as what its history tells of it: how far its buffer is used, which
blocks its index lists, and which chunks have been appended since the last `CleanUp` or restart.

A cache of such views has no pool, no bytes, no nodes and no hash map, and still it runs in lock
step with the code: every operation returns on the one exactly when it does on the other, or fails
with the same error, and afterwards the tabs and the buffers hold what the views say. A restart
builds an empty index over a new node (`seq_num_` zero, as the constructor of `NvRangeTab` has it)
and leaves `dataLen` alone; over another node it reads the index from the log, which is not
followed here.

## Main definitions

* `RangeView`, `Views`, with `RangeView.step`, `Views.step` — the abstract cache
* `Shows` — a cache holds what the views say
* `CacheOp.Followed` — the operations, but for restarts over nodes that are not new

## Main results

* `Shows.step` — one operation, in lock step
* `cache_lockstep` — any run, in lock step
* `compaction_never_starts` — the space condition holds in no state of any run
-/

namespace RangeCache

open ByteMemory RecordLog FallibleRun ChainHeap PmemHashMap

namespace FixedRangeChunkBasedNVMWriteCache

open FixedRangeTab (AppendArgs AppendStep RangeHolds records TabOp)

/-! ## Views of ranges -/

/-- A range as its history has left it, without its bytes. -/
structure RangeView where
  /-- Where the chunks appended since the last `CleanUp` or restart begin. -/
  base : ℕ
  /-- The blocks that are listed in front of them. -/
  older : List ChunkBlk
  /-- These chunks, the oldest first. -/
  since : List AppendArgs

namespace RangeView

/-- A new range. -/
def empty : RangeView := { base := 0, older := [], since := [] }

/-- `dataLen`. -/
def used (v : RangeView) : ℕ := v.base + totalSize 8 (records v.since)

/-- `blklist`. -/
def index (v : RangeView) : List ChunkBlk :=
  v.older ++ (place 8 v.base (records v.since)).map (ChunkBlk.ofPlace 8)

/-- An operation on the tab. `CleanUp` starts the log again and keeps the index. -/
def step (v : RangeView) : TabOp → Except Fault RangeView
  | .append a =>
    if v.used + a.record.size 8 ≤ rangeBufSize.toNat then .ok { v with since := v.since ++ [a] }
    else .error .outOfBounds
  | .setCompactionWorking _ => .ok v
  | .cleanUp => .ok { base := 0, older := v.index, since := [] }

/-- A restart empties the index. What is used stays used. -/
def restarted (v : RangeView) : RangeView := { base := v.used, older := [], since := [] }

end RangeView

/-- The ranges that there are, by their prefixes. -/
abbrev Views := Bytes → Option RangeView

/-- The cache before the first operation. -/
def Views.none : Views := fun _ => Option.none

/-- An operation of the cache. -/
def Views.step (views : Views) : CacheOp → Except Fault Views
  | .appendToRange pre a => do
    let v ← ((views pre).getD .empty).step (.append a)
    return Function.update views pre (some v)
  | .onTab pre op =>
    match views pre with
    | .none => .error .outOfRange
    | some v => do
      let v ← v.step op
      return Function.update views pre (some v)
  | .maybeNeedCompaction _ _ => .ok views
  | .reopen => .ok fun pre => (views pre).map RangeView.restarted

/-- The operations that are followed: prefixes have no zero bytes, and a restart meets new nodes. -/
def CacheOp.Followed (P : CacheParams) : CacheOp → Prop
  | .appendToRange pre _ => 0 ∉ pre
  | .reopen => P.seqNum = 0
  | _ => True

/-! ## The space condition -/

/-- Nothing has been taken from the allocator, and nothing waits for a compaction. -/
structure Idle (P : CacheParams) (c : FixedRangeChunkBasedNVMWriteCache) : Prop where
  pinfo : c.pinfo = .root
  allocator : c.pop.root.allocator =
    some (PersistentAllocator.new P.dataSpace P.pmemSize.toNat)
  queue : c.rangeQueue = []

section Space

variable {P : CacheParams} {m : PmemHashMap} {ps : List Bytes}
  {c c' : FixedRangeChunkBasedNVMWriteCache}

theorem idle_fresh (P : CacheParams) : Idle P (fresh P) := ⟨rfl, rfl, rfl⟩

/-- A new allocator has all its space left. -/
theorem Idle.exists_allocator (h : Idle P c) : ∃ allocator : PersistentAllocator,
    c.pop.root.allocator = some allocator ∧ ¬ allocator.NeedsCompaction := by
  refine ⟨_, h.allocator, PersistentAllocator.not_needsCompaction_of_full ?_⟩
  have hlt : P.pmemSize.toNat < 2 ^ 64 := P.pmemSize.toNat_lt
  generalize P.pmemSize.toNat = n at hlt
  simp only [PersistentAllocator.remain, PersistentAllocator.new, PersistentAllocator.capacity, u64]
  omega

/-- So the space is not low. -/
theorem Idle.not_spaceLow (h : Idle P c) : ¬ SpaceLow c := by
  rintro ⟨info, allocator, hinfo, hallocator, hlow⟩
  obtain ⟨allocator', hallocator', hleft⟩ := h.exists_allocator
  rw [root, h.pinfo] at hinfo
  obtain rfl := Except.ok.inj hinfo
  obtain rfl := Option.some.inj (hallocator'.symm.trans hallocator)
  exact hleft hlow

/-- `MaybeNeedCompaction` does nothing. -/
theorem Idle.maybeNeedCompaction (h : Idle P c) (order : List Bytes) (junk : ℕ × ℕ) :
    maybeNeedCompaction order junk c = .ok c := by
  obtain ⟨allocator, hallocator, hleft⟩ := h.exists_allocator
  rw [FixedRangeChunkBasedNVMWriteCache.maybeNeedCompaction, root, h.pinfo]
  simp only [ok_bind, hallocator, derefPtr]
  exact if_neg hleft

theorem Idle.storeRange (h : Idle P c) (pre : Bytes) (id : ℕ) (node : Node) (s : RangeState) :
    Idle P (c.storeRange pre id node s) :=
  ⟨h.pinfo, h.allocator, h.queue⟩

theorem Idle.onRange (h : Idle P c) {pre : Bytes} {tab : FixedRangeTab}
    {op : RangeState → Except Fault RangeState} (hc' : onRange c pre tab op = .ok c') :
    Idle P c' := by
  obtain ⟨node, s, -, -, rfl⟩ := onRange_eq_ok.mp hc'
  exact h.storeRange pre tab.nonVolatileTab node s

theorem Idle.newRange (h : Idle P c) {pre : Bytes} {tab : FixedRangeTab}
    (hc' : newRange P c pre = .ok (c', tab)) : Idle P c' := by
  have hqueue := newRange_rangeQueue hc'
  have hroot : c.root = .ok c.pop.root := by rw [root, h.pinfo]
  rw [FixedRangeChunkBasedNVMWriteCache.newRange, hroot, ok_bind] at hc'
  obtain ⟨rangeMap, -, hc'⟩ := bind_eq_ok.mp hc'
  obtain ⟨⟨s, id⟩, -, hc'⟩ := bind_eq_ok.mp hc'
  obtain ⟨node, -, hc'⟩ := bind_eq_ok.mp hc'
  obtain ⟨range, -, hc'⟩ := bind_eq_ok.mp hc'
  obtain ⟨rfl, -⟩ := Prod.mk.inj (Except.ok.inj hc')
  exact ⟨h.pinfo, h.allocator, hqueue.trans h.queue⟩

theorem Idle.rebuildChain (h : Idle P c) {fuel : ℕ} {head : Option ℕ}
    (hc' : rebuildChain P fuel c head = .ok c') : Idle P c' := by
  induction fuel generalizing c head with
  | zero =>
    cases head with
    | none => exact Except.ok.inj hc' ▸ h
    | some id => cases hc'
  | succ fuel ih =>
    cases head with
    | none => exact Except.ok.inj hc' ▸ h
    | some id =>
      rw [FixedRangeChunkBasedNVMWriteCache.rebuildChain] at hc'
      obtain ⟨node, -, hc'⟩ := bind_eq_ok.mp hc'
      obtain ⟨r, -, hc'⟩ := bind_eq_ok.mp hc'
      dsimp only at hc'
      refine ih ?_ hc'
      exact ⟨h.pinfo, h.allocator, h.queue⟩

/-- A rebuild reads the nodes, and leaves the allocator and the queue alone. -/
theorem Idle.rebuild (h : Idle P c) (hc' : rebuildFromPersistentNode P c = .ok c') :
    Idle P c' := by
  rw [rebuildFromPersistentNode] at hc'
  obtain ⟨info, -, hc'⟩ := bind_eq_ok.mp hc'
  obtain ⟨vhashMap, -, hc'⟩ := bind_eq_ok.mp hc'
  refine run_induction (I := Idle P) (fun d i d' hd hslot => ?_) h hc'
  obtain ⟨pnode, -, hslot⟩ := bind_eq_ok.mp hslot
  exact hd.rebuildChain hslot

/-- **No operation takes from the allocator**, so none of them queues a range. -/
theorem Idle.step (h : Idle P c) {op : CacheOp} (hc' : step P c op = .ok c') : Idle P c' := by
  cases op with
  | appendToRange pre a =>
    simp only [FixedRangeChunkBasedNVMWriteCache.step, appendToRange] at hc'
    split at hc'
    · obtain ⟨⟨c₁, tab⟩, hnew, hc'⟩ := bind_eq_ok.mp hc'
      exact (h.newRange hnew).onRange hc'
    · exact h.onRange hc'
  | maybeNeedCompaction order junk =>
    rw [FixedRangeChunkBasedNVMWriteCache.step, h.maybeNeedCompaction] at hc'
    exact Except.ok.inj hc' ▸ h
  | onTab pre op =>
    simp only [FixedRangeChunkBasedNVMWriteCache.step] at hc'
    split at hc'
    · cases hc'
    · exact h.onRange hc'
  | reopen =>
    have hopened : Idle P (bindRoot (opened P (some c.pop))) := ⟨rfl, h.allocator, rfl⟩
    exact hopened.rebuild hc'

/-- A run of operations, whatever the prefixes. -/
theorem idle_run {ops : List CacheOp} (hrun : run (step P) (fresh P) ops = .ok c) : Idle P c :=
  run_induction (fun _ _ _ h hc' => h.step hc') (idle_fresh P) hrun

end Space

/-- **No compaction is ever queued.** In every state that the operations of a cache lead to, the
space condition does not hold, `MaybeNeedCompaction` changes nothing, `NeedCompaction` says no, and
`GetCompactionData` reads from an empty queue. -/
theorem compaction_never_starts {P : CacheParams} {ops : List CacheOp}
    {c : FixedRangeChunkBasedNVMWriteCache} (hrun : run (step P) (fresh P) ops = .ok c) :
    ¬ SpaceLow c ∧ needCompaction c = false ∧ getCompactionData c = .error .outOfBounds ∧
      ∀ order junk, maybeNeedCompaction order junk c = .ok c := by
  have hidle := idle_run hrun
  refine ⟨hidle.not_spaceLow, ?_, ?_, hidle.maybeNeedCompaction⟩
  · rw [needCompaction, hidle.queue]
    rfl
  · rw [getCompactionData, hidle.queue]

/-- Appends under two prefixes, one of them with a zero byte, and a restart between them. -/
def smallRestart : List CacheOp :=
  [.appendToRange [7] FixedRangeTab.smallAppend, .reopen,
    .appendToRange [7, 0, 1] FixedRangeTab.smallAppend, .maybeNeedCompaction [[7]] (0, 0)]

theorem compaction_never_starts_small :
    ∃ c, run (step smallParams) (fresh smallParams) smallRestart = .ok c ∧
      ¬ SpaceLow c ∧ needCompaction c = false ∧ getCompactionData c = .error .outOfBounds ∧
      ∀ order junk, maybeNeedCompaction order junk c = .ok c := by
  obtain ⟨c, hc⟩ : ∃ c, run (step smallParams) (fresh smallParams) smallRestart = .ok c := ⟨_, rfl⟩
  exact ⟨c, hc, compaction_never_starts hc⟩

/-! ## What a cache shows -/

/-- The tab of a prefix, with the node it lies over. -/
def rangeState (c : FixedRangeChunkBasedNVMWriteCache) (tab : FixedRangeTab) (node : Node) :
    RangeState :=
  { pool := c.pop.pool, nv := node.toNvRangeTab, tab }

/-- The index and the buffer of a range are what the view says. -/
def RangeView.ShownBy (v : RangeView) (s : RangeState) : Prop :=
  RangeHolds v.base v.older (records v.since) s

theorem RangeView.ShownBy.index {v : RangeView} {s : RangeState} (h : v.ShownBy s) :
    s.tab.blklist = v.index :=
  h.blklist

theorem RangeView.ShownBy.used {v : RangeView} {s : RangeState} (h : v.ShownBy s) :
    s.nv.dataLen = v.used :=
  h.dataLen

/-- A range without chunks since its data ended. -/
theorem RangeView.shownBy_start {s : RangeState} (hlive : s.nv.bufExtent ∈ s.pool.live) :
    RangeView.ShownBy { base := s.nv.dataLen, older := s.tab.blklist, since := [] } s :=
  RangeHolds.start hlive

/-- **The refinement relation.** The tabs are over nodes of the same kind, one for each view, and
each shows its view. -/
structure Shows (P : CacheParams) (c : FixedRangeChunkBasedNVMWriteCache) (views : Views) :
    Prop where
  cacheOk : ∃ m ps, CacheOk P m ps c
  idle : Idle P c
  nodes : ∀ node ∈ c.pop.nodes, node.seqNum = P.seqNum ∧ node.bufSize = rangeBufSize.toNat
  unbound : ∀ pre, c.prefix2range.lookup pre = none → views pre = none
  bound : ∀ pre tab, c.prefix2range.lookup pre = some tab → ∃ v node, views pre = some v ∧
    c.pop.nodes[tab.nonVolatileTab]? = some node ∧ v.ShownBy (c.rangeState tab node)

section Steps

variable {P : CacheParams} {m : PmemHashMap} {ps : List Bytes}
  {c c' : FixedRangeChunkBasedNVMWriteCache} {views : Views} {v : RangeView} {pre : Bytes}
  {tab : FixedRangeTab} {node : Node}

theorem shows_fresh (P : CacheParams) : Shows P (fresh P) .none := by
  refine ⟨⟨_, _, cacheOk_fresh P⟩, idle_fresh P, by simp [fresh, initialise, bindRoot, opened,
    create], fun _ _ => rfl, fun pre tab htab => ?_⟩
  rw [fresh, initialise, bindRoot, opened, AList.lookup_empty] at htab
  cases htab

/-- The views are those of the prefixes with a tab. -/
theorem Shows.lookup_eq_none_iff (h : Shows P c views) :
    c.prefix2range.lookup pre = none ↔ views pre = none := by
  refine ⟨h.unbound pre, fun hnone => ?_⟩
  by_contra hsome
  obtain ⟨tab, htab⟩ := Option.ne_none_iff_exists'.mp hsome
  obtain ⟨v, node, hv, -⟩ := h.bound pre tab htab
  rw [hnone] at hv
  cases hv

/-- The tab that shows a view. -/
theorem Shows.exists_tab (h : Shows P c views) (hv : views pre = some v) :
    ∃ tab node, c.prefix2range.lookup pre = some tab ∧
      c.pop.nodes[tab.nonVolatileTab]? = some node ∧ v.ShownBy (c.rangeState tab node) := by
  have hsome : c.prefix2range.lookup pre ≠ none := by
    rw [Ne, h.lookup_eq_none_iff, hv]
    exact Option.some_ne_none v
  obtain ⟨tab, htab⟩ := Option.ne_none_iff_exists'.mp hsome
  obtain ⟨w, node, hw, hnode, hshown⟩ := h.bound pre tab htab
  obtain rfl : w = v := Option.some.inj (hw.symm.trans hv)
  exact ⟨tab, node, htab, hnode, hshown⟩

/-! ### One range -/

/-- **The operations on a tab, in lock step.** -/
theorem RangeView.ShownBy.step {A : Allocator} {icmp : Bytes → Bytes → Ordering}
    {opts : FixedRangeBasedOptions} {s : RangeState} (h : v.ShownBy s)
    (hsize : s.nv.bufSize = rangeBufSize.toNat) (op : TabOp) :
    Lockstep (fun s' v' => v'.ShownBy s' ∧ RangeStep s.pool s.tab.nonVolatileTab s.nv s')
      (FixedRangeTab.step A icmp opts s op) (v.step op) := by
  cases op with
  | append a =>
    have hfits : FixedRangeTab.Fits s a ↔ v.used + a.record.size 8 ≤ rangeBufSize.toNat := by
      rw [FixedRangeTab.Fits, h.used, hsize]
    rw [FixedRangeTab.step, RangeView.step]
    by_cases hs : FixedRangeTab.Fits s a
    · obtain ⟨s', hs', hstep⟩ := FixedRangeTab.append_of_fits A icmp hs
      have hmore : RangeHolds v.base v.older (records (v.since ++ [a])) s' := by
        rw [records, List.map_append]
        exact RangeHolds.append h hstep
      rw [hs', if_pos (hfits.mp hs)]
      exact .returns ⟨hmore, hstep.rangeStep⟩
    · rw [FixedRangeTab.append_of_not_fits A icmp hs, if_neg fun hle => hs (hfits.mpr hle)]
      exact .fails _
  | setCompactionWorking working =>
    have hset : FixedRangeTab.step A icmp opts s (.setCompactionWorking working)
        = .ok (FixedRangeTab.setCompactionWorking s working) := rfl
    have hstep := FixedRangeTab.step_rangeStep hset
    exact .returns ⟨⟨h.live, h.blklist, h.dataLen, h.bytes, h.le⟩, hstep⟩
  | cleanUp =>
    have hclean : FixedRangeTab.step A icmp opts s .cleanUp
        = .ok { s with nv := { s.nv with dataLen := 0 } } := FixedRangeTab.cleanUp_eq opts s
    have hstart := RangeView.shownBy_start (s := { s with nv := { s.nv with dataLen := 0 } }) h.live
    have hstep := FixedRangeTab.step_rangeStep hclean
    simp only [h.index] at hstart
    rw [hclean]
    exact .returns ⟨hstart, hstep⟩

/-- A range shows what it showed when its node has been kept. -/
theorem RangeView.ShownBy.of_nodeKept
    (hnode : c.pop.nodes[tab.nonVolatileTab]? = some node) (h : v.ShownBy (c.rangeState tab node))
    (hkept : NodeKept c.pop c'.pop tab.nonVolatileTab) (hok : CacheOk P m ps c') :
    c'.pop.nodes[tab.nonVolatileTab]? = some node ∧ v.ShownBy (c'.rangeState tab node) := by
  obtain ⟨node', hnode₁, hnode₂, hsame, -⟩ := hkept
  obtain rfl : node = node' := Option.some.inj (hnode.symm.trans hnode₁)
  have hmem : node ∈ c'.pop.nodes := List.mem_of_getElem? hnode₂
  refine ⟨hnode₂, hok.holds.live node hmem _ (bufExtent_mem_extents node), h.blklist, h.dataLen,
    h.bytes.congr fun i hi => ?_, h.le⟩
  have hne : records v.since ≠ [] := by
    intro hnil
    rw [hnil] at hi
    simp at hi
  have hle := h.le hne
  have hdata := h.dataLen
  simp only [rangeState] at hle hdata
  exact hsame _ (by simp only [NvRangeTab.bufExtent, rangeState]; omega)
    (by simp only [NvRangeTab.bufExtent, rangeState]; omega)

/-- **A step of one range** changes the view of its prefix only. -/
theorem Shows.storeRange (h : Shows P c views) (htab : c.prefix2range.lookup pre = some tab)
    (hnode : c.pop.nodes[tab.nonVolatileTab]? = some node) {s : RangeState}
    (hs : RangeStep c.pop.pool tab.nonVolatileTab node.toNvRangeTab s) {v' : RangeView}
    (hv' : v'.ShownBy s) :
    Shows P (c.storeRange pre tab.nonVolatileTab node s)
      (Function.update views pre (some v')) := by
  obtain ⟨m, ps, hok⟩ := h.cacheOk
  have hok' := hok.storeRange htab hnode hs
  have hothers : ∀ q, q ≠ pre → (c.storeRange pre tab.nonVolatileTab node s).prefix2range.lookup q
      = c.prefix2range.lookup q := fun q hq => AList.lookup_insert_ne hq
  refine ⟨⟨m, ps, hok'⟩, h.idle.storeRange _ _ _ _, fun n hn => ?_, fun q hq => ?_,
    fun q t ht => ?_⟩
  · rcases List.mem_or_eq_of_mem_set hn with hn | rfl
    · exact h.nodes n hn
    · obtain ⟨d, hnv⟩ := hs.nv_eq
      show s.nv.seqNum = P.seqNum ∧ s.nv.bufSize = rangeBufSize.toNat
      rw [hnv]
      exact h.nodes node (List.mem_of_getElem? hnode)
  · have hne : q ≠ pre := by
      rintro rfl
      rw [show (c.storeRange q tab.nonVolatileTab node s).prefix2range.lookup q = some s.tab from
        AList.lookup_insert _] at hq
      cases hq
    rw [Function.update_of_ne hne]
    exact h.unbound q ((hothers q hne).symm.trans hq)
  · rcases eq_or_ne q pre with rfl | hne
    · obtain rfl : s.tab = t := Option.some.inj ((AList.lookup_insert _).symm.trans ht)
      have hlt := (List.getElem?_eq_some_iff.mp hnode).1
      refine ⟨v', { node with toNvRangeTab := s.nv }, Function.update_self .., ?_, hv'⟩
      rw [hs.nonVolatileTab]
      exact List.getElem?_set_self hlt
    · have ht' := (hothers q hne).symm.trans ht
      obtain ⟨w, node', hw, hnode', hshown⟩ := h.bound q t ht'
      have hapart := (hok.apart hne ht' htab).1
      obtain ⟨hnode'', hshown'⟩ := hshown.of_nodeKept hnode'
        (hok.nodeKept_storeRange hnode hnode' hapart hs) hok'
      exact ⟨w, node', by rw [Function.update_of_ne hne, hw], hnode'', hshown'⟩

/-- **An operation on the tab of a prefix, in lock step.** -/
theorem Shows.onRange (h : Shows P c views) (htab : c.prefix2range.lookup pre = some tab)
    (hv : views pre = some v) (op : TabOp) :
    Lockstep (Shows P) (onRange c pre tab (FixedRangeTab.step P.A P.icmp P.opts · op))
      (v.step op >>= fun v' => .ok (Function.update views pre (some v'))) := by
  obtain ⟨w, node, hw, hnode, hshown⟩ := h.bound pre tab htab
  obtain rfl : w = v := Option.some.inj (hw.symm.trans hv)
  have hsize := (h.nodes node (List.mem_of_getElem? hnode)).2
  have hlock : Lockstep _ (FixedRangeTab.step P.A P.icmp P.opts (c.rangeState tab node) op)
    (w.step op) := hshown.step hsize op
  rw [FixedRangeChunkBasedNVMWriteCache.onRange, deref_eq_ok.mpr hnode, ok_bind]
  change Lockstep (Shows P)
    (FixedRangeTab.step P.A P.icmp P.opts (c.rangeState tab node) op >>= fun s =>
      .ok (c.storeRange pre tab.nonVolatileTab node s)) _
  revert hlock
  generalize FixedRangeTab.step P.A P.icmp P.opts (c.rangeState tab node) op = x
  generalize w.step op = y
  rintro (⟨hs, hstep⟩ | e)
  · exact .returns (h.storeRange htab hnode hstep hs)
  · exact .fails e

/-! ### New ranges -/

/-- `NewRange` adds one node, of the same kind as the others. -/
theorem newRange_nodes (hok : CacheOk P m ps c) (hpre : 0 ∉ pre)
    (hnone : c.prefix2range.lookup pre = none) (hnew : newRange P c pre = .ok (c', tab)) :
    ∃ node, c'.pop.nodes = c.pop.nodes ++ [node] ∧ node.seqNum = P.seqNum ∧
      node.bufSize = rangeBufSize.toNat := by
  obtain ⟨s, node, hput, hins, -⟩ := putAndGet_miss (A := P.A) hok.holds
    (hok.ident_ne hpre hnone) P.seqNum rangeBufSize
  have hroot : c.root = .ok c.pop.root := by rw [root, hok.pinfo]
  rw [newRange, hroot, ok_bind, hok.rangeMap, derefPtr, ok_bind, hput, ok_bind] at hnew
  obtain ⟨node', -, hnew⟩ := bind_eq_ok.mp hnew
  obtain ⟨range, -, hnew⟩ := bind_eq_ok.mp hnew
  obtain ⟨rfl, -⟩ := Prod.mk.inj (Except.ok.inj hnew)
  exact ⟨node, hins.nodes, hins.seqNum, hins.bufSize⟩

/-- A new range lists no blocks. -/
theorem newRange_blklist (h : newRange P c pre = .ok (c', tab))
    (hnode : c'.pop.nodes[tab.nonVolatileTab]? = some node) (hlen : node.dataLen = 0) :
    tab.blklist = [] := by
  rw [newRange] at h
  obtain ⟨info, -, h⟩ := bind_eq_ok.mp h
  obtain ⟨rangeMap, -, h⟩ := bind_eq_ok.mp h
  obtain ⟨⟨s, id⟩, -, h⟩ := bind_eq_ok.mp h
  obtain ⟨node', hnode', h⟩ := bind_eq_ok.mp h
  obtain ⟨range, hnew, h⟩ := bind_eq_ok.mp h
  obtain ⟨rfl, rfl⟩ := Prod.mk.inj (Except.ok.inj h)
  obtain ⟨-, hstep⟩ := FixedRangeTab.new_rangeStep hnew
  rw [hstep.nonVolatileTab] at hnode
  obtain rfl : node' = node :=
    Option.some.inj ((deref_eq_ok.mp hnode').symm.trans hnode)
  obtain ⟨-, -, rfl⟩ | ⟨-, blks, hblks, rfl⟩ := FixedRangeTab.new_eq_ok.mp hnew
  · rfl
  · rw [FixedRangeTab.rebuildBlkList_of_le (by rw [hlen]; exact Nat.zero_le 16)] at hblks
    exact (Except.ok.inj hblks).symm

/-- **`NewRange` adds an empty view.** -/
theorem Shows.newRange (h : Shows P c views) (hpre : 0 ∉ pre)
    (hnone : c.prefix2range.lookup pre = none) :
    ∃ c' tab, newRange P c pre = .ok (c', tab) ∧
      Shows P c' (Function.update views pre (some .empty)) ∧
      c'.prefix2range.lookup pre = some tab := by
  obtain ⟨m, ps, hok⟩ := h.cacheOk
  obtain ⟨c', tab, node, m', hnew, hcreated, hok'⟩ := hok.newRange hpre hnone
  have hself : c'.prefix2range.lookup pre = some tab := by
    rw [hcreated.prefix2range, AList.lookup_insert]
  have hothers : ∀ q, q ≠ pre → c'.prefix2range.lookup q = c.prefix2range.lookup q := by
    intro q hq
    rw [hcreated.prefix2range, AList.lookup_insert_ne hq]
  refine ⟨c', tab, hnew, ⟨⟨m', _, hok'⟩, h.idle.newRange hnew, fun n hn => ?_, fun q hq => ?_,
    fun q t ht => ?_⟩, hself⟩
  · obtain ⟨n', hnodes, hkind⟩ := newRange_nodes hok hpre hnone hnew
    rw [hnodes] at hn
    rcases List.mem_append.mp hn with hn | hn
    · exact h.nodes n hn
    · rw [List.mem_singleton.mp hn]
      exact hkind
  · have hne : q ≠ pre := by
      rintro rfl
      rw [hself] at hq
      cases hq
    rw [Function.update_of_ne hne]
    exact h.unbound q ((hothers q hne).symm.trans hq)
  · rcases eq_or_ne q pre with rfl | hne
    · obtain rfl : tab = t := Option.some.inj (hself.symm.trans ht)
      have hlive : node.bufExtent ∈ c'.pop.pool.live :=
        hok'.holds.live node (List.mem_of_getElem? hcreated.nodes) _ (bufExtent_mem_extents node)
      have hstart := RangeView.shownBy_start (s := c'.rangeState tab node) hlive
      have hlist : (c'.rangeState tab node).tab.blklist = [] :=
        newRange_blklist hnew hcreated.nodes hcreated.dataLen
      have hlen : (c'.rangeState tab node).nv.dataLen = 0 := hcreated.dataLen
      rw [hlist, hlen] at hstart
      exact ⟨.empty, node, Function.update_self .., hcreated.nodes, hstart⟩
    · obtain ⟨v, node', hv, hnode', hshown⟩ := h.bound q t ((hothers q hne).symm.trans ht)
      have hlt := (List.getElem?_eq_some_iff.mp hnode').1
      obtain ⟨hnode'', hshown'⟩ := hshown.of_nodeKept hnode' (hcreated.kept _ hlt) hok'
      exact ⟨v, node', by rw [Function.update_of_ne hne, hv], hnode'', hshown'⟩

/-- **`AppendToRange`, in lock step.** -/
theorem Shows.appendToRange (h : Shows P c views) (hpre : 0 ∉ pre) (a : AppendArgs) :
    Lockstep (Shows P) (appendToRange P c (pre, a)) (views.step (.appendToRange pre a)) := by
  rw [FixedRangeChunkBasedNVMWriteCache.appendToRange, Views.step]
  cases htab : c.prefix2range.lookup pre with
  | none =>
    obtain ⟨c₁, tab, hnew, h₁, htab₁⟩ := h.newRange hpre htab
    have hlock := h₁.onRange htab₁ (Function.update_self ..) (.append a)
    simp only [Function.update_idem] at hlock
    rw [h.unbound pre htab]
    simp only [hnew, ok_bind]
    exact hlock
  | some tab =>
    obtain ⟨v, node, hv, -⟩ := h.bound pre tab htab
    rw [hv]
    exact h.onRange htab hv (.append a)

/-! ### Restarts -/

/-- **A restart over new nodes** returns, and empties the index of every range. -/
theorem Shows.reopen (h : Shows P c views) (hseq : P.seqNum = 0) :
    ∃ c', FixedRangeChunkBasedNVMWriteCache.step P c .reopen = .ok c' ∧
      Shows P c' fun pre => (views pre).map RangeView.restarted := by
  obtain ⟨m, ps, hok⟩ := h.cacheOk
  have htable := hok.persistentTable
  have hnew : ∀ node ∈ c.pop.nodes, node.seqNum = 0 := fun node hnode =>
    (h.nodes node hnode).1.trans hseq
  obtain ⟨c', hc'⟩ := htable.rebuild_returns_iff.mpr fun id _ node hnode => by
    have hmem : node ∈ c.pop.nodes := List.mem_of_getElem? hnode
    exact .inl ⟨hnew node hmem, by rw [(h.nodes node hmem).2]; decide⟩
  obtain ⟨hok', -, hnodes⟩ := rebuild_spec hok hc'
  have hsame : ∀ pre, boundNode c' pre = boundNode c pre := by
    intro pre
    ext id
    rw [hok.boundNode_iff, hok'.boundNode_iff]
  have hreopen : FixedRangeChunkBasedNVMWriteCache.step P c .reopen = .ok c' := hc'
  refine ⟨c', hreopen, ⟨m, ps, hok'⟩, h.idle.step hreopen, ?_, fun pre hpre => ?_,
    fun pre tab htab => ?_⟩
  · rw [hnodes]
    exact h.nodes
  · have hnone : boundNode c pre = none := by rw [← hsame, boundNode, hpre, Option.map_none]
    rw [h.unbound pre (Option.map_eq_none_iff.mp hnone), Option.map_none]
  · have hid : boundNode c pre = some tab.nonVolatileTab := by
      rw [← hsame, boundNode, htab, Option.map_some]
    obtain ⟨tab₀, htab₀, heq⟩ := Option.map_eq_some_iff.mp hid
    obtain ⟨v, node, hv, hnode, hshown⟩ := h.bound pre tab₀ htab₀
    rw [heq] at hnode
    have hmem : node ∈ c'.pop.nodes := by
      rw [hnodes]
      exact List.mem_of_getElem? hnode
    have hlive := hok'.holds.live node hmem _ (bufExtent_mem_extents node)
    have hstart := RangeView.shownBy_start (s := c'.rangeState tab node) hlive
    -- the tab is the one that the constructor builds over a new node
    have hlist : (c'.rangeState tab node).tab.blklist = [] := by
      have hentries := (htable.walked_of_rebuild hc').entries
      obtain ⟨id, -, n, hn, -, r, hr, rfl⟩ := hentries.only pre tab htab
      have hzero : n.seqNum = 0 := hnew n (List.mem_of_getElem? hn)
      obtain ⟨-, -, rfl⟩ | ⟨hne, -⟩ := FixedRangeTab.new_eq_ok.mp hr
      · rfl
      · exact absurd hzero hne
    have hlen : (c'.rangeState tab node).nv.dataLen = v.used := hshown.used
    rw [hlist, hlen] at hstart
    exact ⟨v.restarted, node, by rw [hv]; rfl, by rw [hnodes]; exact hnode, hstart⟩

/-! ## Lock step -/

/-- **One operation, in lock step.** -/
theorem Shows.step (h : Shows P c views) {op : CacheOp} (hop : op.Followed P) :
    Lockstep (Shows P) (FixedRangeChunkBasedNVMWriteCache.step P c op) (views.step op) := by
  cases op with
  | appendToRange pre a => exact h.appendToRange hop a
  | maybeNeedCompaction order junk =>
    rw [FixedRangeChunkBasedNVMWriteCache.step, h.idle.maybeNeedCompaction]
    exact .returns h
  | onTab pre op =>
    rw [FixedRangeChunkBasedNVMWriteCache.step, Views.step]
    cases htab : c.prefix2range.lookup pre with
    | none =>
      rw [h.unbound pre htab]
      exact .fails _
    | some tab =>
      obtain ⟨v, node, hv, -⟩ := h.bound pre tab htab
      rw [hv]
      exact h.onRange htab hv op
  | reopen =>
    obtain ⟨c', hc', hshows⟩ := h.reopen hop
    rw [hc', Views.step]
    exact .returns hshows

/-- A run, in lock step. -/
theorem Shows.run (h : Shows P c views) {ops : List CacheOp} (hops : ∀ op ∈ ops, op.Followed P) :
    Lockstep (Shows P) (FallibleRun.run (FixedRangeChunkBasedNVMWriteCache.step P) c ops)
      (FallibleRun.run Views.step views ops) :=
  run_lockstep (fun op hop _ _ h => h.step (hops op hop)) h

/-- What a cache shows after a run that returns. -/
theorem exists_shows {ops : List CacheOp} (hops : ∀ op ∈ ops, op.Followed P)
    (hrun : FallibleRun.run (FixedRangeChunkBasedNVMWriteCache.step P) (fresh P) ops = .ok c) :
    ∃ views, FallibleRun.run Views.step .none ops = .ok views ∧ Shows P c views := by
  have hlock := (shows_fresh P).run hops
  rw [hrun] at hlock
  exact hlock.exists_ok

end Steps

/-- **The cache and the views run in lock step**, errors included. Whatever operations a new cache
goes through, it returns exactly when the views do, and then each tab lists the blocks that its
view lists, with the bytes of the chunks appended since the last `CleanUp` or restart; otherwise
both fail with the same error. -/
theorem cache_lockstep {P : CacheParams} {ops : List CacheOp} (hops : ∀ op ∈ ops, op.Followed P) :
    Lockstep (Shows P) (run (step P) (fresh P) ops) (run Views.step .none ops) :=
  (shows_fresh P).run hops

/-- A chunk before a restart, one behind it, and a `CleanUp`. -/
def smallLife : List CacheOp :=
  [.appendToRange [7] FixedRangeTab.smallAppend, .reopen,
    .appendToRange [7] FixedRangeTab.smallAppend, .onTab [7] .cleanUp]

theorem smallLife_followed : ∀ op ∈ smallLife, op.Followed smallParams := by
  simp [smallLife, CacheOp.Followed, smallParams]

theorem cache_lockstep_small :
    Lockstep (Shows smallParams) (run (step smallParams) (fresh smallParams) smallLife)
        (run Views.step .none smallLife) ∧
      ∃ views v, run Views.step .none smallLife = .ok views ∧ views [7] = some v ∧
        v.used = 0 ∧ v.index.length = 1 :=
  ⟨cache_lockstep smallLife_followed, _, _, rfl, rfl, rfl, rfl⟩

end FixedRangeChunkBasedNVMWriteCache

end RangeCache
