import RangeCache.Isolation

/-!
# The compaction queue

`MaybeNeedCompaction` searches the tabs for the one with the most data and pushes an item that
describes it; `NeedCompaction` and `GetCompactionData` are the consumer's side of the queue. The
search compares every size with `max_range_size`, which is never raised, so the last tab with data
in the order of the iteration is chosen; without any, an item over a null range is pushed, whose
counters are uninitialised. `GetCompactionData` returns the front of the queue and leaves it there:
the call of `pop` is commented out.

## Main definitions

* `UsageOf`, `SpaceLow`, `Chosen` — what the search reads, when it runs, and what it finds
* `PicksFullest` — a fullest range is pushed, described by its own usage
* `QueueHistory`, `queueStep` — a producer, a consumer, and everyone else, in any order
* `DeliversOnce` — the items are delivered in order, each once

## Main results

* `run_considerRange` — the search returns the last range with data
* `picksFullest_iff` — it is right exactly if that range is a fullest one
* `NeverPopped.step` — nothing leaves the queue
* `deliversOnce_iff` — which runs deliver every item once
-/

namespace RangeCache

open ByteMemory FallibleRun

namespace FixedRangeChunkBasedNVMWriteCache

/-! ## The search -/

/-- `u` is the usage of the range of `pre`. -/
def UsageOf (c : FixedRangeChunkBasedNVMWriteCache) (pre : Bytes) (u : Usage) : Prop :=
  ∃ tab node, c.prefix2range.lookup pre = some tab ∧
    c.pop.nodes[tab.nonVolatileTab]? = some node ∧
    u = FixedRangeTab.rangeUsage c.pop.pool.mem node.toNvRangeTab

theorem UsageOf.unique {c : FixedRangeChunkBasedNVMWriteCache} {pre : Bytes} {u v : Usage}
    (hu : UsageOf c pre u) (hv : UsageOf c pre v) : u = v := by
  obtain ⟨tab, node, htab, hnode, rfl⟩ := hu
  obtain ⟨tab', node', htab', hnode', rfl⟩ := hv
  obtain rfl : tab = tab' := Option.some.inj (htab.symm.trans htab')
  obtain rfl : node = node' := Option.some.inj (hnode.symm.trans hnode')
  rfl

/-- A range with a usage is a member of `prefix2range`. -/
theorem UsageOf.mem_keys {c : FixedRangeChunkBasedNVMWriteCache} {pre : Bytes} {u : Usage}
    (h : UsageOf c pre u) : pre ∈ c.prefix2range.keys := by
  obtain ⟨tab, node, htab, -, -⟩ := h
  exact AList.mem_keys.mp (AList.lookup_isSome.mp (by rw [htab]; rfl))

/-- One turn of the search reads one usage. -/
theorem considerRange_eq_ok {c : FixedRangeChunkBasedNVMWriteCache}
    {pending r : Option Bytes × Usage} {pre : Bytes} : considerRange c pending pre = .ok r ↔
      ∃ u, UsageOf c pre u ∧ r = if 0 < u.rangeSize then (some pre, u) else pending := by
  rw [considerRange]
  cases htab : c.prefix2range.lookup pre with
  | none =>
    constructor
    · intro h
      cases h
    · rintro ⟨u, ⟨tab, node, htab', -, -⟩, -⟩
      rw [htab] at htab'
      cases htab'
  | some tab =>
    simp only [bind_eq_ok, PmemHashMap.deref_eq_ok]
    constructor
    · rintro ⟨node, hnode, h⟩
      exact ⟨_, ⟨tab, node, htab, hnode, rfl⟩, (Except.ok.inj h).symm⟩
    · rintro ⟨u, ⟨tab', node, htab', hnode, rfl⟩, rfl⟩
      obtain rfl : tab = tab' := Option.some.inj (htab.symm.trans htab')
      exact ⟨node, hnode, rfl⟩

/-- The range of `pre` is the last one with data in `order`, and `u` is its usage. -/
structure Chosen (c : FixedRangeChunkBasedNVMWriteCache) (order : List Bytes) (pre : Bytes)
    (u : Usage) : Prop where
  usage : UsageOf c pre u
  pos : 0 < u.rangeSize
  last : ∃ front back, order = front ++ pre :: back ∧
    ∀ p ∈ back, ∀ v, UsageOf c p v → v.rangeSize = 0

/-- Only one range is chosen. -/
theorem Chosen.unique {c : FixedRangeChunkBasedNVMWriteCache} {order : List Bytes} {pre q : Bytes}
    {u v : Usage} (h : Chosen c order pre u) (h' : Chosen c order q v) : pre = q ∧ u = v := by
  obtain ⟨front, back, rfl, hback⟩ := h.last
  obtain ⟨front', back', heq, hback'⟩ := h'.last
  have hpre : pre = q := by
    obtain ⟨mid, hfront, hrest⟩ | ⟨mid, hfront, hrest⟩ := List.append_eq_append_iff.mp heq
    · cases mid with
      | nil => exact (List.cons.inj hrest).1
      | cons m mid =>
        rw [List.cons_append, List.cons.injEq] at hrest
        have hq : q ∈ back := by rw [hrest.2]; simp
        exact absurd (hback q hq v h'.usage) (Nat.ne_of_gt h'.pos)
    · cases mid with
      | nil => exact (List.cons.inj hrest).1.symm
      | cons m mid =>
        rw [List.cons_append, List.cons.injEq] at hrest
        have hp : pre ∈ back' := by rw [hrest.2]; simp
        exact absurd (hback' pre hp u h.usage) (Nat.ne_of_gt h.pos)
  subst hpre
  exact ⟨rfl, h.usage.unique h'.usage⟩

/-- **What the search returns**: the last range with data, or what it started with. -/
theorem run_considerRange {c : FixedRangeChunkBasedNVMWriteCache} {order : List Bytes}
    {pending r : Option Bytes × Usage} (h : run (considerRange c) pending order = .ok r) :
    (∃ pre u, Chosen c order pre u ∧ r = (some pre, u)) ∨
      (∀ p ∈ order, ∀ u, UsageOf c p u → u.rangeSize = 0) ∧ r = pending := by
  induction order generalizing pending with
  | nil => cases h; exact .inr ⟨by simp, rfl⟩
  | cons p ps ih =>
    obtain ⟨next, hp, hps⟩ := run_cons_ok.mp h
    obtain ⟨u, hu, rfl⟩ := considerRange_eq_ok.mp hp
    obtain ⟨pre, v, hv, rfl⟩ | ⟨hzero, rfl⟩ := ih hps
    · obtain ⟨front, back, rfl, hback⟩ := hv.last
      exact .inl ⟨pre, v, ⟨hv.usage, hv.pos, p :: front, back, rfl, hback⟩, rfl⟩
    · by_cases hpos : 0 < u.rangeSize
      · exact .inl ⟨p, u, ⟨hu, hpos, [], ps, rfl, hzero⟩, if_pos hpos⟩
      · refine .inr ⟨fun q hq v hv => ?_, if_neg hpos⟩
        rcases List.mem_cons.mp hq with rfl | hq
        · rw [hv.unique hu]
          exact Nat.eq_zero_of_not_pos hpos
        · exact hzero q hq v hv

/-- The search returns when every tab lies over a node. -/
theorem run_considerRange_returns {c : FixedRangeChunkBasedNVMWriteCache} {order : List Bytes}
    (hnodes : ∀ pre ∈ order, ∃ u, UsageOf c pre u) (pending : Option Bytes × Usage) :
    ∃ r, run (considerRange c) pending order = .ok r := by
  induction order generalizing pending with
  | nil => exact ⟨pending, rfl⟩
  | cons p ps ih =>
    obtain ⟨hp, hps⟩ := List.forall_mem_cons.mp hnodes
    obtain ⟨u, hu⟩ := hp
    obtain ⟨r, hr⟩ := ih hps (if 0 < u.rangeSize then (some p, u) else pending)
    exact ⟨r, run_cons_ok.mpr ⟨_, considerRange_eq_ok.mpr ⟨u, hu, rfl⟩, hr⟩⟩

/-! ## Pushing an item -/

/-- The space condition of `MaybeNeedCompaction`. -/
def SpaceLow (c : FixedRangeChunkBasedNVMWriteCache) : Prop :=
  ∃ info allocator, c.root = .ok info ∧ info.allocator = some allocator ∧
    allocator.NeedsCompaction

/-- The item over a range, or over none, with the usage the search returned. -/
def itemOf (r : Option Bytes × Usage) : CompactionItem :=
  { pendingCompatedRange := r.1, startKey := r.2.start, endKey := r.2.stop,
    rangeSize := r.2.rangeSize, chunkNum := r.2.chunkNum }

/-- The cache with one more item in the queue. -/
def push (c : FixedRangeChunkBasedNVMWriteCache) (item : CompactionItem) :
    FixedRangeChunkBasedNVMWriteCache :=
  { c with rangeQueue := c.rangeQueue ++ [item] }

/-- The usage the search starts with. -/
def junkUsage (junk : ℕ × ℕ) : Usage :=
  { chunkNum := junk.1, rangeSize := junk.2, start := [], stop := [] }

/-- When the space is low, an item is pushed for whatever the search returns. -/
theorem maybeNeedCompaction_of_spaceLow {c : FixedRangeChunkBasedNVMWriteCache} (h : SpaceLow c)
    (order : List Bytes) (junk : ℕ × ℕ) :
    maybeNeedCompaction order junk c =
      (run (considerRange c) (none, junkUsage junk) order).map fun r => c.push (itemOf r) := by
  obtain ⟨info, allocator, hinfo, hallocator, hlow⟩ := h
  simp only [maybeNeedCompaction, hinfo, hallocator, derefPtr, ok_bind, if_pos hlow]
  rfl

/-- Otherwise nothing happens. -/
theorem maybeNeedCompaction_of_not_spaceLow {c c' : FixedRangeChunkBasedNVMWriteCache}
    (h : ¬ SpaceLow c) {order : List Bytes} {junk : ℕ × ℕ}
    (hok : maybeNeedCompaction order junk c = .ok c') : c' = c := by
  rw [maybeNeedCompaction] at hok
  obtain ⟨info, hinfo, hok⟩ := bind_eq_ok.mp hok
  obtain ⟨allocator, hallocator, hok⟩ := bind_eq_ok.mp hok
  split at hok
  · next hlow =>
    refine absurd ⟨info, allocator, hinfo, ?_, hlow⟩ h
    cases hptr : info.allocator with
    | none => rw [hptr] at hallocator; cases hallocator
    | some a => rw [hptr] at hallocator; rw [Except.ok.inj hallocator]
  · exact (Except.ok.inj hok).symm

/-- **What `MaybeNeedCompaction` pushes** when the space is low: an item over the last range with
data, or an item over a null range. -/
theorem maybeNeedCompaction_push {c c' : FixedRangeChunkBasedNVMWriteCache} (h : SpaceLow c)
    {order : List Bytes} {junk : ℕ × ℕ} (hok : maybeNeedCompaction order junk c = .ok c') :
    (∃ pre u, Chosen c order pre u ∧ c' = c.push (itemOf (some pre, u))) ∨
      (∀ p ∈ order, ∀ u, UsageOf c p u → u.rangeSize = 0) ∧
        c' = c.push (itemOf (none, junkUsage junk)) := by
  rw [maybeNeedCompaction_of_spaceLow h] at hok
  cases hrun : run (considerRange c) (none, junkUsage junk) order with
  | error e => rw [hrun] at hok; cases hok
  | ok r =>
    rw [hrun] at hok
    obtain rfl := Except.ok.inj hok
    obtain ⟨pre, u, hu, rfl⟩ | ⟨hzero, rfl⟩ := run_considerRange hrun
    · exact .inl ⟨pre, u, hu, rfl⟩
    · exact .inr ⟨hzero, rfl⟩

/-- The item names the range of `pre` and carries its usage. -/
structure Describes (item : CompactionItem) (pre : Bytes) (u : Usage) : Prop where
  range : item.pendingCompatedRange = some pre
  rangeSize : item.rangeSize = u.rangeSize
  chunkNum : item.chunkNum = u.chunkNum
  startKey : item.startKey = u.start
  endKey : item.endKey = u.stop

/-- No range of the cache has more data. -/
def Fullest (c : FixedRangeChunkBasedNVMWriteCache) (u : Usage) : Prop :=
  ∀ pre v, UsageOf c pre v → v.rangeSize ≤ u.rangeSize

/-- A call has led from `c` to `c'`: if some range holds data, one item has been pushed, which
describes a fullest one; if none does, nothing has; and no item over a null range has. -/
structure PicksFullest (c c' : FixedRangeChunkBasedNVMWriteCache) : Prop where
  pushes : (∃ pre u, UsageOf c pre u ∧ u.rangeSize ≠ 0) →
    ∃ item pre u, c'.rangeQueue = c.rangeQueue ++ [item] ∧ UsageOf c pre u ∧ Fullest c u ∧
      Describes item pre u
  idle : (∀ pre u, UsageOf c pre u → u.rangeSize = 0) → c'.rangeQueue = c.rangeQueue
  notNull : ∀ item ∈ c'.rangeQueue.drop c.rangeQueue.length, item.pendingCompatedRange ≠ none

theorem describes_itemOf (pre : Bytes) (u : Usage) : Describes (itemOf (some pre, u)) pre u :=
  ⟨rfl, rfl, rfl, rfl, rfl⟩

@[simp] theorem rangeQueue_push (c : FixedRangeChunkBasedNVMWriteCache) (item : CompactionItem) :
    (c.push item).rangeQueue = c.rangeQueue ++ [item] := rfl

/-- An item over a null range is never right. -/
theorem not_picksFullest_null (c : FixedRangeChunkBasedNVMWriteCache) (u : Usage) :
    ¬ PicksFullest c (c.push (itemOf (none, u))) := by
  intro h
  exact h.notNull (itemOf (none, u)) (by simp) rfl

/-- An item over the chosen range is right exactly if that range is a fullest one. -/
theorem picksFullest_push_iff {c : FixedRangeChunkBasedNVMWriteCache} {order : List Bytes}
    {pre : Bytes} {u : Usage} (h : Chosen c order pre u) :
    PicksFullest c (c.push (itemOf (some pre, u))) ↔ Fullest c u := by
  constructor
  · intro hpick
    obtain ⟨item, q, v, hqueue, hv, hfull, hitem⟩ :=
      hpick.pushes ⟨pre, u, h.usage, Nat.ne_of_gt h.pos⟩
    rw [rangeQueue_push, List.append_cancel_left_eq, List.cons.injEq] at hqueue
    have hrange := hitem.range
    rw [← hqueue.1] at hrange
    obtain rfl : pre = q := Option.some.inj hrange
    rwa [h.usage.unique hv]
  · intro hfull
    refine ⟨fun _ => ⟨_, pre, u, rfl, h.usage, hfull, describes_itemOf pre u⟩, fun hzero => ?_, ?_⟩
    · have := hzero pre u h.usage
      have := h.pos
      omega
    · intro item hitem
      rw [rangeQueue_push, List.drop_left, List.mem_singleton] at hitem
      rw [hitem]
      simp [itemOf]

/-- **When `MaybeNeedCompaction` picks a fullest range.** It does exactly if some range holds data
and the last one that does, in the order of the iteration, is a fullest one. -/
theorem picksFullest_iff {c : FixedRangeChunkBasedNVMWriteCache} {order : List Bytes}
    (hlow : SpaceLow c) (horder : order.Perm c.prefix2range.keys)
    (hnodes : ∀ pre ∈ c.prefix2range.keys, ∃ u, UsageOf c pre u) (junk : ℕ × ℕ) :
    ∃ c', maybeNeedCompaction order junk c = .ok c' ∧
      (PicksFullest c c' ↔ ∃ pre u, Chosen c order pre u ∧ Fullest c u) := by
  obtain ⟨r, hr⟩ := run_considerRange_returns (fun pre hpre => hnodes pre (horder.mem_iff.mp hpre))
    (none, junkUsage junk)
  have hok : maybeNeedCompaction order junk c = .ok (c.push (itemOf r)) := by
    rw [maybeNeedCompaction_of_spaceLow hlow, hr]
    rfl
  refine ⟨_, hok, ?_⟩
  obtain ⟨pre, u, hu, heq⟩ | ⟨hzero, heq⟩ := maybeNeedCompaction_push hlow hok
  · rw [heq, picksFullest_push_iff hu]
    constructor
    · intro hfull
      exact ⟨pre, u, hu, hfull⟩
    · rintro ⟨q, v, hv, hfull⟩
      rwa [← (hv.unique hu).2]
  · rw [heq]
    constructor
    · intro h
      exact absurd h (not_picksFullest_null c _)
    · rintro ⟨q, v, hv, -⟩
      obtain ⟨front, back, rfl, -⟩ := hv.last
      have := hzero q (by simp) v hv.usage
      have := hv.pos
      omega

/-! ### Two ranges

A cache without space left, whose ranges `[1]` and `[2]` hold `d₁` and `d₂` bytes. -/

def twoNode (d : ℕ) : Node := { FixedRangeTab.smallNv d with next := none }

def twoRanges (d₁ d₂ : ℕ) : FixedRangeChunkBasedNVMWriteCache where
  pop :=
    { root := { inited := true, rangeMap := none,
                allocator := some { raw := 0, totalSize := 4, cur := 4 } }
      pool := FixedRangeTab.smallPool
      nodes := [twoNode d₁, twoNode d₂] }
  pinfo := .root
  prefix2range := (AList.singleton [2] (FixedRangeTab.newTab 1 (FixedRangeTab.smallNv d₂))).insert
    [1] (FixedRangeTab.newTab 0 (FixedRangeTab.smallNv d₁))
  rangeQueue := []

theorem spaceLow_twoRanges (d₁ d₂ : ℕ) : SpaceLow (twoRanges d₁ d₂) :=
  ⟨_, _, rfl, rfl, by decide⟩

theorem keys_twoRanges (d₁ d₂ : ℕ) : (twoRanges d₁ d₂).prefix2range.keys = [[1], [2]] := rfl

/-- The usage of a range of `d` bytes. -/
def twoUsage (d : ℕ) : Usage := { chunkNum := 0, rangeSize := d, start := [], stop := [] }

theorem usageOf_fst (d₁ d₂ : ℕ) : UsageOf (twoRanges d₁ d₂) [1] (twoUsage d₁) :=
  ⟨_, twoNode d₁, rfl, rfl, rfl⟩

theorem usageOf_snd (d₁ d₂ : ℕ) : UsageOf (twoRanges d₁ d₂) [2] (twoUsage d₂) :=
  ⟨_, twoNode d₂, rfl, rfl, rfl⟩

theorem exists_usageOf_twoRanges (d₁ d₂ : ℕ) :
    ∀ pre ∈ (twoRanges d₁ d₂).prefix2range.keys, ∃ u, UsageOf (twoRanges d₁ d₂) pre u := by
  rw [keys_twoRanges]
  simp only [List.forall_mem_cons]
  exact ⟨⟨_, usageOf_fst d₁ d₂⟩, ⟨_, usageOf_snd d₁ d₂⟩, by simp⟩

theorem picksFullest_iff_twoRanges :
    ∃ c', maybeNeedCompaction [[1], [2]] (0, 0) (twoRanges 20 10) = .ok c' ∧
      (PicksFullest (twoRanges 20 10) c' ↔
        ∃ pre u, Chosen (twoRanges 20 10) [[1], [2]] pre u ∧ Fullest (twoRanges 20 10) u) :=
  picksFullest_iff (spaceLow_twoRanges 20 10) (List.Perm.refl _) (exists_usageOf_twoRanges 20 10)
    (0, 0)

/-- With 20 bytes in the first range and 10 in the second, the second is picked. -/
theorem picks_smaller_twoRanges :
    SpaceLow (twoRanges 20 10) ∧ (twoRanges 20 10).prefix2range.keys = [[1], [2]] ∧
      ∃ c', maybeNeedCompaction [[1], [2]] (0, 0) (twoRanges 20 10) = .ok c' ∧
        ¬ PicksFullest (twoRanges 20 10) c' := by
  have hchosen : Chosen (twoRanges 20 10) [[1], [2]] [2] (twoUsage 10) :=
    ⟨usageOf_snd 20 10, by decide, [[1]], [], rfl, by simp⟩
  refine ⟨spaceLow_twoRanges 20 10, keys_twoRanges 20 10, _, rfl, fun h => ?_⟩
  have hfull : Fullest (twoRanges 20 10) (twoUsage 10) := (picksFullest_push_iff hchosen).mp h
  exact absurd (hfull [1] _ (usageOf_fst 20 10)) (by decide)

/-! ## The consumer -/

/-- `NeedCompaction`. -/
def needCompaction (c : FixedRangeChunkBasedNVMWriteCache) : Bool := !c.rangeQueue.isEmpty

/-- `GetCompactionData`: the front of the queue, which stays in it. -/
def getCompactionData (c : FixedRangeChunkBasedNVMWriteCache) : Except Fault CompactionItem :=
  match c.rangeQueue with
  | [] => .error .outOfBounds
  | item :: _ => .ok item

/-- A cache with the history of its queue: the items pushed, and the items `GetCompactionData` has
returned, each with its position among the pushed ones. -/
structure QueueHistory where
  cache : FixedRangeChunkBasedNVMWriteCache
  pushed : List CompactionItem
  delivered : List (CompactionItem × ℕ)

/-- The history of a cache begins. -/
def QueueHistory.start (c : FixedRangeChunkBasedNVMWriteCache) : QueueHistory :=
  { cache := c, pushed := [], delivered := [] }

/-- The position of the front of the queue, which holds the items pushed last. -/
def QueueHistory.front (h : QueueHistory) : ℕ := h.pushed.length - h.cache.rangeQueue.length

/-- A producer, a consumer, and writers and compactions on the tabs. -/
inductive QueueOp where
  | maybeNeedCompaction (order : List Bytes) (junk : ℕ × ℕ)
  | getCompactionData
  | appendToRange (pre : Bytes) (a : FixedRangeTab.AppendArgs)
  | onTab (pre : Bytes) (op : FixedRangeTab.TabOp)

/-- One operation. The consumer asks `NeedCompaction` first. -/
def queueStep (P : CacheParams) (h : QueueHistory) : QueueOp → Except Fault QueueHistory
  | .maybeNeedCompaction order junk => do
    let c ← maybeNeedCompaction order junk h.cache
    return { h with
      cache := c, pushed := h.pushed ++ c.rangeQueue.drop h.cache.rangeQueue.length }
  | .getCompactionData =>
    if needCompaction h.cache then do
      let item ← getCompactionData h.cache
      return { h with delivered := h.delivered ++ [(item, h.front)] }
    else
      return h
  | .appendToRange pre a => do
    let c ← step P h.cache (.appendToRange pre a)
    return { h with cache := c }
  | .onTab pre op => do
    let c ← step P h.cache (.onTab pre op)
    return { h with cache := c }

/-- The item at a position is pushed and not delivered. -/
def QueueHistory.Undelivered (h : QueueHistory) (i : ℕ) (item : CompactionItem) : Prop :=
  h.pushed[i]? = some item ∧ (item, i) ∉ h.delivered

/-- Some undelivered item is over the range of `pre`. -/
def QueueHistory.Names (h : QueueHistory) (pre : Bytes) : Prop :=
  ∃ i item, h.Undelivered i item ∧ item.pendingCompatedRange = some pre

/-- **What the queue is for.** The items delivered are the first ones pushed, in order, each once;
`NeedCompaction` tells whether one is undelivered; and no two undelivered ones are over the same
range. -/
structure DeliversOnce (h : QueueHistory) : Prop where
  inOrder : h.delivered <+: h.pushed.zipIdx
  need : needCompaction h.cache = true ↔ ∃ i item, h.Undelivered i item
  distinct : ∀ i j x y pre, h.Undelivered i x → h.Undelivered j y →
    x.pendingCompatedRange = some pre → y.pendingCompatedRange = some pre → i = j

/-- The condition on a step: a delivery is the first one and leaves an item behind it, and the
range chosen for an item is not over one that waits. -/
def KeepsDelivery (h : QueueHistory) : QueueOp → Prop
  | .maybeNeedCompaction order _ =>
    SpaceLow h.cache → ∀ pre u, Chosen h.cache order pre u → ¬ h.Names pre
  | .getCompactionData =>
    needCompaction h.cache = true → h.delivered = [] ∧ 2 ≤ h.cache.rangeQueue.length
  | _ => True

/-- Nothing leaves the queue, so it is all that was pushed. -/
structure NeverPopped (h : QueueHistory) : Prop where
  queue : h.cache.rangeQueue = h.pushed
  delivered : ∀ p ∈ h.delivered, h.pushed[p.2]? = some p.1

/-! ### Steps that leave the queue alone -/

theorem onRange_rangeQueue {c c' : FixedRangeChunkBasedNVMWriteCache} {pre : Bytes}
    {tab : FixedRangeTab} {op : RangeState → Except Fault RangeState}
    (h : onRange c pre tab op = .ok c') : c'.rangeQueue = c.rangeQueue := by
  obtain ⟨node, s, -, -, rfl⟩ := onRange_eq_ok.mp h
  rfl

theorem newRange_rangeQueue {P : CacheParams} {c c' : FixedRangeChunkBasedNVMWriteCache}
    {pre : Bytes} {tab : FixedRangeTab} (h : newRange P c pre = .ok (c', tab)) :
    c'.rangeQueue = c.rangeQueue := by
  rw [newRange] at h
  obtain ⟨info, -, h⟩ := bind_eq_ok.mp h
  obtain ⟨rangeMap, -, h⟩ := bind_eq_ok.mp h
  obtain ⟨⟨s, id⟩, -, h⟩ := bind_eq_ok.mp h
  obtain ⟨node, -, h⟩ := bind_eq_ok.mp h
  obtain ⟨range, -, h⟩ := bind_eq_ok.mp h
  rw [← (Prod.mk.inj (Except.ok.inj h)).1]

theorem appendToRange_rangeQueue {P : CacheParams} {c c' : FixedRangeChunkBasedNVMWriteCache}
    {call : Bytes × FixedRangeTab.AppendArgs} (h : appendToRange P c call = .ok c') :
    c'.rangeQueue = c.rangeQueue := by
  rw [appendToRange] at h
  split at h
  · obtain ⟨⟨c₁, tab⟩, hnew, h⟩ := bind_eq_ok.mp h
    exact (onRange_rangeQueue h).trans (newRange_rangeQueue hnew)
  · exact onRange_rangeQueue h

theorem getCompactionData_eq_ok {c : FixedRangeChunkBasedNVMWriteCache} {item : CompactionItem} :
    getCompactionData c = .ok item ↔ ∃ rest, c.rangeQueue = item :: rest := by
  rw [getCompactionData]
  cases c.rangeQueue with
  | nil => simp
  | cons x xs => simp

/-- A push, seen in the history. -/
theorem pushed_push (h : QueueHistory) (item : CompactionItem) :
    h.pushed ++ (h.cache.push item).rangeQueue.drop h.cache.rangeQueue.length
      = h.pushed ++ [item] := by
  rw [rangeQueue_push, List.drop_left]

/-- At low space one item is pushed, and the condition on the step is that it is over no range that
waits. -/
theorem exists_push_of_spaceLow {h : QueueHistory} {order : List Bytes} {junk : ℕ × ℕ}
    {c : FixedRangeChunkBasedNVMWriteCache} (hlow : SpaceLow h.cache)
    (hc : maybeNeedCompaction order junk h.cache = .ok c) :
    ∃ item, c = h.cache.push item ∧ (KeepsDelivery h (.maybeNeedCompaction order junk) ↔
      ∀ pre, item.pendingCompatedRange = some pre → ¬ h.Names pre) := by
  obtain ⟨pre, u, hu, rfl⟩ | ⟨hzero, rfl⟩ := maybeNeedCompaction_push hlow hc
  · refine ⟨_, rfl, ?_⟩
    constructor
    · intro hkeep q hitem
      rw [← Option.some.inj hitem]
      exact hkeep hlow pre u hu
    · intro hnames _ q v hv
      rw [(hv.unique hu).1]
      exact hnames pre rfl
  · refine ⟨_, rfl, ?_⟩
    constructor
    · intro _ q hitem
      cases hitem
    · intro _ _ q v hv
      obtain ⟨front, back, rfl, -⟩ := hv.last
      exact absurd (hzero q (by simp) v hv.usage) (Nat.ne_of_gt hv.pos)

/-- What one operation does to the history: nothing, or a push, or a delivery of the first item. -/
theorem queueStep_cases {P : CacheParams} {h h' : QueueHistory} {op : QueueOp}
    (hq : NeverPopped h) (hstep : queueStep P h op = .ok h') :
    (KeepsDelivery h op ∧ h'.cache.rangeQueue = h.cache.rangeQueue ∧ h'.pushed = h.pushed ∧
      h'.delivered = h.delivered) ∨
    (∃ item, h'.cache.rangeQueue = h.pushed ++ [item] ∧ h'.pushed = h.pushed ++ [item] ∧
      h'.delivered = h.delivered ∧
      (KeepsDelivery h op ↔ ∀ pre, item.pendingCompatedRange = some pre → ¬ h.Names pre)) ∨
    (∃ item rest, h.pushed = item :: rest ∧
      h' = { h with delivered := h.delivered ++ [(item, 0)] } ∧
      (KeepsDelivery h op ↔ h.delivered = [] ∧ 2 ≤ h.pushed.length)) := by
  cases op with
  | maybeNeedCompaction order junk =>
    obtain ⟨c, hc, hstep⟩ := bind_eq_ok.mp hstep
    obtain rfl := Except.ok.inj hstep
    by_cases hlow : SpaceLow h.cache
    · obtain ⟨item, rfl, hkeep⟩ := exists_push_of_spaceLow hlow hc
      exact .inr (.inl ⟨item, by rw [rangeQueue_push, hq.queue], pushed_push h item, rfl, hkeep⟩)
    · obtain rfl := maybeNeedCompaction_of_not_spaceLow hlow hc
      exact .inl ⟨fun h' => absurd h' hlow, rfl, by simp, rfl⟩
  | getCompactionData =>
    rw [queueStep] at hstep
    by_cases hneed : needCompaction h.cache = true
    · rw [if_pos hneed] at hstep
      obtain ⟨item, hitem, hstep⟩ := bind_eq_ok.mp hstep
      obtain rfl := Except.ok.inj hstep
      obtain ⟨rest, hrest⟩ := getCompactionData_eq_ok.mp hitem
      have hfront : h.front = 0 := by rw [QueueHistory.front, hq.queue, Nat.sub_self]
      refine .inr (.inr ⟨item, rest, by rw [← hq.queue, hrest], by rw [hfront], ?_⟩)
      rw [KeepsDelivery, hq.queue]
      exact ⟨fun hkeep => hkeep hneed, fun hkeep _ => hkeep⟩
    · rw [if_neg hneed] at hstep
      obtain rfl := Except.ok.inj hstep
      exact .inl ⟨fun h' => absurd h' hneed, rfl, rfl, rfl⟩
  | appendToRange pre a =>
    obtain ⟨c, hc, hstep⟩ := bind_eq_ok.mp hstep
    obtain rfl := Except.ok.inj hstep
    exact .inl ⟨trivial, appendToRange_rangeQueue hc, rfl, rfl⟩
  | onTab pre op =>
    obtain ⟨c, hc, hstep⟩ := bind_eq_ok.mp hstep
    obtain rfl := Except.ok.inj hstep
    refine .inl ⟨trivial, ?_, rfl, rfl⟩
    simp only [step] at hc
    split at hc
    · cases hc
    · exact onRange_rangeQueue hc

/-- **Nothing ever leaves the queue**, and each delivery is of an item that was pushed. -/
theorem NeverPopped.step {P : CacheParams} {h h' : QueueHistory} {op : QueueOp}
    (hq : NeverPopped h) (hstep : queueStep P h op = .ok h') : NeverPopped h' := by
  obtain ⟨-, hqueue, hpushed, hdel⟩ | ⟨item, hqueue, hpushed, hdel, -⟩ |
    ⟨item, rest, hrest, rfl, -⟩ := queueStep_cases hq hstep
  · exact ⟨by rw [hqueue, hpushed, hq.queue], by rw [hdel, hpushed]; exact hq.delivered⟩
  · refine ⟨by rw [hqueue, hpushed], fun p hp => ?_⟩
    rw [hdel] at hp
    rw [hpushed]
    have hp := hq.delivered p hp
    rw [List.getElem?_append_left (List.getElem?_eq_some_iff.mp hp).1]
    exact hp
  · refine ⟨hq.queue, fun p hp => ?_⟩
    rcases List.mem_append.mp hp with hp | hp
    · exact hq.delivered p hp
    · rw [List.mem_singleton.mp hp]
      simp [hrest]

/-! ### Which steps keep the delivery right -/

theorem needCompaction_iff {h : QueueHistory} (hq : NeverPopped h) :
    needCompaction h.cache = true ↔ h.pushed ≠ [] := by
  rw [needCompaction, hq.queue]
  simp

/-- The same queue and the same history are as right as before. -/
theorem DeliversOnce.congr {h h' : QueueHistory} (hd : DeliversOnce h)
    (hqueue : h'.cache.rangeQueue = h.cache.rangeQueue) (hpushed : h'.pushed = h.pushed)
    (hdel : h'.delivered = h.delivered) : DeliversOnce h' := by
  have hneed : needCompaction h'.cache = needCompaction h.cache := by
    rw [needCompaction, hqueue, needCompaction]
  have hund : h'.Undelivered = h.Undelivered := by
    funext i item
    rw [QueueHistory.Undelivered, QueueHistory.Undelivered, hpushed, hdel]
  refine ⟨?_, ?_, ?_⟩
  · rw [hdel, hpushed]
    exact hd.inOrder
  · rw [hneed, hund]
    exact hd.need
  · rw [hund]
    exact hd.distinct

/-- After a push, the undelivered items are those from before and the new one. -/
theorem undelivered_push {h h' : QueueHistory} (hq : NeverPopped h) {item : CompactionItem}
    (hpushed : h'.pushed = h.pushed ++ [item]) (hdel : h'.delivered = h.delivered) {i : ℕ}
    {x : CompactionItem} :
    h'.Undelivered i x ↔ h.Undelivered i x ∨ i = h.pushed.length ∧ x = item := by
  rw [QueueHistory.Undelivered, QueueHistory.Undelivered, hpushed, hdel]
  have hnew : ∀ y, (y, h.pushed.length) ∉ h.delivered := fun y hmem => by
    have hlt := (List.getElem?_eq_some_iff.mp (hq.delivered _ hmem)).1
    exact Nat.lt_irrefl _ hlt
  rw [List.getElem?_append]
  rcases Nat.lt_trichotomy i h.pushed.length with hlt | rfl | hgt
  · simp [hlt, Nat.ne_of_lt hlt]
  · simp [hnew, eq_comm]
  · simp [Nat.not_lt_of_gt hgt, Nat.ne_of_gt hgt, Nat.sub_ne_zero_of_lt hgt]

/-- A push keeps the delivery right exactly if no item that waits is over the same range. -/
theorem deliversOnce_push_iff {h h' : QueueHistory} (hq : NeverPopped h) (hd : DeliversOnce h)
    {item : CompactionItem} (hqueue : h'.cache.rangeQueue = h.pushed ++ [item])
    (hpushed : h'.pushed = h.pushed ++ [item]) (hdel : h'.delivered = h.delivered) :
    DeliversOnce h' ↔ ∀ pre, item.pendingCompatedRange = some pre → ¬ h.Names pre := by
  have hund : ∀ i x, h'.Undelivered i x ↔
      h.Undelivered i x ∨ i = h.pushed.length ∧ x = item := fun i x =>
    undelivered_push hq hpushed hdel
  have hold : ∀ i x, h.Undelivered i x → i < h.pushed.length := fun i x hx =>
    (List.getElem?_eq_some_iff.mp hx.1).1
  constructor
  · rintro hd' pre hitem ⟨i, x, hx, hpre⟩
    have heq := hd'.distinct i h.pushed.length x item pre ((hund _ _).mpr (.inl hx))
      ((hund _ _).mpr (.inr ⟨rfl, rfl⟩)) hpre hitem
    exact absurd (hold i x hx) (by omega)
  · intro hnames
    refine ⟨?_, ?_, ?_⟩
    · rw [hdel, hpushed, List.zipIdx_append]
      exact hd.inOrder.trans (List.prefix_append _ _)
    · constructor
      · intro _
        exact ⟨_, _, (hund _ _).mpr (.inr ⟨rfl, rfl⟩)⟩
      · intro _
        rw [needCompaction, hqueue]
        simp
    · intro i j x y pre hx hy hpx hpy
      rcases (hund i x).mp hx with hx | ⟨rfl, rfl⟩ <;> rcases (hund j y).mp hy with hy | ⟨rfl, rfl⟩
      · exact hd.distinct i j x y pre hx hy hpx hpy
      · exact absurd ⟨i, x, hx, hpx⟩ (hnames pre hpy)
      · exact absurd ⟨j, y, hy, hpy⟩ (hnames pre hpx)
      · rfl

/-- A delivery keeps the delivery right exactly if it is the first and leaves an item behind. -/
theorem deliversOnce_deliver_iff {h : QueueHistory} (hq : NeverPopped h) (hd : DeliversOnce h)
    {item : CompactionItem} {rest : List CompactionItem} (hrest : h.pushed = item :: rest) :
    DeliversOnce { h with delivered := h.delivered ++ [(item, 0)] } ↔
      h.delivered = [] ∧ 2 ≤ h.pushed.length := by
  have hneed : needCompaction h.cache = true := (needCompaction_iff hq).mpr (by simp [hrest])
  constructor
  · intro hd'
    have horder : h.delivered ++ [(item, 0)] <+: h.pushed.zipIdx := hd'.inOrder
    -- the position of the last item delivered is `0`, and it is the number of the others
    have hlast : h.pushed.zipIdx[h.delivered.length]? = some (item, 0) := by
      obtain ⟨more, hmore⟩ := horder
      rw [← hmore, List.append_assoc]
      simp
    rw [List.getElem?_zipIdx] at hlast
    obtain ⟨x, -, hx⟩ := Option.map_eq_some_iff.mp hlast
    have hlen : 0 + h.delivered.length = 0 := (Prod.mk.inj hx).2
    have hnil : h.delivered = [] := List.length_eq_zero_iff.mp (by omega)
    refine ⟨hnil, ?_⟩
    obtain ⟨i, y, hitem, hnot⟩ := hd'.need.mp hneed
    have hi : i < h.pushed.length := (List.getElem?_eq_some_iff.mp hitem).1
    have hpos : i ≠ 0 := by
      rintro rfl
      have hy : item = y := by simpa [hrest] using hitem
      exact hnot (by simp [hy])
    omega
  · rintro ⟨hnil, htwo⟩
    refine ⟨?_, ?_, ?_⟩
    · rw [hnil, hrest]
      simp
    · refine iff_of_true hneed ⟨1, h.pushed[1], List.getElem?_eq_getElem htwo, ?_⟩
      rw [hnil]
      simp
    · intro i j x y pre hx hy hpx hpy
      have hsub : ∀ p, p ∉ h.delivered ++ [(item, 0)] → p ∉ h.delivered := fun p hp hmem =>
        hp (List.mem_append_left _ hmem)
      exact hd.distinct i j x y pre ⟨hx.1, hsub _ hx.2⟩ ⟨hy.1, hsub _ hy.2⟩ hpx hpy

/-- **One step keeps the delivery right exactly if it meets the condition.** -/
theorem deliversOnce_step_iff {P : CacheParams} {h h' : QueueHistory} {op : QueueOp}
    (hq : NeverPopped h) (hd : DeliversOnce h) (hstep : queueStep P h op = .ok h') :
    DeliversOnce h' ↔ KeepsDelivery h op := by
  obtain ⟨hkeep, hqueue, hpushed, hdel⟩ | ⟨item, hqueue, hpushed, hdel, hkeep⟩ |
    ⟨item, rest, hrest, rfl, hkeep⟩ := queueStep_cases hq hstep
  · exact iff_of_true (hd.congr hqueue hpushed hdel) hkeep
  · rw [hkeep]
    exact deliversOnce_push_iff hq hd hqueue hpushed hdel
  · rw [hkeep]
    exact deliversOnce_deliver_iff hq hd hrest

/-- **When the queue delivers every item once.** Throughout a run that starts with an empty queue,
it does exactly if every step meets the condition. -/
theorem deliversOnce_iff {P : CacheParams} {c : FixedRangeChunkBasedNVMWriteCache}
    {ops : List QueueOp} {h' : QueueHistory} (hempty : c.rangeQueue = [])
    (hrun : run (queueStep P) (.start c) ops = .ok h') :
    Always (queueStep P) DeliversOnce (.start c) ops ↔
      EachStep (queueStep P) KeepsDelivery (.start c) ops := by
  have hneed : needCompaction c = false := by
    rw [needCompaction, hempty]
    rfl
  have hstart : DeliversOnce (.start c) := by
    refine ⟨List.nil_prefix, ?_, ?_⟩
    · refine iff_of_false (by simp [QueueHistory.start, hneed]) ?_
      rintro ⟨i, item, hitem, -⟩
      cases hitem
    · intro i j x y pre hx
      cases hx.1
  have hnever : NeverPopped (.start c) := ⟨hempty, fun p hp => absurd hp List.not_mem_nil⟩
  exact always_iff_eachStep (I := NeverPopped) (fun _ _ _ hq hstep => hq.step hstep)
    (fun _ _ _ hq hd hstep => deliversOnce_step_iff hq hd hstep) hnever hstart hrun

/-- The producer runs once and the consumer polls once. -/
def onceEach : List QueueOp := [.maybeNeedCompaction [[1], [2]] (0, 0), .getCompactionData]

theorem deliversOnce_iff_twoRanges :
    ∃ h', run (queueStep smallParams) (.start (twoRanges 20 10)) onceEach = .ok h' ∧
      (Always (queueStep smallParams) DeliversOnce (.start (twoRanges 20 10)) onceEach ↔
        EachStep (queueStep smallParams) KeepsDelivery (.start (twoRanges 20 10)) onceEach) :=
  ⟨_, rfl, deliversOnce_iff rfl rfl⟩

/-- A consumer that polls twice gets the one item twice. -/
theorem delivered_twice_twoRanges :
    ∃ item h', run (queueStep smallParams) (.start (twoRanges 20 10))
        (onceEach ++ [.getCompactionData]) = .ok h' ∧
      h'.pushed = [item] ∧ h'.delivered = [(item, 0), (item, 0)] ∧ ¬ DeliversOnce h' := by
  refine ⟨_, _, rfl, rfl, rfl, fun h => ?_⟩
  have hlen := h.inOrder.length_le
  exact absurd hlen (by decide)

end FixedRangeChunkBasedNVMWriteCache

end RangeCache
