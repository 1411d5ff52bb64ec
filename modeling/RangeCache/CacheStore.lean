import RangeCache.CacheHistory
import RangeCache.Lookup

/-!
# The cache as a store

What the cache is for: each prefix has a list of chunks, to which `AppendToRange` adds one, and
from which `Get` and `NewIterator` read. In a cache in use the list is all there is: whatever has
happened in between to this range and to the others, `Get` is the scan of the chunks that were
appended under the prefix of the key, with the filters that came with them, and `NewIterator`
merges one child for each chunk, which hands out its pairs.

With restarts and `CleanUp` the list starts over. `Get` then scans what has been appended since,
and goes on to older blocks only where a `CleanUp` has left some of them listed in front; what was
appended before a restart is not found.

The prefix extractor is a parameter, and so is the constructor of the iterator over a chunk.

## Main definitions

* `FixedRangeTab.scanBefore` — the scan of the newest chunks, with what is behind them
* `get`, `newIterator`, with `rangeIterator` for one range
* `CacheOp.Plain`, `appendedTo` — a cache in use, and the chunks its run appends to a prefix
* `plainView` — the view of a range with these chunks
* `ChildrenOf` — the children of an iterator over a view

## Main results

* `step_plainView`, `shows_plain` — in use, the abstract cache is the lists of chunks
* `get_refines` — `Get` in any state is a function of the chunks appended under the prefix
* `get_views` — `Get` in any life of the cache
* `newIterator_children` — the children of `NewIterator` are the chunks appended
* `newIterator_views` — the children of `NewIterator` in any life of the cache
-/

namespace RangeCache

open ByteMemory RecordLog FallibleRun PmemHashMap

/-! ## Chunks in front of older blocks -/

namespace FixedRangeTab

/-- The scan of chunks, newest first, with what the lookup comes to that goes on behind them. -/
def scanBefore (icmp : Bytes → Bytes → Ordering) (key : Bytes)
    (behind : Except Fault (Status × Bytes)) :
    List (Bool × List (Bytes × Bytes)) → Except Fault (Status × Bytes)
  | [] => behind
  | (false, _) :: older => scanBefore icmp key behind older
  | (true, kvs) :: older =>
    match findInChunk icmp key kvs with
    | some v => .ok (.ok, v)
    | none =>
      if StartsBelow icmp key kvs then scanBefore icmp key behind older else .error .outOfRange

section Before

variable {icmp : Bytes → Bytes → Ordering} {key value : Bytes}
  {behind : Except Fault (Status × Bytes)}

/-- With nothing behind the chunks, the scan ends as the one of `Get` does. -/
theorem scanBefore_nothing (chunks : List (Bool × List (Bytes × Bytes))) :
    scanBefore icmp key (.error .outOfRange) chunks = scan icmp key value chunks := by
  induction chunks with
  | nil => rfl
  | cons c older ih =>
    obtain ⟨matched, kvs⟩ := c
    cases matched with
    | false => exact ih
    | true =>
      cases hfind : findInChunk icmp key kvs with
      | none => simp only [scanBefore, scan, hfind, ih]
      | some v => simp only [scanBefore, scan, hfind]

/-- A hit before a miss is found, whatever is behind. -/
theorem scanBefore_of_hit {chunks : List (Bool × List (Bytes × Bytes))}
    (hfilter : ∀ c ∈ chunks, Contains icmp key c.2 → c.1 = true)
    (hhit : HitBeforeMiss icmp key chunks) (value : Bytes) :
    scanBefore icmp key behind chunks = scan icmp key value chunks := by
  induction chunks with
  | nil => exact absurd hhit not_hitBeforeMiss_nil
  | cons c older ih =>
    have ih := ih fun c' hc' => hfilter c' (List.mem_cons_of_mem _ hc')
    obtain ⟨matched, kvs⟩ := c
    by_cases hcontains : Contains icmp key kvs
    · have hsome : findInChunk icmp key kvs ≠ none :=
        fun hnone => findInChunk_eq_none_iff.mp hnone hcontains
      obtain ⟨v, hv⟩ := Option.ne_none_iff_exists'.mp hsome
      obtain rfl : matched = true := hfilter _ (List.mem_cons_self ..) hcontains
      simp only [scanBefore, scan, hv]
    · have hrest := ((hitBeforeMiss_cons_iff hcontains).mp hhit).2
      cases matched with
      | false => exact ih hrest
      | true =>
        simp only [scanBefore, scan, findInChunk_eq_none_iff.mpr hcontains, ih hrest]

variable {opts : FixedRangeBasedOptions}
  {newIter : Memory → ℕ → ℕ → Except Fault PersistentChunkIterator} {s : RangeState}
  {cs : List (SortedChunk icmp)} {old : List ChunkBlk}

/-- One turn of the loop of `Get`, whatever the rest of it comes to. -/
theorem getLoop_turn [Std.TransCmp icmp] {e : ChunkBlk × SortedChunk icmp} {i : ℕ}
    (hat : vectorAt s.tab.blklist i = .ok e.1) (hiter : IteratesOver newIter s e) (fuel : ℕ)
    {older : List (Bool × List (Bytes × Bytes))}
    (ih : getLoop opts newIter s icmp key fuel (u64 (i + (2 ^ 64 - 1))) value =
      scanBefore icmp key behind older) :
    getLoop opts newIter s icmp key (fuel + 1) i value =
      scanBefore icmp key behind (asked opts s key e :: older) := by
  obtain ⟨it, hit, hands⟩ := hiter
  rw [getLoop, hat]
  generalize u64 (i + (2 ^ 64 - 1)) = next at ih ⊢
  rw [ok_bind, hit, ok_bind, searchInChunk_spec hands e.2.pairs_ne_nil e.2.increasing, asked]
  cases opts.keyMayMatch key (bloomSlice opts s e.1) with
  | false => exact ih
  | true =>
    rw [scanBefore, if_pos rfl]
    cases findInChunk icmp key e.2.pairs with
    | some v => rfl
    | none =>
      by_cases hstarts : StartsBelow icmp key e.2.pairs
      · simp only [if_pos hstarts, ok_bind]
        rw [if_neg (by decide)]
        exact ih
      · simp only [if_neg hstarts]
        rfl

/-- The loop of `Get` over blocks that are listed behind others. -/
theorem getLoop_append [Std.TransCmp icmp] {es : List (ChunkBlk × SortedChunk icmp)}
    (hes : old ++ es.map Prod.fst <+: s.tab.blklist) (hlt : s.tab.blklist.length < 2 ^ 64)
    (hiter : ∀ e ∈ es, IteratesOver newIter s e) :
    getLoop opts newIter s icmp key (old.length + es.length + 1)
        (u64 (old.length + es.length + (2 ^ 64 - 1))) value =
      scanBefore icmp key
        (getLoop opts newIter s icmp key (old.length + 1) (u64 (old.length + (2 ^ 64 - 1))) value)
        (es.map (asked opts s key)).reverse := by
  induction es using List.reverseRecOn with
  | nil => rfl
  | append_singleton es e ih =>
    obtain ⟨rest, hrest⟩ := hes
    rw [List.map_append, ← List.append_assoc, List.append_assoc _ _ rest] at hrest
    have hlen := congrArg List.length hrest
    have hat : vectorAt s.tab.blklist (old.length + es.length) = .ok e.1 := by
      rw [← hrest]
      simp [vectorAt]
    simp only [List.length_append, List.length_map, List.length_cons, List.length_nil] at hlen ⊢
    have ih := ih ⟨_, hrest⟩ fun e' he' => hiter e' (List.mem_append_left _ he')
    rw [u64_pred (by omega) (by omega), List.map_append, List.reverse_append]
    exact getLoop_turn hat (hiter e (by simp)) _ ih

/-- The state with the blocks in front of a position left out of the index. -/
def newest (s : RangeState) (n : ℕ) : RangeState :=
  { s with tab := { s.tab with blklist := s.tab.blklist.drop n } }

/-- The newest chunks of a range are there without the older blocks. -/
theorem holds_newest {d₀ : ℕ} {recs : List Record} (hs : RangeHolds d₀ old recs s) :
    RangeHolds d₀ [] recs (newest s old.length) := by
  refine ⟨hs.live, ?_, hs.dataLen, hs.bytes, hs.le⟩
  rw [newest, hs.blklist, List.drop_left, List.nil_append]

/-- **`Get` is the scan of the newest chunks**, and goes on behind them if there are older blocks;
if there are none, it throws there. -/
theorem get_append [Std.TransCmp icmp] {d₀ : ℕ}
    (hs : RangeHolds d₀ old (records (cs.map SortedChunk.args)) s)
    (hlt : s.tab.blklist.length < 2 ^ 64) (hdecode : DecodesAppended newIter s cs)
    (opts : FixedRangeBasedOptions) (key value : Bytes) :
    ∃ behind, (old = [] → behind = .error .outOfRange) ∧
      get opts newIter s icmp key value = scanBefore icmp key behind
        (((s.tab.blklist.drop old.length).zip cs).map (asked opts s key)).reverse := by
  have hdrop : s.tab.blklist.drop old.length
      = (place 8 d₀ (records (cs.map SortedChunk.args))).map (ChunkBlk.ofPlace 8) := by
    rw [hs.blklist, List.drop_left]
  have hcount : (s.tab.blklist.drop old.length).length = cs.length := by
    rw [hdrop]
    simp [records]
  have hfst : ((s.tab.blklist.drop old.length).zip cs).map Prod.fst
      = s.tab.blklist.drop old.length := List.map_fst_zip (by omega)
  have hlen : old.length + ((s.tab.blklist.drop old.length).zip cs).length
      = s.tab.blklist.length := by
    rw [List.length_zip, hcount, Nat.min_self, ← hcount, List.length_drop]
    have := congrArg List.length hs.blklist
    rw [List.length_append] at this
    omega
  have hall : old ++ ((s.tab.blklist.drop old.length).zip cs).map Prod.fst
      = s.tab.blklist := by
    rw [hfst, hdrop, ← hs.blklist]
  refine ⟨getLoop opts newIter s icmp key (old.length + 1) (u64 (old.length + (2 ^ 64 - 1))) value,
    fun hnil => ?_, ?_⟩
  · subst hnil
    exact getLoop_of_le (le_u64_pred_zero hlt) key 0 value
  · rw [get, ← hlen]
    exact getLoop_append ⟨[], by rw [List.append_nil, hall]⟩ hlt fun e he =>
      iteratesOver_of_holds (s := newest s old.length) (holds_newest hs) hdecode he

end Before

end FixedRangeTab

namespace FixedRangeChunkBasedNVMWriteCache

open FixedRangeTab (AppendArgs RangeHolds records SortedChunk Contains HandsOut Decodes scan lookup
  Answers HitBeforeMiss)

/-! ## Reading -/

/-- `Get`. -/
def get (P : CacheParams) (prefixExtractor : Bytes → Bytes)
    (newIter : Memory → ℕ → ℕ → Except Fault PersistentChunkIterator)
    (c : FixedRangeChunkBasedNVMWriteCache) (key value : Bytes) :
    Except Fault (FixedRangeTab.Status × Bytes) :=
  match c.prefix2range.lookup (prefixExtractor key) with
  | none => .ok (.notFound "no this range", value)
  | some tab => do
    let node ← deref c.pop.nodes tab.nonVolatileTab
    FixedRangeTab.get P.opts newIter (c.rangeState tab node) P.icmp key value

/-- `NewInternalIterator` of the tab of a prefix: its children. -/
def rangeIterator (P : CacheParams)
    (newIter : Memory → ℕ → ℕ → Except Fault PersistentChunkIterator)
    (c : FixedRangeChunkBasedNVMWriteCache) (pre : Bytes) :
    Except Fault (List PersistentChunkIterator) :=
  match c.prefix2range.lookup pre with
  | none => .error .outOfRange
  | some tab => do
    let node ← deref c.pop.nodes tab.nonVolatileTab
    FixedRangeTab.newInternalIterator P.opts newIter (c.rangeState tab node)

/-- `NewIterator`: the children of each range. `order` lists the prefixes in the order of the
iteration. -/
def newIterator (P : CacheParams)
    (newIter : Memory → ℕ → ℕ → Except Fault PersistentChunkIterator) (order : List Bytes)
    (c : FixedRangeChunkBasedNVMWriteCache) :
    Except Fault (List (List PersistentChunkIterator)) :=
  order.mapM (rangeIterator P newIter c)

/-! ## What has been appended -/

/-- The operations of a cache in use. -/
def CacheOp.Plain : CacheOp → Prop
  | .appendToRange pre _ => 0 ∉ pre
  | .onTab _ .cleanUp => False
  | .reopen => False
  | _ => True

theorem CacheOp.Plain.followed {op : CacheOp} (h : op.Plain) (P : CacheParams) :
    op.Followed P := by
  cases op with
  | appendToRange pre a => exact h
  | reopen => exact absurd h id
  | _ => trivial

/-- The chunks that operations append under a prefix, the oldest first. -/
def appendedTo (pre : Bytes) (ops : List CacheOp) : List AppendArgs :=
  ops.filterMap fun
    | .appendToRange q a | .onTab q (.append a) => if q = pre then some a else none
    | _ => none

theorem appendedTo_append (pre : Bytes) (ops more : List CacheOp) :
    appendedTo pre (ops ++ more) = appendedTo pre ops ++ appendedTo pre more :=
  List.filterMap_append

theorem appendedTo_cons (pre : Bytes) (op : CacheOp) (ops : List CacheOp) :
    appendedTo pre (op :: ops) = appendedTo pre [op] ++ appendedTo pre ops :=
  appendedTo_append pre [op] ops

/-- An append is one to its own prefix. -/
theorem appendedTo_appendToRange (pre q : Bytes) (a : AppendArgs) :
    appendedTo pre [.appendToRange q a] = if q = pre then [a] else [] := by
  by_cases h : q = pre <;> simp [appendedTo, h]

theorem appendedTo_onTab (pre q : Bytes) (a : AppendArgs) :
    appendedTo pre [.onTab q (.append a)] = if q = pre then [a] else [] := by
  by_cases h : q = pre <;> simp [appendedTo, h]

/-- The view of a range that chunks have been appended to, and that nothing else has happened to. -/
def plainView (as : List AppendArgs) : Option RangeView :=
  if as = [] then none else some { base := 0, older := [], since := as }

section Plain

variable {P : CacheParams} {c : FixedRangeChunkBasedNVMWriteCache} {ops : List CacheOp}
  {views : Views} {content : Bytes → List AppendArgs}

theorem plainView_eq_none {as : List AppendArgs} : plainView as = none ↔ as = [] := by
  simp [plainView]

theorem plainView_eq_some {as : List AppendArgs} {v : RangeView} :
    plainView as = some v ↔ as ≠ [] ∧ v = { base := 0, older := [], since := as } := by
  by_cases h : as = [] <;> simp [plainView, h, eq_comm]

theorem plainView_snoc (as : List AppendArgs) (a : AppendArgs) :
    plainView (as ++ [a]) = some { base := 0, older := [], since := as ++ [a] } :=
  plainView_eq_some.mpr ⟨by simp, rfl⟩

/-- The view behind one more chunk, if the chunk fits. -/
theorem plainView_append {as : List AppendArgs} {a : AppendArgs} {v : RangeView}
    (h : RangeView.step { base := 0, older := [], since := as } (.append a) = .ok v) :
    plainView (as ++ [a]) = some v := by
  rw [RangeView.step] at h
  split at h
  · rw [plainView_snoc, ← Except.ok.inj h]
  · cases h

/-- One more chunk under a prefix. -/
theorem update_plainView (pre : Bytes) (a : AppendArgs) :
    Function.update (fun q => plainView (content q)) pre (plainView (content pre ++ [a]))
      = fun q => plainView (content q ++ if pre = q then [a] else []) := by
  funext q
  by_cases h : pre = q
  · subst h
    rw [Function.update_self, if_pos rfl]
  · rw [Function.update_of_ne (Ne.symm h), if_neg h, List.append_nil]

/-- **An operation of a cache in use** appends to the views at most. -/
theorem step_plainView {op : CacheOp} (hop : op.Plain)
    (h : Views.step (fun pre => plainView (content pre)) op = .ok views) :
    views = fun pre => plainView (content pre ++ appendedTo pre [op]) := by
  cases op with
  | appendToRange pre a =>
    obtain ⟨v, hv, hviews⟩ := bind_eq_ok.mp h
    have hview : (plainView (content pre)).getD .empty
        = { base := 0, older := [], since := content pre } := by
      by_cases hnil : content pre = []
      · rw [plainView_eq_none.mpr hnil, hnil]
        rfl
      · rw [plainView_eq_some.mpr ⟨hnil, rfl⟩, Option.getD_some]
    rw [hview] at hv
    simp only [appendedTo_appendToRange]
    rw [← update_plainView, plainView_append hv]
    exact (Except.ok.inj hviews).symm
  | maybeNeedCompaction order junk =>
    have hnone : ∀ pre, appendedTo pre [.maybeNeedCompaction order junk] = [] := fun _ => rfl
    simp only [hnone, List.append_nil]
    exact (Except.ok.inj h).symm
  | onTab pre op =>
    rw [Views.step] at h
    split at h
    · cases h
    next v hview =>
    obtain ⟨v', hv', hviews⟩ := bind_eq_ok.mp h
    cases op with
    | append a =>
      obtain ⟨-, rfl⟩ := plainView_eq_some.mp hview
      simp only [appendedTo_onTab]
      rw [← update_plainView, plainView_append hv']
      exact (Except.ok.inj hviews).symm
    | setCompactionWorking working =>
      have hnone : ∀ q, appendedTo q [.onTab pre (.setCompactionWorking working)] = [] :=
        fun _ => rfl
      obtain rfl := Except.ok.inj hv'
      simp only [hnone, List.append_nil]
      rw [← Except.ok.inj hviews, ← hview]
      exact Function.update_eq_self ..
    | cleanUp => exact absurd hop id
  | reopen => exact absurd hop id

/-- **A run of a cache in use** appends to the views. -/
theorem run_plainView (hops : ∀ op ∈ ops, op.Plain)
    (h : run Views.step (fun pre => plainView (content pre)) ops = .ok views) :
    views = fun pre => plainView (content pre ++ appendedTo pre ops) := by
  induction ops generalizing content with
  | nil =>
    obtain rfl := Except.ok.inj h
    simp [appendedTo]
  | cons op ops ih =>
    obtain ⟨views₁, hop, hrest⟩ := run_cons_ok.mp h
    rw [step_plainView (hops op (List.mem_cons_self ..)) hop] at hrest
    rw [ih (fun o ho => hops o (List.mem_cons_of_mem _ ho)) hrest]
    funext pre
    rw [appendedTo_cons pre op ops, List.append_assoc]

/-- **A cache in use shows the chunks that have been appended**, and nothing else. -/
theorem shows_plain (hops : ∀ op ∈ ops, op.Plain)
    (hrun : run (step P) (fresh P) ops = .ok c) :
    Shows P c fun pre => plainView (appendedTo pre ops) := by
  obtain ⟨views, hviews, hshows⟩ := exists_shows (fun op hop => (hops op hop).followed P) hrun
  have hstart : Views.none = fun _ => plainView [] := rfl
  rw [hstart] at hviews
  have heq := run_plainView hops hviews
  simp only [List.nil_append] at heq
  rwa [heq] at hshows

/-- A prefix without a tab has no chunks. -/
theorem Shows.appendedTo_eq_nil (h : Shows P c fun pre => plainView (appendedTo pre ops))
    {pre : Bytes} (hnone : c.prefix2range.lookup pre = none) : appendedTo pre ops = [] :=
  plainView_eq_none.mp (h.unbound pre hnone)

/-- A tab has chunks, and its index and its buffer hold them. -/
theorem Shows.exists_holds (h : Shows P c fun pre => plainView (appendedTo pre ops))
    {pre : Bytes} {tab : FixedRangeTab} (htab : c.prefix2range.lookup pre = some tab) :
    appendedTo pre ops ≠ [] ∧ ∃ node, c.pop.nodes[tab.nonVolatileTab]? = some node ∧
      RangeHolds 0 [] (records (appendedTo pre ops)) (c.rangeState tab node) := by
  obtain ⟨v, node, hv, hnode, hshown⟩ := h.bound pre tab htab
  obtain ⟨hne, rfl⟩ := plainView_eq_some.mp hv
  exact ⟨hne, node, hnode, hshown⟩

end Plain

/-! ## What is read -/

section Reads

variable {P : CacheParams} {c : FixedRangeChunkBasedNVMWriteCache} {ops : List CacheOp}
  {newIter : Memory → ℕ → ℕ → Except Fault PersistentChunkIterator}

/-- A chunk as `Get` sees it: does the filter that came with it let the key through? -/
def asked (P : CacheParams) (key : Bytes) (chunk : SortedChunk P.icmp) :
    Bool × List (Bytes × Bytes) :=
  (P.opts.keyMayMatch key chunk.args.bloomData, chunk.pairs)

/-- The index lists a block for each chunk. -/
theorem map_asked {icmp : Bytes → Bytes → Ordering} {opts : FixedRangeBasedOptions}
    (hbits : opts.chunkBloomBits = CHUNK_BLOOM_FILTER_LEN) {s : RangeState}
    {cs : List (SortedChunk icmp)} {d₀ : ℕ}
    (hs : RangeHolds d₀ [] (records (cs.map SortedChunk.args)) s) (key : Bytes) :
    (s.tab.blklist.zip cs).map (FixedRangeTab.asked opts s key)
      = cs.map fun chunk => (opts.keyMayMatch key chunk.args.bloomData, chunk.pairs) := by
  have hlen : cs.length ≤ s.tab.blklist.length := by
    rw [hs.blklist]
    simp [records]
  calc (s.tab.blklist.zip cs).map (FixedRangeTab.asked opts s key)
      = (s.tab.blklist.zip cs).map
          ((fun chunk => (opts.keyMayMatch key chunk.args.bloomData, chunk.pairs)) ∘ Prod.snd) := by
        refine List.map_congr_left fun e he => ?_
        rw [FixedRangeTab.asked, FixedRangeTab.bloomSlice_eq hbits hs he]
        rfl
    _ = ((s.tab.blklist.zip cs).map Prod.snd).map
          fun chunk => (opts.keyMayMatch key chunk.args.bloomData, chunk.pairs) :=
        (List.map_map ..).symm
    _ = cs.map fun chunk => (opts.keyMayMatch key chunk.args.bloomData, chunk.pairs) := by
        rw [List.map_snd_zip hlen]

/-- With filters that let their keys through, the scan of chunks is right exactly when it reaches
one with the key before one that makes it throw. -/
theorem answers_asked_iff {chunks : List (SortedChunk P.icmp)} {key : Bytes}
    (hfilter : ∀ chunk ∈ chunks, Contains P.icmp key chunk.pairs →
      P.opts.keyMayMatch key chunk.args.bloomData = true) (value : Bytes) :
    Answers (scan P.icmp key value (chunks.map (asked P key)).reverse)
        (lookup P.icmp key (chunks.map SortedChunk.pairs)) ↔
      HitBeforeMiss P.icmp key (chunks.map (asked P key)).reverse := by
  have hpairs : (chunks.map SortedChunk.pairs).reverse
      = ((chunks.map (asked P key)).reverse).map Prod.snd := by
    rw [List.map_reverse, List.map_map]
    rfl
  rw [lookup, hpairs]
  refine FixedRangeTab.answers_scan_iff fun e he hcontains => ?_
  obtain ⟨chunk, hchunk, rfl⟩ := List.mem_map.mp (List.mem_reverse.mp he)
  exact hfilter chunk hchunk hcontains

/-- What `Get` does to the list of chunks of a prefix. -/
def scanChunks (P : CacheParams) (key value : Bytes) (chunks : List (SortedChunk P.icmp)) :
    Except Fault (FixedRangeTab.Status × Bytes) :=
  if chunks = [] then .ok (.notFound "no this range", value)
  else scan P.icmp key value (chunks.map (asked P key)).reverse

/-- **`Get` is a function of what has been appended under the prefix of the key.** In every state of
a run it scans the chunks of that prefix, with their own filters, and nothing else; it says that
there is no range exactly when there are none. So it is right when there are none, or when it
reaches a chunk with the key before one that makes it throw. -/
theorem get_refines [Std.TransCmp P.icmp] (hops : ∀ op ∈ ops, op.Plain)
    (hrun : run (step P) (fresh P) ops = .ok c)
    (hbits : P.opts.chunkBloomBits = CHUNK_BLOOM_FILTER_LEN)
    {chunks : Bytes → List (SortedChunk P.icmp)}
    (hchunks : ∀ pre, (chunks pre).map SortedChunk.args = appendedTo pre ops)
    (hdecode : ∀ pre, ∀ chunk ∈ chunks pre,
      Decodes newIter chunk.args.chunkData chunk.pairs)
    (hspace : ∀ node ∈ c.pop.nodes, node.buf + node.bufSize < 2 ^ 64)
    (prefixExtractor : Bytes → Bytes) (key value : Bytes) :
    get P prefixExtractor newIter c key value
        = scanChunks P key value (chunks (prefixExtractor key)) ∧
      ((∀ chunk ∈ chunks (prefixExtractor key), Contains P.icmp key chunk.pairs →
          P.opts.keyMayMatch key chunk.args.bloomData = true) →
        (Answers (get P prefixExtractor newIter c key value)
            (lookup P.icmp key ((chunks (prefixExtractor key)).map SortedChunk.pairs)) ↔
          chunks (prefixExtractor key) = [] ∨
            HitBeforeMiss P.icmp key
              ((chunks (prefixExtractor key)).map (asked P key)).reverse)) := by
  have hshows := shows_plain hops hrun
  have hget : get P prefixExtractor newIter c key value
      = scanChunks P key value (chunks (prefixExtractor key)) := by
    have hcontent := hchunks (prefixExtractor key)
    rw [get, scanChunks]
    generalize prefixExtractor key = pre at hcontent ⊢
    split
    · next hnone =>
      rw [hshows.appendedTo_eq_nil hnone, List.map_eq_nil_iff] at hcontent
      rw [if_pos hcontent]
    · next tab htab =>
      obtain ⟨hsome, node, hnode, hholds⟩ := hshows.exists_holds htab
      have hne : chunks pre ≠ [] := by
        intro hnil
        rw [hnil] at hcontent
        exact hsome hcontent.symm
      rw [← hcontent] at hholds
      have hdecodes := FixedRangeTab.decodesAppended_of_decodes (s := c.rangeState tab node)
        (hspace node (List.mem_of_getElem? hnode)) (hdecode pre)
      rw [if_neg hne, deref_eq_ok.mpr hnode, ok_bind,
        FixedRangeTab.get_eq_scan hholds hdecodes, map_asked hbits hholds]
      rfl
  refine ⟨hget, fun hfilter => ?_⟩
  rw [hget, scanChunks]
  generalize chunks (prefixExtractor key) = cs at hfilter
  by_cases hnil : cs = []
  · subst hnil
    exact iff_of_true ⟨_, _, if_pos rfl⟩ (.inl rfl)
  · rw [if_neg hnil, or_iff_right hnil]
    exact answers_asked_iff hfilter value

/-- A prefix without a view has no range. -/
theorem Shows.get_of_none {views : Views} (h : Shows P c views) {prefixExtractor : Bytes → Bytes}
    {key value : Bytes} (hnone : views (prefixExtractor key) = none) :
    get P prefixExtractor newIter c key value = .ok (.notFound "no this range", value) := by
  rw [get, h.lookup_eq_none_iff.mpr hnone]

/-- With a view, the chunks appended since are scanned in front of what else the index lists. -/
theorem Shows.get_of_some [Std.TransCmp P.icmp] {views : Views} (h : Shows P c views)
    {prefixExtractor : Bytes → Bytes} {key : Bytes} {v : RangeView}
    (hv : views (prefixExtractor key) = some v) (hlen : v.index.length < 2 ^ 64)
    {chunks : List (SortedChunk P.icmp)} (hchunks : chunks.map SortedChunk.args = v.since)
    (hdecode : ∀ chunk ∈ chunks, Decodes newIter chunk.args.chunkData chunk.pairs)
    (hbits : P.opts.chunkBloomBits = CHUNK_BLOOM_FILTER_LEN)
    (hspace : ∀ node ∈ c.pop.nodes, node.buf + node.bufSize < 2 ^ 64) (value : Bytes) :
    ∃ behind, (v.older = [] → behind = .error .outOfRange) ∧
      get P prefixExtractor newIter c key value
        = FixedRangeTab.scanBefore P.icmp key behind (chunks.map (asked P key)).reverse := by
  obtain ⟨tab, node, htab, hnode, hshown⟩ := h.exists_tab hv
  have hholds : RangeHolds v.base v.older (records (chunks.map SortedChunk.args))
      (c.rangeState tab node) := by
    rw [hchunks]
    exact hshown
  have hindex : (c.rangeState tab node).tab.blklist.length < 2 ^ 64 := by
    rw [hshown.index]
    exact hlen
  have hdecodes := FixedRangeTab.decodesAppended_of_decodes (s := c.rangeState tab node)
    (hspace node (List.mem_of_getElem? hnode)) hdecode
  obtain ⟨behind, hbehind, hget⟩ :=
    FixedRangeTab.get_append hholds hindex hdecodes P.opts key value
  refine ⟨behind, hbehind, ?_⟩
  simp only [get, htab, deref_eq_ok.mpr hnode, ok_bind]
  rw [hget]
  exact congrArg (fun es => FixedRangeTab.scanBefore P.icmp key behind es.reverse)
    (map_asked hbits (FixedRangeTab.holds_newest hholds) key)

/-- **`Get` after any life of the cache**, restarts and `CleanUp` included. It says that there is no
range when the prefix of the key has no view. Otherwise it scans the chunks that have been appended
since the last `CleanUp` or restart. So it is right when it reaches one of them with the key before
one that makes it throw, whatever else the index lists; and when the index lists nothing older, it
finds nothing else, and throws behind the oldest of them. -/
theorem get_views [Std.TransCmp P.icmp] (hops : ∀ op ∈ ops, op.Followed P)
    (hrun : run (step P) (fresh P) ops = .ok c)
    (hbits : P.opts.chunkBloomBits = CHUNK_BLOOM_FILTER_LEN)
    (hspace : ∀ node ∈ c.pop.nodes, node.buf + node.bufSize < 2 ^ 64)
    (prefixExtractor : Bytes → Bytes) (key value : Bytes) :
    ∃ views, run Views.step .none ops = .ok views ∧
      (views (prefixExtractor key) = none →
        get P prefixExtractor newIter c key value = .ok (.notFound "no this range", value)) ∧
      ∀ v, views (prefixExtractor key) = some v → v.index.length < 2 ^ 64 →
        ∀ chunks : List (SortedChunk P.icmp), chunks.map SortedChunk.args = v.since →
          (∀ chunk ∈ chunks, Decodes newIter chunk.args.chunkData chunk.pairs) →
          (∀ chunk ∈ chunks, Contains P.icmp key chunk.pairs →
            P.opts.keyMayMatch key chunk.args.bloomData = true) →
          (HitBeforeMiss P.icmp key (chunks.map (asked P key)).reverse →
            Answers (get P prefixExtractor newIter c key value)
              (lookup P.icmp key (chunks.map SortedChunk.pairs))) ∧
          (v.older = [] →
            get P prefixExtractor newIter c key value
              = scan P.icmp key value (chunks.map (asked P key)).reverse) := by
  obtain ⟨views, hviews, hshows⟩ := exists_shows hops hrun
  refine ⟨views, hviews, hshows.get_of_none, fun v hv hlen chunks hchunks hdecode hfilter => ?_⟩
  obtain ⟨behind, hbehind, hget⟩ :=
    hshows.get_of_some hv hlen hchunks hdecode hbits hspace value
  refine ⟨fun hhit => ?_, fun holder => ?_⟩
  · have hpass : ∀ e ∈ (chunks.map (asked P key)).reverse, Contains P.icmp key e.2 →
        e.1 = true := by
      intro e he hcontains
      obtain ⟨chunk, hchunk, rfl⟩ := List.mem_map.mp (List.mem_reverse.mp he)
      exact hfilter chunk hchunk hcontains
    rw [hget, FixedRangeTab.scanBefore_of_hit hpass hhit value]
    exact (answers_asked_iff hfilter value).mpr hhit
  · rw [hget, hbehind holder]
    exact FixedRangeTab.scanBefore_nothing _

/-! ### Iterating -/

/-- The children over a view: one for each block that is listed, and those behind the older blocks
hand out the pairs of the chunks appended since, in the order of the appends. -/
def ChildrenOf (m : Memory) (decode : Bytes → List (Bytes × Bytes)) (v : RangeView)
    (children : List PersistentChunkIterator) : Prop :=
  children.length = v.index.length ∧
    List.Forall₂ (fun a it => HandsOut m it (decode a.chunkData)) v.since
      (children.drop v.older.length)

/-- The constructor of the iterator returns over each of the older blocks. -/
def OlderRead (newIter : Memory → ℕ → ℕ → Except Fault PersistentChunkIterator) (v : RangeView)
    (s : RangeState) : Prop :=
  ∀ blk ∈ v.older, ∃ it, newIter s.pool.mem (s.nv.buf + blk.getDatOffset) blk.chunkLen = .ok it

section Children

variable {decode : Bytes → List (Bytes × Bytes)} {v : RangeView} {s : RangeState}
  {children : List PersistentChunkIterator}

/-- The bytes of the chunks are where the blocks say. -/
theorem decodes_place (hshown : v.ShownBy s) (hend : s.nv.buf + s.nv.bufSize < 2 ^ 64)
    (hdecode : ∀ a ∈ v.since, Decodes newIter a.chunkData (decode a.chunkData)) {p : ℕ × Record}
    (hp : p ∈ place 8 v.base (records v.since)) :
    ∃ it, newIter s.pool.mem (s.nv.buf + (ChunkBlk.ofPlace 8 p).getDatOffset) p.2.payload.length
        = .ok it ∧ HandsOut s.pool.mem it (decode p.2.payload) := by
  have hrec := (holdsAt_iff_forall_place.mp hshown.bytes p hp).payload
  obtain ⟨a, hmem, ha⟩ : ∃ a ∈ v.since, a.record = p.2 := List.mem_map.mp (mem_of_mem_place hp)
  have hpayload : a.chunkData = p.2.payload := congrArg Record.payload ha
  have htag : p.2.tag.length = 8 := by
    rw [← ha]
    exact a.bloomData_length
  have hsize := a.size_record
  rw [ha, hpayload] at hsize
  have hbounds := place_bounds hp
  have hle := hshown.le (by rintro hnil; rw [hnil] at hp; cases hp)
  have hlt := s.nv.bufSize_lt
  have hdata := hshown.dataLen
  have hoff : (ChunkBlk.ofPlace 8 p).getDatOffset = p.1 + 8 + 8 := by
    rw [ChunkBlk.getDatOffset, ChunkBlk.ofPlace, u64_of_lt (by simp only; omega)]
  rw [htag] at hrec
  have hchunk := hdecode a hmem
  rw [hpayload] at hchunk
  rw [hoff, ← Nat.add_assoc, ← Nat.add_assoc]
  exact hchunk s.pool.mem _ (by omega) hrec

/-- **The children of a range**, whenever the constructors return. -/
theorem childrenOf_of_shown (hshown : v.ShownBy s) (hend : s.nv.buf + s.nv.bufSize < 2 ^ 64)
    (hdecode : ∀ a ∈ v.since, Decodes newIter a.chunkData (decode a.chunkData))
    {opts : FixedRangeBasedOptions}
    (hchildren : FixedRangeTab.newInternalIterator opts newIter s = .ok children) :
    ChildrenOf s.pool.mem decode v children := by
  have hall := mapM_eq_ok.mp hchildren
  refine ⟨by rw [← hall.length_eq, hshown.index], ?_⟩
  have hnew := List.forall₂_drop v.older.length hall
  rw [hshown.index, RangeView.index, List.drop_left, List.forall₂_map_left_iff] at hnew
  have heach : List.Forall₂ (fun p it => HandsOut s.pool.mem it (decode p.2.payload))
      (place 8 v.base (records v.since)) (children.drop v.older.length) := by
    refine ((List.forall₂_and_left _ _).mpr ⟨fun p hp => hp, hnew⟩).imp ?_
    rintro p it ⟨hp, hit⟩
    obtain ⟨it', hit', hands⟩ := decodes_place hshown hend hdecode hp
    obtain rfl : it' = it := Except.ok.inj (hit'.symm.trans hit)
    exact hands
  have hpayloads : (place 8 v.base (records v.since)).map (fun p => p.2.payload)
      = v.since.map AppendArgs.chunkData := by
    rw [← Function.comp_def Record.payload Prod.snd, ← List.map_map, map_snd_place, records,
      List.map_map]
    rfl
  rw [← List.forall₂_map_left_iff (f := AppendArgs.chunkData)
    (R := fun kvs it => HandsOut s.pool.mem it (decode kvs)), ← hpayloads,
    List.forall₂_map_left_iff]
  exact heach

/-- **When the constructors return**: they do over the chunks appended since. -/
theorem newInternalIterator_returns_iff (hshown : v.ShownBy s)
    (hend : s.nv.buf + s.nv.bufSize < 2 ^ 64)
    (hdecode : ∀ a ∈ v.since, Decodes newIter a.chunkData (decode a.chunkData))
    (opts : FixedRangeBasedOptions) :
    (∃ children, FixedRangeTab.newInternalIterator opts newIter s = .ok children) ↔
      OlderRead newIter v s := by
  rw [FixedRangeTab.newInternalIterator, mapM_returns_iff, hshown.index, RangeView.index,
    List.forall_mem_append]
  refine and_iff_left ?_
  rintro blk hblk
  obtain ⟨p, hp, rfl⟩ := List.mem_map.mp hblk
  obtain ⟨it, hit, -⟩ := decodes_place hshown hend hdecode hp
  exact ⟨it, hit⟩

/-- The prefixes of an iteration are those with a view. -/
theorem Shows.mem_order_iff {views : Views} (h : Shows P c views) {order : List Bytes}
    (horder : order.Perm c.prefix2range.keys) {pre : Bytes} :
    pre ∈ order ↔ views pre ≠ none := by
  rw [horder.mem_iff, ← AList.mem_keys, ← AList.lookup_isSome, Ne, ← h.lookup_eq_none_iff,
    ← Ne, Option.isSome_iff_ne_none]

/-- `rangeIterator` in terms of the tab. -/
theorem rangeIterator_eq {pre : Bytes} {tab : FixedRangeTab} {node : Node}
    (htab : c.prefix2range.lookup pre = some tab)
    (hnode : c.pop.nodes[tab.nonVolatileTab]? = some node) :
    rangeIterator P newIter c pre
      = FixedRangeTab.newInternalIterator P.opts newIter (c.rangeState tab node) := by
  simp only [rangeIterator, htab, deref_eq_ok.mpr hnode, ok_bind]

/-- The children of the ranges, whenever the iterator over the cache is there. -/
theorem Shows.childrenOf {views : Views} (h : Shows P c views) {order : List Bytes}
    (horder : order.Perm c.prefix2range.keys)
    (hspace : ∀ node ∈ c.pop.nodes, node.buf + node.bufSize < 2 ^ 64)
    (hdecode : ∀ pre v, views pre = some v → ∀ a ∈ v.since,
      Decodes newIter a.chunkData (decode a.chunkData))
    {children : List (List PersistentChunkIterator)}
    (hchildren : newIterator P newIter order c = .ok children) :
    List.Forall₂ (fun pre its => ∃ v, views pre = some v ∧
      ChildrenOf c.pop.pool.mem decode v its) order children := by
  refine ((List.forall₂_and_left _ _).mpr ⟨fun p hp => hp, mapM_eq_ok.mp hchildren⟩).imp ?_
  rintro pre its ⟨hpre, hits⟩
  obtain ⟨v, hv⟩ := Option.ne_none_iff_exists'.mp ((h.mem_order_iff horder).mp hpre)
  obtain ⟨tab, node, htab, hnode, hshown⟩ := h.exists_tab hv
  rw [rangeIterator_eq htab hnode] at hits
  exact ⟨v, hv, childrenOf_of_shown hshown (hspace node (List.mem_of_getElem? hnode))
    (hdecode pre v hv) hits⟩

/-- The iterator over the cache is there when the constructors return over the older blocks. -/
theorem Shows.newIterator_returns_iff {views : Views} (h : Shows P c views) {order : List Bytes}
    (horder : order.Perm c.prefix2range.keys)
    (hspace : ∀ node ∈ c.pop.nodes, node.buf + node.bufSize < 2 ^ 64)
    (hdecode : ∀ pre v, views pre = some v → ∀ a ∈ v.since,
      Decodes newIter a.chunkData (decode a.chunkData)) :
    (∃ children, newIterator P newIter order c = .ok children) ↔
      ∀ pre tab node v, c.prefix2range.lookup pre = some tab →
        c.pop.nodes[tab.nonVolatileTab]? = some node → views pre = some v →
        OlderRead newIter v (c.rangeState tab node) := by
  rw [newIterator, mapM_returns_iff]
  constructor
  · intro hall pre tab node v htab hnode hv
    obtain ⟨tab', node', htab', hnode', hshown⟩ := h.exists_tab hv
    obtain rfl : tab = tab' := Option.some.inj (htab.symm.trans htab')
    obtain rfl : node = node' := Option.some.inj (hnode.symm.trans hnode')
    have hpre : pre ∈ order := (h.mem_order_iff horder).mpr (by rw [hv]; exact nofun)
    have hreturns := hall pre hpre
    rw [rangeIterator_eq htab hnode] at hreturns
    exact (newInternalIterator_returns_iff hshown (hspace node (List.mem_of_getElem? hnode))
      (hdecode pre v hv) P.opts).mp hreturns
  · intro hall pre hpre
    obtain ⟨v, hv⟩ := Option.ne_none_iff_exists'.mp ((h.mem_order_iff horder).mp hpre)
    obtain ⟨tab, node, htab, hnode, hshown⟩ := h.exists_tab hv
    rw [rangeIterator_eq htab hnode]
    exact (newInternalIterator_returns_iff hshown (hspace node (List.mem_of_getElem? hnode))
      (hdecode pre v hv) P.opts).mpr (hall pre tab node v htab hnode hv)

/-- **`NewIterator` merges exactly the chunks that have been appended.** Whatever the order of the
iteration, there is one child for each chunk of each prefix, in the order of the appends, and it
hands out the pairs of that chunk; and the prefixes are those that something has been appended to.
The chunks are such that the iterator decodes them. -/
theorem newIterator_children (hops : ∀ op ∈ ops, op.Plain)
    (hrun : run (step P) (fresh P) ops = .ok c) {order : List Bytes}
    (horder : order.Perm c.prefix2range.keys)
    (hspace : ∀ node ∈ c.pop.nodes, node.buf + node.bufSize < 2 ^ 64)
    (hdecode : ∀ pre, ∀ a ∈ appendedTo pre ops,
      Decodes newIter a.chunkData (decode a.chunkData)) :
    ∃ children, newIterator P newIter order c = .ok children ∧
      List.Forall₂ (fun pre its =>
        List.Forall₂ (fun a it => HandsOut c.pop.pool.mem it (decode a.chunkData))
          (appendedTo pre ops) its) order children ∧
      ∀ pre, pre ∈ order ↔ appendedTo pre ops ≠ [] := by
  have hshows := shows_plain hops hrun
  have hviews : ∀ pre v, plainView (appendedTo pre ops) = some v → ∀ a ∈ v.since,
      Decodes newIter a.chunkData (decode a.chunkData) := by
    intro pre v hv
    obtain ⟨-, rfl⟩ := plainView_eq_some.mp hv
    exact hdecode pre
  obtain ⟨children, hchildren⟩ := (hshows.newIterator_returns_iff horder hspace hviews).mpr
    fun pre tab node v _ _ hv => by
      obtain ⟨-, rfl⟩ := plainView_eq_some.mp hv
      exact nofun
  refine ⟨children, hchildren, ?_, fun pre => ?_⟩
  · refine (hshows.childrenOf horder hspace hviews hchildren).imp ?_
    rintro pre its ⟨v, hv, -, hits⟩
    obtain ⟨-, rfl⟩ := plainView_eq_some.mp hv
    exact hits
  · rw [hshows.mem_order_iff horder, Ne, plainView_eq_none]

/-- **`NewIterator` after any life of the cache**, restarts and `CleanUp` included. It returns
exactly when the constructor of the iterator does over the blocks that a `CleanUp` has left listed.
It then merges, for each prefix with a view, one child for each block that is listed, and those
behind the older blocks hand out the pairs of the chunks appended since the last `CleanUp` or
restart. The chunks are such that the iterator decodes them. -/
theorem newIterator_views (hops : ∀ op ∈ ops, op.Followed P)
    (hrun : run (step P) (fresh P) ops = .ok c) {order : List Bytes}
    (horder : order.Perm c.prefix2range.keys)
    (hspace : ∀ node ∈ c.pop.nodes, node.buf + node.bufSize < 2 ^ 64) :
    ∃ views, run Views.step .none ops = .ok views ∧
      (∀ pre, pre ∈ order ↔ views pre ≠ none) ∧
      ((∀ pre v, views pre = some v → ∀ a ∈ v.since,
          Decodes newIter a.chunkData (decode a.chunkData)) →
        ((∃ children, newIterator P newIter order c = .ok children) ↔
          ∀ pre tab node v, c.prefix2range.lookup pre = some tab →
            c.pop.nodes[tab.nonVolatileTab]? = some node → views pre = some v →
            OlderRead newIter v (c.rangeState tab node)) ∧
        ∀ children, newIterator P newIter order c = .ok children →
          List.Forall₂ (fun pre its => ∃ v, views pre = some v ∧
            ChildrenOf c.pop.pool.mem decode v its) order children) := by
  obtain ⟨views, hviews, hshows⟩ := exists_shows hops hrun
  exact ⟨views, hviews, fun _ => hshows.mem_order_iff horder, fun hdecode =>
    ⟨hshows.newIterator_returns_iff horder hspace hdecode,
      fun _ hchildren => hshows.childrenOf horder hspace hdecode hchildren⟩⟩

end Children

end Reads

/-! ### A small store -/

/-- The small cache with keys in the order of their bytes. -/
def storeParams : CacheParams := { smallParams with icmp := compare }

/-- Two chunks under one prefix that share a key, the second during a compaction. -/
def storeOps : List CacheOp :=
  [.appendToRange [7] FixedRangeTab.zeroTailChunk.args, .onTab [7] (.setCompactionWorking true),
    .appendToRange [7] FixedRangeTab.newerChunk.args, .maybeNeedCompaction [[7]] (0, 0)]

theorem storeOps_plain : ∀ op ∈ storeOps, op.Plain := by
  simp [storeOps, CacheOp.Plain]

theorem storeOps_run :
    ∃ c, run (step storeParams) (fresh storeParams) storeOps = .ok c ∧
      c.prefix2range.keys = [[7]] ∧
      ∀ node ∈ c.pop.nodes, node.buf + node.bufSize < 2 ^ 64 := by
  refine ⟨_, rfl, rfl, ?_⟩
  decide

/-- The chunks of the small store. -/
def storeChunks (pre : Bytes) : List (SortedChunk storeParams.icmp) :=
  if pre = [7] then [FixedRangeTab.zeroTailChunk, FixedRangeTab.newerChunk] else []

theorem map_storeChunks (pre : Bytes) :
    (storeChunks pre).map SortedChunk.args = appendedTo pre storeOps := by
  by_cases h : pre = [7]
  · subst h
    rfl
  · simp [storeChunks, appendedTo, storeOps, h, Ne.symm h]

theorem decodes_storeChunks (pre : Bytes) : ∀ chunk ∈ storeChunks pre,
    Decodes (FixedRangeTab.constructIter 0) chunk.args.chunkData chunk.pairs := by
  intro chunk hchunk
  rw [storeChunks] at hchunk
  split at hchunk
  · exact FixedRangeTab.decodes_small chunk hchunk
  · cases hchunk

/-- What the chunks of the small store decode to. -/
def storePairs (chunkData : Bytes) : List (Bytes × Bytes) :=
  if chunkData = FixedRangeTab.newerChunk.args.chunkData then FixedRangeTab.newerChunk.pairs
  else FixedRangeTab.zeroTailChunk.pairs

theorem decodes_storePairs {a : AppendArgs}
    (ha : a ∈ [FixedRangeTab.zeroTailChunk.args, FixedRangeTab.newerChunk.args]) :
    Decodes (FixedRangeTab.constructIter 0) a.chunkData (storePairs a.chunkData) := by
  rcases List.mem_pair.mp ha with rfl | rfl
  · exact FixedRangeTab.decodes_small FixedRangeTab.zeroTailChunk (by simp)
  · exact FixedRangeTab.decodes_small FixedRangeTab.newerChunk (by simp)

theorem get_refines_small :
    ∃ c, run (step storeParams) (fresh storeParams) storeOps = .ok c ∧
      get storeParams (List.take 1) (FixedRangeTab.constructIter 0) c [7] []
        = scanChunks storeParams [7] [] (storeChunks [7]) ∧
      ((∀ chunk ∈ storeChunks [7], Contains storeParams.icmp [7] chunk.pairs →
          storeParams.opts.keyMayMatch [7] chunk.args.bloomData = true) →
        (Answers (get storeParams (List.take 1) (FixedRangeTab.constructIter 0) c [7] [])
            (lookup storeParams.icmp [7] ((storeChunks [7]).map SortedChunk.pairs)) ↔
          storeChunks [7] = [] ∨
            HitBeforeMiss storeParams.icmp [7]
              ((storeChunks [7]).map (asked storeParams [7])).reverse)) := by
  have htrans : Std.TransCmp storeParams.icmp :=
    inferInstanceAs (Std.TransCmp (compare : Bytes → Bytes → Ordering))
  obtain ⟨c, hrun, -, hspace⟩ := storeOps_run
  exact ⟨c, hrun, get_refines storeOps_plain hrun rfl map_storeChunks decodes_storeChunks
    hspace (List.take 1) [7] []⟩

/-- A chunk before a restart, and one behind it. -/
def storeLife : List CacheOp :=
  [.appendToRange [7] FixedRangeTab.zeroTailChunk.args, .reopen,
    .appendToRange [7] FixedRangeTab.newerChunk.args]

theorem storeLife_followed : ∀ op ∈ storeLife, op.Followed storeParams := by
  simp [storeLife, CacheOp.Followed, storeParams, smallParams]

theorem storeLife_run :
    ∃ c, run (step storeParams) (fresh storeParams) storeLife = .ok c ∧
      c.prefix2range.keys = [[7]] ∧
      ∀ node ∈ c.pop.nodes, node.buf + node.bufSize < 2 ^ 64 := by
  refine ⟨_, rfl, rfl, ?_⟩
  decide

/-- Behind the restart the index lists one of the two chunks. -/
theorem storeLife_views :
    ∃ views v, run Views.step .none storeLife = .ok views ∧ views [7] = some v ∧ v.older = [] ∧
      v.since = [FixedRangeTab.newerChunk.args] ∧ v.index.length < 2 ^ 64 := by
  refine ⟨_, _, rfl, rfl, rfl, rfl, ?_⟩
  decide

theorem get_views_small :
    ∃ c, run (step storeParams) (fresh storeParams) storeLife = .ok c ∧
      get storeParams (List.take 1) (FixedRangeTab.constructIter 0) c [7] []
        = scan storeParams.icmp [7] []
          ([FixedRangeTab.newerChunk].map (asked storeParams [7])).reverse := by
  have htrans : Std.TransCmp storeParams.icmp :=
    inferInstanceAs (Std.TransCmp (compare : Bytes → Bytes → Ordering))
  obtain ⟨c, hrun, -, hspace⟩ := storeLife_run
  obtain ⟨views, v, hviews, hv, holder, hsince, hlen⟩ := storeLife_views
  obtain ⟨views', hviews', -, hget⟩ := get_views storeLife_followed hrun rfl hspace (List.take 1)
    [7] []
  obtain rfl : views = views' := Except.ok.inj (hviews.symm.trans hviews')
  refine ⟨c, hrun, (hget v hv hlen [FixedRangeTab.newerChunk] hsince.symm ?_ ?_).2 holder⟩
  · intro chunk hchunk
    exact FixedRangeTab.decodes_small chunk (List.mem_cons_of_mem _ hchunk)
  · intro chunk _ _
    rfl

theorem newIterator_children_small :
    ∃ c children, run (step storeParams) (fresh storeParams) storeOps = .ok c ∧
      newIterator storeParams (FixedRangeTab.constructIter 0) [[7]] c = .ok children ∧
      List.Forall₂ (fun pre its =>
        List.Forall₂ (fun a it => HandsOut c.pop.pool.mem it (storePairs a.chunkData))
          (appendedTo pre storeOps) its) [[7]] children ∧
      ∀ pre, pre ∈ [[7]] ↔ appendedTo pre storeOps ≠ [] := by
  obtain ⟨c, hrun, hkeys, hspace⟩ := storeOps_run
  have horder : [[7]].Perm c.prefix2range.keys := hkeys ▸ List.Perm.refl _
  have hdecode : ∀ pre, ∀ a ∈ appendedTo pre storeOps,
      Decodes (FixedRangeTab.constructIter 0) a.chunkData (storePairs a.chunkData) := by
    intro pre a ha
    rw [← map_storeChunks, storeChunks] at ha
    split at ha
    · exact decodes_storePairs ha
    · cases ha
  obtain ⟨children, hchildren⟩ := newIterator_children storeOps_plain hrun horder hspace hdecode
  exact ⟨c, children, hrun, hchildren⟩

theorem newIterator_views_small :
    ∃ c views children, run (step storeParams) (fresh storeParams) storeLife = .ok c ∧
      run Views.step .none storeLife = .ok views ∧
      newIterator storeParams (FixedRangeTab.constructIter 0) [[7]] c = .ok children ∧
      List.Forall₂ (fun pre its => ∃ v, views pre = some v ∧
        ChildrenOf c.pop.pool.mem storePairs v its) [[7]] children := by
  obtain ⟨c, hrun, hkeys, hspace⟩ := storeLife_run
  obtain ⟨views, v, hviews, hv, holder, hsince, -⟩ := storeLife_views
  have horder : [[7]].Perm c.prefix2range.keys := hkeys ▸ List.Perm.refl _
  obtain ⟨views', hviews', hmem, hchildren⟩ :=
    newIterator_views storeLife_followed hrun horder hspace
  obtain rfl : views = views' := Except.ok.inj (hviews.symm.trans hviews')
  have honly : ∀ pre w, views pre = some w → w = v := by
    intro pre w hw
    obtain rfl : pre = [7] := List.mem_singleton.mp ((hmem pre).mpr (by rw [hw]; exact nofun))
    exact Option.some.inj (hw.symm.trans hv)
  obtain ⟨hreturns, heach⟩ := hchildren fun pre w hw a ha => by
    rw [honly pre w hw, hsince] at ha
    exact decodes_storePairs (List.mem_cons_of_mem _ ha)
  obtain ⟨children, hall⟩ := hreturns.mpr fun pre tab node w _ _ hw => by
    rw [honly pre w hw, OlderRead, holder]
    exact nofun
  exact ⟨c, views, children, hrun, hviews, hall, heach children hall⟩

end FixedRangeChunkBasedNVMWriteCache

end RangeCache
