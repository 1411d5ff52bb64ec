import RangeCache.Lib.ChainHeap
import RangeCache.Lib.FallibleRun
import RangeCache.Pmem

/-!
# The template map

The header declares a map of its own, `pmem_hash_map<T>`: a table of singly linked chains whose
nodes point to contents. `put` never looks for an equal content; it pushes a node onto the chain of
the bucket. `getAll` walks the chains, bucket after bucket.

A `persistent_ptr<Node2>` is the node's index in the order of allocation; a `persistent_ptr<T>` is
null or a content of type `C`, and `hashCode` is the contents' method. `loadFactor_`, `threshold_`
and `size_` are never read and left out. The constructor has the body of `init`; which lengths it
accepts is for the library to say.

## Main definitions

* `Node2`, `PmemHashMapTemplate`, `init`, `put`, `getAll`
* `blank` — the map that `init` leaves
* `walkChain`, `scanTable` — the loops of `getAll`, for any kind of node
* `MapOk` — the map holds a list of contents

## Main results

* `scanTable_eq` — the loops of `getAll` list the buckets in order, each newest first
* `getAll_putAll` — no content is lost or duplicated
-/

namespace RangeCache

open ChainHeap FallibleRun

/-! ## Scanning a table -/

section Scan

variable {α β : Type}

/-- `tab_[i]`. -/
def slotAt (tab : List (Option ℕ)) (i : ℕ) : Except Fault (Option ℕ) :=
  match tab[i]? with
  | some head => .ok head
  | none => .error .outOfBounds

/-- `while (node != nullptr)`: what each node of a chain contributes is pushed to the vector.
`fuel` bounds the turns: a chain with more turns than nodes is cyclic. -/
def walkChain (next : α → Option ℕ) (content : α → β) (nodes : List α) :
    (fuel : ℕ) → Option ℕ → List β → Except Fault (List β)
  | _, none, vec => .ok vec
  | 0, some _, _ => .error .diverges
  | fuel + 1, some id, vec =>
    match nodes[id]? with
    | some node => walkChain next content nodes fuel (next node) (vec ++ [content node])
    | none => .error .outOfBounds

/-- `for (i = 0; i < tablen; ++i)`, with `remaining = tablen - i`. The counter has the values below
`limit`; only a signed one can run out of them. -/
def scanTable (next : α → Option ℕ) (content : α → β) (limit : ℕ) (nodes : List α)
    (tab : List (Option ℕ)) : (remaining i : ℕ) → List β → Except Fault (List β)
  | 0, _, vec => .ok vec
  | remaining + 1, i, vec => do
    let node ← slotAt tab i
    let vec ← walkChain next content nodes nodes.length node vec
    if i + 1 < limit then
      scanTable next content limit nodes tab remaining (i + 1) vec
    else
      .error .signedOverflow

variable {next : α → Option ℕ} {keyOf : α → ℕ} {content : α → β} {nodes : List α}
  {tab : List (Option ℕ)}

/-- What a bucket contributes, newest first. -/
def bucketEntries (keyOf : α → ℕ) (content : α → β) (nodes : List α) (b : ℕ) : List β :=
  (nodes.filter fun a => keyOf a = b).reverse.map content

/-- A new node contributes in front of its own bucket. -/
theorem bucketEntries_append (a : α) (b : ℕ) :
    bucketEntries keyOf content (nodes ++ [a]) b =
      if keyOf a = b then content a :: bucketEntries keyOf content nodes b
      else bucketEntries keyOf content nodes b := by
  by_cases h : keyOf a = b <;> simp [bucketEntries, List.filter_append, h]

theorem slotAt_of_getElem? {i : ℕ} {head : Option ℕ} (h : tab[i]? = some head) :
    slotAt tab i = .ok head := by
  rw [slotAt, h]

/-- The walk along a chain lists its nodes. -/
theorem walkChain_eq {head : Option ℕ} {ids : List ℕ} (h : Chain next nodes head ids) {fuel : ℕ}
    (hfuel : ids.length ≤ fuel) (vec : List β) :
    walkChain next content nodes fuel head vec =
      .ok (vec ++ (ids.filterMap fun id => nodes[id]?).map content) := by
  induction h generalizing fuel vec with
  | nil =>
    rw [List.filterMap_nil, List.map_nil, List.append_nil]
    cases fuel <;> rfl
  | @cons id node ids hnode _ ih =>
    obtain ⟨fuel, rfl⟩ : ∃ k, fuel = k + 1 := ⟨fuel - 1, by simp at hfuel; omega⟩
    rw [walkChain, hnode]
    simp only
    rw [ih (by simpa using hfuel), List.filterMap_cons_some hnode, List.map_cons,
      List.append_assoc, List.singleton_append]

/-- The walk along the chain of a bucket. -/
theorem walkChain_bucket {b : ℕ} {head : Option ℕ}
    (h : Chain next nodes head (bucket keyOf nodes b)) (vec : List β) :
    walkChain next content nodes nodes.length head vec =
      .ok (vec ++ bucketEntries keyOf content nodes b) := by
  have hids : (bucket keyOf nodes b).filterMap (fun id => nodes[id]?)
      = (nodes.filter fun a => keyOf a = b).reverse := by
    have hbucket : (bucket keyOf nodes b).map (fun id => nodes[id]?)
        = (nodes.filter fun a => keyOf a = b).reverse.map some := map_getElem?_bucket b
    have hmap := congrArg (List.filterMap fun a => a) hbucket
    simpa [List.filterMap_map, Function.comp_def] using hmap
  rw [walkChain_eq h (length_bucket_le b), hids]
  rfl

/-- **The scan of a table** lists its buckets in order, as long as the counter lasts. -/
theorem scanTable_eq (h : Table next keyOf nodes tab) {limit remaining i : ℕ}
    (hle : i + remaining ≤ tab.length) (vec : List β) :
    scanTable next content limit nodes tab remaining i vec =
      if i + remaining < limit ∨ remaining = 0 then
        .ok (vec ++ (List.range' i remaining).flatMap (bucketEntries keyOf content nodes))
      else .error .signedOverflow := by
  induction remaining generalizing i vec with
  | zero => simp [scanTable]
  | succ remaining ih =>
    have hslot : tab[i]? = some tab[i] := List.getElem?_eq_getElem (by omega)
    rw [scanTable, slotAt_of_getElem? hslot, ok_bind, walkChain_bucket (h.chain i _ hslot),
      ok_bind]
    by_cases hlimit : i + 1 < limit
    · rw [if_pos hlimit, ih (by omega), List.range'_succ, List.flatMap_cons, List.append_assoc]
      exact if_congr (by omega) rfl rfl
    · rw [if_neg hlimit, if_neg (by omega)]

end Scan

/-! ## The map -/

/-- A node: both pointers of a new one are null. -/
structure Node2 (C : Type) where
  next : Option ℕ
  pContent : Option C

/-- The map, and the nodes it has allocated. -/
structure PmemHashMapTemplate (C : Type) where
  tabLen : ℕ
  tab : List (Option ℕ)
  nodes : List (Node2 C)

namespace PmemHashMapTemplate

variable {C : Type}

/-- A new map: the table has all its slots, and `tabLen_` keeps 32 bits of their number. -/
def blank (tabLen : UInt64) : PmemHashMapTemplate C :=
  { tabLen := tabLen.toNat % 2 ^ 32, tab := List.replicate tabLen.toNat none, nodes := [] }

/-- `init`. A slot is a `persistent_ptr` of 16 bytes; `txAlloc` says what the library allocates. -/
def init (txAlloc : ℕ → Bool) (tabLen : UInt64) : Except Fault (PmemHashMapTemplate C) := do
  let tab ← makePersistentArray txAlloc 16 none tabLen
  return { blank tabLen with tab }

def remainder (a b : ℕ) : Except Fault ℕ := if b = 0 then .error .divideByZero else .ok (a % b)

/-- `put`. The index is reduced twice. -/
def put (hashCode : C → UInt64) (m : PmemHashMapTemplate C) (pContent : Option C) :
    Except Fault (PmemHashMapTemplate C) :=
  match pContent with
  | none => .error .nullDeref
  | some content => do
    let hash ← remainder (hashCode content).toNat m.tabLen
    let idx ← remainder hash m.tabLen
    let bucketHeadNode ← slotAt m.tab idx
    let newhead := m.nodes.length
    return { m with
      nodes := m.nodes ++ [⟨bucketHeadNode, pContent⟩],
      tab := m.tab.set idx (some newhead) }

/-- `getAll` appends to the vector it is given; its counter is a `size_t`. -/
def getAll (m : PmemHashMapTemplate C) (contentVec : List (Option C)) :
    Except Fault (List (Option C)) :=
  scanTable Node2.next Node2.pContent (2 ^ 64) m.nodes m.tab m.tabLen 0 contentVec

/-- A sequence of puts. -/
def putAll (hashCode : C → UInt64) (m : PmemHashMapTemplate C) (cs : List C) :
    Except Fault (PmemHashMapTemplate C) :=
  run (put hashCode) m (cs.map some)

/-! ## What the map holds -/

/-- The bucket of a content. -/
def bucketOf (hashCode : C → UInt64) (tabLen : ℕ) (c : C) : ℕ := (hashCode c).toNat % tabLen

/-- The bucket of a node; one without content has none. -/
def slotOf (hashCode : C → UInt64) (tabLen : ℕ) (node : Node2 C) : ℕ :=
  (node.pContent.map (bucketOf hashCode tabLen)).getD tabLen

/-- **The invariant of the map.** Its nodes hold the contents `cs` in the order they were put, and
its slots head the chains of their buckets. -/
structure MapOk (hashCode : C → UInt64) (m : PmemHashMapTemplate C) (cs : List C) : Prop where
  tab_length : m.tab.length = m.tabLen
  tabLen_pos : 0 < m.tabLen
  tabLen_lt : m.tabLen < 2 ^ 32
  table : Table Node2.next (slotOf hashCode m.tabLen) m.nodes m.tab
  contents : m.nodes.map Node2.pContent = cs.map some

/-- What of it holds for any table length: the slots from `tabLen` on head empty chains. -/
structure Stores (hashCode : C → UInt64) (m : PmemHashMapTemplate C) (cs : List C) : Prop where
  le_length : m.tabLen ≤ m.tab.length
  table : Table Node2.next (slotOf hashCode m.tabLen) m.nodes m.tab
  contents : m.nodes.map Node2.pContent = cs.map some

section Spec

variable {hashCode : C → UInt64} {m m' : PmemHashMapTemplate C} {cs : List C}

theorem MapOk.stores (h : MapOk hashCode m cs) : Stores hashCode m cs :=
  ⟨Nat.le_of_eq h.tab_length.symm, h.table, h.contents⟩

/-- What `init` leaves, when the library has room for the table. -/
theorem init_eq_ok {txAlloc : ℕ → Bool} {tabLen : UInt64} :
    init txAlloc tabLen = .ok m ↔
      txAlloc (16 * tabLen.toNat) ∧ 16 * tabLen.toNat < 2 ^ 64 ∧ m = blank tabLen := by
  rw [init]
  constructor
  · intro h
    obtain ⟨tab, htab, hm⟩ := bind_eq_ok.mp h
    obtain ⟨halloc, hlt, rfl⟩ := makePersistentArray_eq_ok.mp htab
    exact ⟨halloc, hlt, (Except.ok.inj hm).symm⟩
  · rintro ⟨halloc, hlt, rfl⟩
    exact bind_eq_ok.mpr ⟨_, makePersistentArray_eq_ok.mpr ⟨halloc, hlt, rfl⟩, rfl⟩

theorem stores_blank (hashCode : C → UInt64) (tabLen : UInt64) :
    Stores hashCode (blank tabLen) [] :=
  ⟨by rw [blank, List.length_replicate]; exact Nat.mod_le _ _, Table.empty tabLen.toNat, rfl⟩

theorem mapOk_blank (hashCode : C → UInt64) {tabLen : UInt64} (hpos : 0 < tabLen.toNat)
    (hlt : tabLen.toNat < 2 ^ 32) :
    MapOk hashCode (blank tabLen) [] := by
  have htrunc : tabLen.toNat % 2 ^ 32 = tabLen.toNat := Nat.mod_eq_of_lt hlt
  refine ⟨?_, ?_, ?_, (stores_blank hashCode tabLen).table, rfl⟩
  · rw [blank, htrunc, List.length_replicate]
  · rw [blank, htrunc]
    exact hpos
  · rw [blank, htrunc]
    exact hlt

/-- The bucket of a content is a slot. -/
theorem Stores.exists_head (h : Stores hashCode m cs) (hpos : 0 < m.tabLen) (c : C) :
    ∃ head, m.tab[bucketOf hashCode m.tabLen c]? = some head :=
  ⟨_, List.getElem?_eq_getElem (lt_of_lt_of_le (Nat.mod_lt _ hpos) h.le_length)⟩

theorem MapOk.exists_head (h : MapOk hashCode m cs) (c : C) :
    ∃ head, m.tab[bucketOf hashCode m.tabLen c]? = some head :=
  h.stores.exists_head h.tabLen_pos c

/-- Everything a `put` does. Reducing the index a second time changes nothing. -/
theorem put_of_pos (hpos : 0 < m.tabLen) {c : C} {head : Option ℕ}
    (hhead : m.tab[bucketOf hashCode m.tabLen c]? = some head) :
    put hashCode m (some c) = .ok { m with
      nodes := m.nodes ++ [⟨head, some c⟩],
      tab := m.tab.set (bucketOf hashCode m.tabLen c) (some m.nodes.length) } := by
  have hidx : ∀ a, remainder a m.tabLen = .ok (a % m.tabLen) := fun a => if_neg (Nat.ne_of_gt hpos)
  have hslot : slotAt m.tab ((hashCode c).toNat % m.tabLen) = .ok head := slotAt_of_getElem? hhead
  simp only [put, hidx, ok_bind, Nat.mod_mod]
  rw [hslot, ok_bind]
  rfl

theorem put_eq (h : MapOk hashCode m cs) {c : C} {head : Option ℕ}
    (hhead : m.tab[bucketOf hashCode m.tabLen c]? = some head) :
    put hashCode m (some c) = .ok { m with
      nodes := m.nodes ++ [⟨head, some c⟩],
      tab := m.tab.set (bucketOf hashCode m.tabLen c) (some m.nodes.length) } :=
  put_of_pos h.tabLen_pos hhead

/-- A new node in front of the chain of its bucket stores one content more. -/
theorem Stores.push (h : Stores hashCode m cs) {c : C} {head : Option ℕ}
    (hhead : m.tab[bucketOf hashCode m.tabLen c]? = some head) :
    Stores hashCode { m with
      nodes := m.nodes ++ [⟨head, some c⟩],
      tab := m.tab.set (bucketOf hashCode m.tabLen c) (some m.nodes.length) } (cs ++ [c]) := by
  refine ⟨?_, h.table.push (a := ⟨head, some c⟩) hhead rfl, ?_⟩
  · rw [List.length_set]
    exact h.le_length
  · rw [List.map_append, List.map_append, h.contents]
    rfl

/-- **`put` adds its content in front of its bucket.** -/
theorem MapOk.put (h : MapOk hashCode m cs) {c : C}
    (hput : PmemHashMapTemplate.put hashCode m (some c) = .ok m') :
    MapOk hashCode m' (cs ++ [c]) := by
  obtain ⟨head, hhead⟩ := h.exists_head c
  rw [put_eq h hhead, Except.ok.injEq] at hput
  subst hput
  have hpush := h.stores.push hhead
  refine ⟨?_, h.tabLen_pos, h.tabLen_lt, hpush.table, hpush.contents⟩
  rw [List.length_set]
  exact h.tab_length

/-- A sequence of puts stores what is put. -/
theorem Stores.putAll (h : Stores hashCode m cs) (hpos : 0 < m.tabLen) (cs' : List C) :
    ∃ m', PmemHashMapTemplate.putAll hashCode m cs' = .ok m' ∧ m'.tabLen = m.tabLen ∧
      m'.tab.length = m.tab.length ∧ Stores hashCode m' (cs ++ cs') := by
  induction cs' generalizing m cs with
  | nil => exact ⟨m, rfl, rfl, rfl, by rwa [List.append_nil]⟩
  | cons c cs' ih =>
    obtain ⟨head, hhead⟩ := h.exists_head hpos c
    obtain ⟨m', hrun, hlen, htab, hm'⟩ := ih (h.push hhead) hpos
    refine ⟨m', run_cons_ok.mpr ⟨_, put_of_pos hpos hhead, hrun⟩, hlen, ?_, ?_⟩
    · rw [htab, List.length_set]
    · rwa [List.append_assoc] at hm'

/-- A sequence of puts succeeds, and the map holds what was put. -/
theorem MapOk.putAll (h : MapOk hashCode m cs) (cs' : List C) :
    ∃ m', PmemHashMapTemplate.putAll hashCode m cs' = .ok m' ∧ m'.tabLen = m.tabLen ∧
      MapOk hashCode m' (cs ++ cs') := by
  obtain ⟨m', hrun, hlen, htab, hm'⟩ := h.stores.putAll h.tabLen_pos cs'
  refine ⟨m', hrun, hlen, ?_, ?_, ?_, hm'.table, hm'.contents⟩
  · rw [htab, hlen]
    exact h.tab_length
  · rw [hlen]
    exact h.tabLen_pos
  · rw [hlen]
    exact h.tabLen_lt

/-- What a bucket of the map lists. -/
theorem Stores.bucketEntries_eq (h : Stores hashCode m cs) (b : ℕ) :
    bucketEntries (slotOf hashCode m.tabLen) Node2.pContent m.nodes b =
      (cs.filter fun c => bucketOf hashCode m.tabLen c = b).reverse.map some := by
  have hnodes := List.filter_map (f := (Node2.pContent : Node2 C → Option C))
    (p := fun o => decide ((o.map (bucketOf hashCode m.tabLen)).getD m.tabLen = b))
    (l := m.nodes)
  rw [h.contents, List.filter_map] at hnodes
  rw [bucketEntries, List.map_reverse, List.map_reverse]
  exact congrArg List.reverse hnodes.symm

/-- A scan of the map lists the buckets in order, as long as the counter lasts. -/
theorem Stores.scanTable_eq (h : Stores hashCode m cs) (limit : ℕ) (contentVec : List (Option C)) :
    scanTable Node2.next Node2.pContent limit m.nodes m.tab m.tabLen 0 contentVec =
      if m.tabLen < limit ∨ m.tabLen = 0 then
        .ok (contentVec ++ ((List.range m.tabLen).flatMap fun b =>
          (cs.filter fun c => bucketOf hashCode m.tabLen c = b).reverse).map some)
      else .error .signedOverflow := by
  rw [RangeCache.scanTable_eq h.table (by rw [Nat.zero_add]; exact h.le_length), Nat.zero_add,
    List.range_eq_range', List.map_flatMap]
  refine if_congr Iff.rfl ?_ rfl
  refine congrArg (fun l => Except.ok (contentVec ++ l)) (List.flatMap_congr fun b _ => ?_)
  exact h.bucketEntries_eq b

/-- A scan whose counter lasts lists every stored content once. -/
theorem Stores.scanTable_perm (h : Stores hashCode m cs) (hpos : 0 < m.tabLen) (limit : ℕ)
    (hlt : m.tabLen < limit) :
    ∃ all : List C, all.Perm cs ∧
      scanTable Node2.next Node2.pContent limit m.nodes m.tab m.tabLen 0 [] =
        .ok (all.map some) := by
  refine ⟨_, flatMap_filter_perm (bucketOf hashCode m.tabLen) fun c _ => Nat.mod_lt _ hpos, ?_⟩
  rw [h.scanTable_eq, if_pos (.inl hlt), List.nil_append]

/-- `getAll` lists the buckets in order. -/
theorem MapOk.getAll (h : MapOk hashCode m cs) (contentVec : List (Option C)) :
    PmemHashMapTemplate.getAll m contentVec =
      .ok (contentVec ++ ((List.range m.tabLen).flatMap fun b =>
        (cs.filter fun c => bucketOf hashCode m.tabLen c = b).reverse).map some) := by
  have hlt := h.tabLen_lt
  rw [PmemHashMapTemplate.getAll, h.stores.scanTable_eq, if_pos (.inl (by omega))]

/-- The slots of the map head disjoint chains, one for each bucket, that end and have every node of
the bucket on them once. -/
structure ChainsPartition (hashCode : C → UInt64) (m : PmemHashMapTemplate C) : Prop where
  chain : ∀ b < m.tabLen, ∃ head ids, m.tab[b]? = some head ∧ Chain Node2.next m.nodes head ids ∧
    ids.Nodup ∧ ∀ id, id ∈ ids ↔ ∃ node c, m.nodes[id]? = some node ∧ node.pContent = some c ∧
      bucketOf hashCode m.tabLen c = b
  disjoint : ∀ (b b' : ℕ) (head head' : Option ℕ) (ids ids' : List ℕ), b ≠ b' →
    m.tab[b]? = some head → m.tab[b']? = some head' → Chain Node2.next m.nodes head ids →
    Chain Node2.next m.nodes head' ids' → ids.Disjoint ids'

/-- A node is on the chain of the bucket of its content. -/
theorem MapOk.mem_bucket_iff (h : MapOk hashCode m cs) {b id : ℕ} :
    id ∈ bucket (slotOf hashCode m.tabLen) m.nodes b ↔ ∃ node c, m.nodes[id]? = some node ∧
      node.pContent = some c ∧ bucketOf hashCode m.tabLen c = b := by
  rw [mem_bucket]
  constructor
  · rintro ⟨node, hnode, hslot⟩
    have hmem : node.pContent ∈ cs.map some := by
      rw [← h.contents]
      exact List.mem_map_of_mem (List.mem_of_getElem? hnode)
    obtain ⟨c, -, hc⟩ := List.mem_map.mp hmem
    refine ⟨node, c, hnode, hc.symm, ?_⟩
    rw [slotOf, ← hc] at hslot
    exact hslot
  · rintro ⟨node, c, hnode, hc, hb⟩
    refine ⟨node, hnode, ?_⟩
    rw [slotOf, hc]
    exact hb

theorem MapOk.chainsPartition (h : MapOk hashCode m cs) : ChainsPartition hashCode m := by
  constructor
  · intro b hb
    have hhead : m.tab[b]? = some _ := List.getElem?_eq_getElem (by rw [h.tab_length]; exact hb)
    exact ⟨_, _, hhead, h.table.chain b _ hhead, nodup_bucket b, fun id => h.mem_bucket_iff⟩
  · intro b b' head head' ids ids' hne hhead hhead' hids hids' id hid hid'
    rw [hids.unique (h.table.chain b head hhead)] at hid
    rw [hids'.unique (h.table.chain b' head' hhead')] at hid'
    obtain ⟨node, hnode, hslot⟩ := mem_bucket.mp hid
    obtain ⟨node', hnode', hslot'⟩ := mem_bucket.mp hid'
    rw [hnode, Option.some.injEq] at hnode'
    subst hnode'
    exact hne (hslot.symm.trans hslot')

end Spec

/-- **No content is lost or duplicated.** After any sequence of puts into a new map, `getAll`
appends every content as often as it was put: the buckets in order, each newest first. The nodes are
those of the puts, and the chains partition them. -/
theorem getAll_putAll (hashCode : C → UInt64) {tabLen : UInt64} (hpos : 0 < tabLen.toNat)
    (hlt : tabLen.toNat < 2 ^ 32) (cs : List C) (contentVec : List (Option C)) :
    ∃ m all, putAll hashCode (blank tabLen) cs = .ok m ∧
      getAll m contentVec = .ok (contentVec ++ all.map some) ∧
      all = ((List.range tabLen.toNat).flatMap fun b =>
        (cs.filter fun c => (hashCode c).toNat % tabLen.toNat = b).reverse) ∧
      all.Perm cs ∧ m.tabLen = tabLen.toNat ∧ m.nodes.map Node2.pContent = cs.map some ∧
      ChainsPartition hashCode m := by
  obtain ⟨m, hrun, hlen, hok⟩ := (mapOk_blank hashCode hpos hlt).putAll cs
  have htabLen : m.tabLen = tabLen.toNat := hlen.trans (Nat.mod_eq_of_lt hlt)
  rw [List.nil_append] at hok
  have hall := hok.getAll contentVec
  rw [htabLen] at hall
  refine ⟨m, _, hrun, hall, rfl, flatMap_filter_perm _ fun c _ => Nat.mod_lt _ hpos, htabLen,
    hok.contents, hok.chainsPartition⟩

/-- Three contents in two buckets; the content put twice is listed twice. -/
theorem getAll_putAll_small :
    ∃ m : PmemHashMapTemplate UInt64, putAll id (blank 2) [4, 7, 4] = .ok m ∧
      getAll m [] = .ok [some 4, some 4, some 7] := by
  have hpos : 0 < (2 : UInt64).toNat := by decide
  have hlt : (2 : UInt64).toNat < 2 ^ 32 := by decide
  obtain ⟨m, all, hrun, hgetAll, hall, -⟩ := getAll_putAll id hpos hlt [4, 7, 4] []
  refine ⟨m, hrun, ?_⟩
  rw [hgetAll, hall]
  rfl

end PmemHashMapTemplate

end RangeCache
