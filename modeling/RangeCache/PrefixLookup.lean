import RangeCache.MapAtomicity

/-!
# Looking a prefix up

`getNode(key, prefixLen)` hashes the first `prefixLen` bytes of the key, but compares the stored
prefixes with the whole key. The node of a prefix is found only if the prefix is all of the key. And
`get` stores the node it looks up in a variable it does not declare, and returns the buffer of
another one, which is null.

## Main definitions

* `getNodeOfPrefix`, `get` — the two lookups
* `CreatedFor` — the node that `putAndGet` created for a prefix
* `FindsNode`, `FindsBuffer` — the lookups find what insertion stored

## Main results

* `createdFor_iff` — the nodes of a run are those of its stored prefixes
* `lookup_iff` — when the lookups find what insertion stored
-/

namespace RangeCache

open ByteMemory ChainHeap FallibleRun

namespace PmemHashMap

/-! ## The lookups -/

/-- `getNode(key, prefixLen)`. The hash reads `prefixLen` bytes of the key. -/
def getNodeOfPrefix (hash : Bytes → ℕ) (s : MapState) (key : Bytes) (prefixLen : ℕ) :
    Except Fault (Option ℕ) :=
  if prefixLen ≤ key.length then
    getNode s (hash (key.take prefixLen)) key
  else
    .error .outOfBounds

/-- `get`. The result of the lookup goes to `node`; the `nod` that is returned stays null. -/
def get (hash : Bytes → ℕ) (s : MapState) (key : Bytes) (prefixLen : ℕ) :
    Except Fault (Option ℕ) := do
  let nod : Option ℕ := none
  let _node ← getNodeOfPrefix hash s key prefixLen
  match nod with
  | none => return none
  | some id =>
    let n ← deref s.nodes id
    return some n.buf

/-! ## What they should find -/

/-- A call of the run, for the prefix `pre`, returned the node, which was not there before. -/
def CreatedFor (A : Allocator) (hash : Bytes → ℕ) (seqNum : ℕ) (s₀ : MapState)
    (calls : List (Bytes × UInt64)) (pre : Bytes) (id : ℕ) : Prop :=
  ∃ i c s s', Called A hash seqNum s₀ calls i c s s' id ∧ c.1 = pre ∧ s.nodes[id]? = none

/-- `getNode` finds the node that was created for the prefix, and null if there is none. -/
def FindsNode (A : Allocator) (hash : Bytes → ℕ) (seqNum : ℕ) (s₀ : MapState)
    (calls : List (Bytes × UInt64)) (s : MapState) (key : Bytes) (prefixLen : ℕ) : Prop :=
  ∃ found, getNodeOfPrefix hash s key prefixLen = .ok found ∧
    ∀ id, found = some id ↔ CreatedFor A hash seqNum s₀ calls (key.take prefixLen) id

/-- `get` finds the buffer of that node, and null if there is none. -/
def FindsBuffer (A : Allocator) (hash : Bytes → ℕ) (seqNum : ℕ) (s₀ : MapState)
    (calls : List (Bytes × UInt64)) (s : MapState) (key : Bytes) (prefixLen : ℕ) : Prop :=
  ∃ found, get hash s key prefixLen = .ok found ∧
    ∀ buf, found = some buf ↔ ∃ id node,
      CreatedFor A hash seqNum s₀ calls (key.take prefixLen) id ∧
        s.nodes[id]? = some node ∧ node.buf = buf

/-- No stored prefix but `pre` has its hash and the key as its C string, and `pre` itself is not
stored unless it is all of the key. -/
structure Found (hash : Bytes → ℕ) (ps : List Bytes) (key pre : Bytes) : Prop where
  other : ∀ p ∈ ps, ident hash p = (hash pre, key) → p = pre
  whole : pre ∈ ps → pre = key

section Lookup

variable {A : Allocator} {hash : Bytes → ℕ} {seqNum : ℕ} {s : MapState} {ps : List Bytes}
  {pool : Pool} {tabLen : ℕ} {calls : List (Bytes × UInt64)} {pre key : Bytes} {prefixLen : ℕ}

/-! ### The nodes of a run -/

/-- A longer run makes the same calls first. -/
theorem Called.append {s₀ s s' : MapState} {i id : ℕ} {c : Bytes × UInt64}
    (h : Called A hash seqNum s₀ calls i c s s' id) (rest : List (Bytes × UInt64)) :
    Called A hash seqNum s₀ (calls ++ rest) i c s s' id := by
  obtain ⟨hc, hrun, hput⟩ := h
  have hlt : i < calls.length := (List.getElem?_eq_some_iff.mp hc).1
  refine ⟨?_, ?_, hput⟩
  · rw [List.getElem?_append_left hlt, hc]
  · rwa [List.take_append_of_le_length (Nat.le_of_lt hlt)]

/-- A node created for a prefix stores it. -/
theorem CreatedFor.stored (htab : 0 < tabLen) {id : ℕ}
    (h : CreatedFor A hash seqNum (emptyMap pool tabLen) calls pre id) :
    (storedPrefixes hash (calls.map Prod.fst))[id]? = some pre := by
  obtain ⟨i, c, s, s', hcall, rfl, hnew⟩ := h
  obtain ⟨hholds, -, ⟨p, hp, -⟩, -⟩ := hcall.spec htab
  obtain ⟨rest, hrest⟩ := prefix_storedPrefixes_take hash calls (i + 1)
  rw [List.getElem?_eq_none_iff, hholds.length] at hnew
  have hp' := hp
  rw [storedPrefixes_take_succ hcall.1, insertPrefix] at hp
  have hpre : p = c.1 := by
    split at hp
    · exact absurd (List.getElem?_eq_some_iff.mp hp).1 (Nat.not_lt.mpr hnew)
    · rcases getElem?_snoc.mp hp with hp | ⟨-, heq⟩
      · exact absurd (List.getElem?_eq_some_iff.mp hp).1 (Nat.not_lt.mpr hnew)
      · exact heq.symm
  rw [← hrest, List.getElem?_append_left (List.getElem?_eq_some_iff.mp hp').1, hp', hpre]

/-- The last call of a run creates the node for a prefix whose identity is new. -/
theorem createdFor_last (htab : 0 < tabLen) (c : Bytes × UInt64)
    (hnew : ∀ p ∈ storedPrefixes hash (calls.map Prod.fst), ident hash p ≠ ident hash c.1) :
    CreatedFor A hash seqNum (emptyMap pool tabLen) (calls ++ [c]) c.1
      (storedPrefixes hash (calls.map Prod.fst)).length := by
  obtain ⟨s, hrun, hholds⟩ := run_holds A hash seqNum pool htab calls
  obtain ⟨s', id, p, hput, hholds', hp, hident, -⟩ := putAndGet_spec A seqNum hholds c
  have hinsert : insertPrefix hash (storedPrefixes hash (calls.map Prod.fst)) c.1
      = storedPrefixes hash (calls.map Prod.fst) ++ [c.1] := by
    rw [insertPrefix, if_neg]
    rintro ⟨q, hq, heq⟩
    exact hnew q hq heq
  rw [hinsert] at hp hholds'
  have hid : id = (storedPrefixes hash (calls.map Prod.fst)).length :=
    hholds'.distinct id _ p c.1 hp (List.getElem?_concat_length ..) hident
  subst hid
  refine ⟨calls.length, c, s, s', ⟨List.getElem?_concat_length .., ?_, hput⟩, rfl, ?_⟩
  · rwa [List.take_left]
  · rw [← hholds.length]
    exact List.getElem?_eq_none le_rfl

/-- **The nodes of a run** are those of its stored prefixes. -/
theorem createdFor_iff (htab : 0 < tabLen) {id : ℕ} :
    CreatedFor A hash seqNum (emptyMap pool tabLen) calls pre id ↔
      (storedPrefixes hash (calls.map Prod.fst))[id]? = some pre := by
  refine ⟨CreatedFor.stored htab, ?_⟩
  induction calls using List.reverseRecOn with
  | nil => intro h; cases h
  | append_singleton calls c ih =>
    intro h
    have hold (hp : (storedPrefixes hash (calls.map Prod.fst))[id]? = some pre) :
        CreatedFor A hash seqNum (emptyMap pool tabLen) (calls ++ [c]) pre id := by
      obtain ⟨i, d, s, s', hcall, heq, hnew⟩ := ih hp
      exact ⟨i, d, s, s', hcall.append [c], heq, hnew⟩
    rw [List.map_append, List.map_singleton, storedPrefixes_append, insertPrefix] at h
    split at h
    · exact hold h
    · next hmiss =>
      rcases getElem?_snoc.mp h with hp | ⟨rfl, rfl⟩
      · exact hold hp
      · exact createdFor_last htab c fun p hp hident => hmiss ⟨p, hp, hident⟩

/-! ### What a lookup returns -/

/-- `getNode` finds the node whose stored prefix has the hash and the C string of the key. -/
theorem MapHolds.getNode_spec (h : MapHolds hash s ps) (hashValue : ℕ) (key : Bytes) :
    ∃ found, PmemHashMap.getNode s hashValue key = .ok found ∧ ∀ id, found = some id ↔
      ∃ p, ps[id]? = some p ∧ ident hash p = (hashValue, cstr key) := by
  refine ⟨_, h.getNode hashValue key, fun id => ?_⟩
  constructor
  · intro hfind
    have hfound := List.find?_some hfind
    exact Option.map_eq_some_iff.mp (of_decide_eq_true hfound)
  · rintro ⟨p, hp, hident⟩
    obtain ⟨node, hnode, hstores⟩ := h.exists_node hp
    have hhash : node.hash = hashValue := by
      rw [hstores.hash, show hash p = hashValue from congrArg Prod.fst hident]
    have hmem : id ∈ bucket (slotOf s.map.tabLen) s.nodes (hashValue % s.map.tabLen) :=
      mem_bucket.mpr ⟨node, hnode, by rw [slotOf, hhash]⟩
    exact h.find?_ident hp hident hmem

/-- A table without slots takes no prefix. -/
theorem tab_eq_nil (hrun : run (call A hash seqNum) (emptyMap pool 0) calls = .ok s) :
    s.map.tab = [] := by
  refine run_induction (I := fun s => s.map.tab = []) ?_ rfl hrun
  intro s c s' hs hcall
  rw [call, putAndGet, hs] at hcall
  cases hcall

/-- A table that answers has slots. -/
theorem tabLen_pos_of_getNode (hrun : run (call A hash seqNum) (emptyMap pool tabLen) calls = .ok s)
    {hashValue : ℕ} {found : Option ℕ} (h : getNode s hashValue key = .ok found) : 0 < tabLen := by
  refine Nat.pos_of_ne_zero ?_
  rintro rfl
  rw [getNode, tab_eq_nil hrun] at h
  cases h

theorem getNodeOfPrefix_eq (hlen : prefixLen ≤ key.length) :
    getNodeOfPrefix hash s key prefixLen = getNode s (hash (key.take prefixLen)) key :=
  if_pos hlen

/-- `get` returns null. -/
theorem get_eq_ok {found : Option ℕ} :
    get hash s key prefixLen = .ok found ↔
      found = none ∧ ∃ node, getNodeOfPrefix hash s key prefixLen = .ok node := by
  rw [get, bind_eq_ok]
  constructor
  · rintro ⟨node, hnode, hfound⟩
    exact ⟨(Except.ok.inj hfound).symm, node, hnode⟩
  · rintro ⟨rfl, node, hnode⟩
    exact ⟨node, hnode, rfl⟩

/-- **When `getNode` is right.** -/
theorem findsNode_iff (hrun : run (call A hash seqNum) (emptyMap pool tabLen) calls = .ok s)
    (hkey : 0 ∉ key) (hlen : prefixLen ≤ key.length) :
    FindsNode A hash seqNum (emptyMap pool tabLen) calls s key prefixLen ↔
      0 < tabLen ∧ Found hash (storedPrefixes hash (calls.map Prod.fst)) key
        (key.take prefixLen) := by
  have hpre : cstr (key.take prefixLen) = key.take prefixLen :=
    cstr_eq_self fun hmem => hkey (List.mem_of_mem_take hmem)
  rw [FindsNode, getNodeOfPrefix_eq hlen]
  constructor
  · rintro ⟨found, hget, hfound⟩
    have htab := tabLen_pos_of_getNode hrun hget
    have hholds := MapHolds.of_run htab hrun
    obtain ⟨found', hget', hspec⟩ := hholds.getNode_spec (hash (key.take prefixLen)) key
    obtain rfl : found = found' := Except.ok.inj (hget.symm.trans hget')
    rw [cstr_eq_self hkey] at hspec
    refine ⟨htab, fun p hp hident => ?_, fun hmem => ?_⟩
    · obtain ⟨id, hid⟩ := List.getElem?_of_mem hp
      have hstored := (createdFor_iff htab).mp ((hfound id).mp ((hspec id).mpr ⟨p, hid, hident⟩))
      exact Option.some.inj (hid.symm.trans hstored)
    · obtain ⟨id, hid⟩ := List.getElem?_of_mem hmem
      obtain ⟨p, hp, hident⟩ := (hspec id).mp ((hfound id).mpr ((createdFor_iff htab).mpr hid))
      obtain rfl : key.take prefixLen = p := Option.some.inj (hid.symm.trans hp)
      rw [← hpre]
      exact congrArg Prod.snd hident
  · rintro ⟨htab, hother, hwhole⟩
    have hholds := MapHolds.of_run htab hrun
    obtain ⟨found, hget, hspec⟩ := hholds.getNode_spec (hash (key.take prefixLen)) key
    rw [cstr_eq_self hkey] at hspec
    refine ⟨found, hget, fun id => ?_⟩
    rw [hspec, createdFor_iff htab]
    constructor
    · rintro ⟨p, hp, hident⟩
      rw [hp, hother p (List.mem_of_getElem? hp) hident]
    · intro hid
      refine ⟨_, hid, ?_⟩
      rw [ident, hpre]
      exact congrArg (Prod.mk _) (hwhole (List.mem_of_getElem? hid))

/-- **When `get` is right.** -/
theorem findsBuffer_iff (hrun : run (call A hash seqNum) (emptyMap pool tabLen) calls = .ok s)
    (hlen : prefixLen ≤ key.length) :
    FindsBuffer A hash seqNum (emptyMap pool tabLen) calls s key prefixLen ↔
      0 < tabLen ∧ key.take prefixLen ∉ storedPrefixes hash (calls.map Prod.fst) := by
  constructor
  · rintro ⟨found, hget, hfound⟩
    obtain ⟨rfl, node, hnode⟩ := get_eq_ok.mp hget
    rw [getNodeOfPrefix_eq hlen] at hnode
    have htab := tabLen_pos_of_getNode hrun hnode
    have hholds := MapHolds.of_run htab hrun
    refine ⟨htab, fun hmem => ?_⟩
    obtain ⟨id, hid⟩ := List.getElem?_of_mem hmem
    obtain ⟨n, hn, -⟩ := hholds.exists_node hid
    cases (hfound n.buf).mpr ⟨id, n, (createdFor_iff htab).mpr hid, hn, rfl⟩
  · rintro ⟨htab, hnot⟩
    have hholds := MapHolds.of_run htab hrun
    obtain ⟨found, hnode, -⟩ := hholds.getNode_spec (hash (key.take prefixLen)) key
    rw [← getNodeOfPrefix_eq hlen] at hnode
    refine ⟨none, get_eq_ok.mpr ⟨rfl, found, hnode⟩, fun buf => ?_⟩
    constructor
    · intro h
      cases h
    · rintro ⟨id, n, hcreated, -⟩
      exact absurd (List.mem_of_getElem? ((createdFor_iff htab).mp hcreated)) hnot

/-- **When lookup finds what insertion stored.** -/
theorem lookup_iff (hrun : run (call A hash seqNum) (emptyMap pool tabLen) calls = .ok s)
    (hkey : 0 ∉ key) (hlen : prefixLen ≤ key.length) :
    (FindsNode A hash seqNum (emptyMap pool tabLen) calls s key prefixLen ↔
      0 < tabLen ∧ Found hash (storedPrefixes hash (calls.map Prod.fst)) key
        (key.take prefixLen)) ∧
    (FindsBuffer A hash seqNum (emptyMap pool tabLen) calls s key prefixLen ↔
      0 < tabLen ∧ key.take prefixLen ∉ storedPrefixes hash (calls.map Prod.fst)) :=
  ⟨findsNode_iff hrun hkey hlen, findsBuffer_iff hrun hlen⟩

end Lookup

/-- A single prefix, of one byte. -/
def prefixCalls : List (Bytes × UInt64) := [([1], 16)]

/-- A map of one slot, over an empty pool. -/
def oneSlot : MapState := emptyMap { mem := fun _ => 0, live := [] } 1

theorem lookup_iff_small :
    ∃ s, run (call .bump (fun _ => 0) 0) oneSlot prefixCalls = .ok s ∧
      (FindsNode .bump (fun _ => 0) 0 oneSlot prefixCalls s [1, 2] 1 ↔
        0 < 1 ∧ Found (fun _ => 0) (storedPrefixes (fun _ => 0) (prefixCalls.map Prod.fst)) [1, 2]
          ([1, 2].take 1)) ∧
      (FindsBuffer .bump (fun _ => 0) 0 oneSlot prefixCalls s [1, 2] 1 ↔
        0 < 1 ∧ [1, 2].take 1 ∉ storedPrefixes (fun _ => 0) (prefixCalls.map Prod.fst)) := by
  obtain ⟨s, hrun, -⟩ := run_holds .bump (fun _ => 0) 0 { mem := fun _ => 0, live := [] }
    Nat.one_pos prefixCalls
  exact ⟨s, hrun, lookup_iff hrun (by decide) (by decide)⟩

/-- The node of the prefix is not found under a longer key, and its buffer under no key. -/
theorem lookup_misses_small :
    ∃ s, run (call .bump (fun _ => 0) 0) oneSlot prefixCalls = .ok s ∧
      ¬ FindsNode .bump (fun _ => 0) 0 oneSlot prefixCalls s [1, 2] 1 ∧
      ¬ FindsBuffer .bump (fun _ => 0) 0 oneSlot prefixCalls s [1, 2] 1 := by
  obtain ⟨s, hrun, -⟩ := run_holds .bump (fun _ => 0) 0 { mem := fun _ => 0, live := [] }
    Nat.one_pos prefixCalls
  have hstored : [1] ∈ storedPrefixes (fun _ => 0) (prefixCalls.map Prod.fst) := by
    simp [storedPrefixes, insertPrefix, prefixCalls]
  refine ⟨s, hrun, fun h => ?_, fun h => ?_⟩
  · exact absurd (((findsNode_iff hrun (by decide) (by decide)).mp h).2.whole hstored) (by decide)
  · exact ((findsBuffer_iff hrun (by decide)).mp h).2 hstored

end PmemHashMap

end RangeCache
