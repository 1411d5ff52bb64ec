import RangeCache.PmemHashMapTemplate

/-!
# Which slot a `put` uses

The length of the table is a `uint64_t`. The header's map allocates that many slots and keeps 32
bits of their number in `tabLen_`, which `put` reduces the hash by and `getAll` counts up to. As
long as these bits are not all zero, both work on the first `tabLen_` slots. If they are, a `put`
would take a remainder by zero; but a table of such a length is empty or larger than any object that
the library allocates, so `init` throws and there is no map to put into.

## Main definitions

* `Scans` — the loop of `getAll` reaches a slot and lists its chain
* `IndexesSafely` — a `put` uses a slot that exists and that `getAll` scans

## Main results

* `Stores.scans` — the slots below `tabLen_` are scanned
* `indexesSafely_iff` — which table lengths are safe by themselves
* `init_indexesSafely` — every length that `init` accepts is safe
-/

namespace RangeCache

open ChainHeap FallibleRun

namespace PmemHashMapTemplate

variable {C : Type}

/-- `getAll` scans the slot `b`: after `b` turns it walks the chain in it, and keeps what it
lists. -/
def Scans (m : PmemHashMapTemplate C) (b : ℕ) : Prop :=
  b < m.tabLen ∧ ∃ head before after rest, m.tab[b]? = some head ∧
    scanTable Node2.next Node2.pContent (2 ^ 64) m.nodes m.tab b 0 [] = .ok before ∧
    walkChain Node2.next Node2.pContent m.nodes m.nodes.length head before = .ok after ∧
    getAll m [] = .ok (after ++ rest)

/-- After any puts into the map `m₀` of `tabLen` slots, a `put` of `c` takes no remainder by zero
and links a node into one of these slots, and `getAll` scans it. -/
def IndexesSafely (hashCode : C → UInt64) (tabLen : UInt64) (m₀ : PmemHashMapTemplate C) (c : C) :
    Prop :=
  ∀ cs, ∃ m idx head, putAll hashCode m₀ cs = .ok m ∧
    idx < tabLen.toNat ∧ m.tab.length = tabLen.toNat ∧ m.tab[idx]? = some head ∧
    put hashCode m (some c) = .ok { m with
      nodes := m.nodes ++ [⟨head, some c⟩], tab := m.tab.set idx (some m.nodes.length) } ∧
    Scans m idx

section Spec

variable {hashCode : C → UInt64} {m : PmemHashMapTemplate C} {cs : List C}

/-- **The slots below `tabLen_` are scanned.** -/
theorem Stores.scans (h : Stores hashCode m cs) (hlt : m.tabLen < 2 ^ 64) {b : ℕ}
    (hb : b < m.tabLen) : Scans m b := by
  have hlength := h.le_length
  have hhead : m.tab[b]? = some _ := List.getElem?_eq_getElem (by omega)
  -- `getAll` up to any slot
  have hscan : ∀ k ≤ m.tabLen,
      scanTable Node2.next Node2.pContent (2 ^ 64) m.nodes m.tab k 0 [] =
        .ok ((List.range' 0 k).flatMap
          (bucketEntries (slotOf hashCode m.tabLen) Node2.pContent m.nodes)) := by
    intro k hk
    rw [RangeCache.scanTable_eq h.table (by omega), if_pos (.inl (by omega)), List.nil_append]
  have hall := hscan m.tabLen le_rfl
  -- the slots before `b`, then `b`, then the others
  have hsplit : List.range' 0 m.tabLen
      = List.range' 0 b ++ b :: List.range' (b + 1) (m.tabLen - (b + 1)) := by
    have hcons : b :: List.range' (b + 1) (m.tabLen - (b + 1))
        = List.range' b (m.tabLen - (b + 1) + 1) := List.range'_succ.symm
    have happend := List.range'_append_1 (s := 0) (m := b) (n := m.tabLen - (b + 1) + 1)
    rw [Nat.zero_add] at happend
    rw [hcons, happend]
    congr 1
    omega
  rw [hsplit, List.flatMap_append, List.flatMap_cons, ← List.append_assoc] at hall
  exact ⟨hb, _, _, _, _, hhead, hscan b hb.le, walkChain_bucket (h.table.chain b _ hhead) _, hall⟩

/-- Without slots in `tabLen_`, a `put` takes a remainder by zero. -/
theorem put_of_zero (hzero : m.tabLen = 0) (c : C) :
    put hashCode m (some c) = .error .divideByZero := by
  simp only [put, remainder, if_pos hzero]
  rfl

end Spec

/-- **Which table lengths are safe**: those whose lower 32 bits, which `tabLen_` keeps, are not all
zero. -/
theorem indexesSafely_iff (hashCode : C → UInt64) (tabLen : UInt64) (c : C) :
    IndexesSafely hashCode tabLen (blank tabLen) c ↔ tabLen.toNat % 2 ^ 32 ≠ 0 := by
  constructor
  · intro hsafe hzero
    obtain ⟨m, idx, head, hrun, -, -, -, hput, -⟩ := hsafe []
    cases hrun
    rw [put_of_zero (show (blank tabLen : PmemHashMapTemplate C).tabLen = 0 from hzero)] at hput
    cases hput
  · intro hne cs
    have hpos : 0 < (blank tabLen : PmemHashMapTemplate C).tabLen := Nat.pos_of_ne_zero hne
    obtain ⟨m, hrun, hlen, htab, hm⟩ := (stores_blank hashCode tabLen).putAll hpos cs
    have htabLen : m.tabLen = tabLen.toNat % 2 ^ 32 := hlen
    have hslots : m.tab.length = tabLen.toNat := by
      rw [htab, blank, List.length_replicate]
    have hm0 : 0 < m.tabLen := by rw [hlen]; exact hpos
    have hidx : bucketOf hashCode m.tabLen c < m.tabLen := Nat.mod_lt _ hm0
    obtain ⟨head, hhead⟩ := hm.exists_head hm0 c
    refine ⟨m, _, head, hrun, ?_, hslots, hhead, put_of_pos hm0 hhead, hm.scans (by omega) hidx⟩
    exact lt_of_lt_of_le hidx (by rw [htabLen]; exact Nat.mod_le _ _)

/-- **Bucket indexing is safe for every length that `init` accepts.** -/
theorem init_indexesSafely (hashCode : C → UInt64) {txAlloc : ℕ → Bool}
    (hlimits : TxAllocLimits txAlloc) {tabLen : UInt64} {m₀ : PmemHashMapTemplate C}
    (hinit : init txAlloc tabLen = .ok m₀) (c : C) : IndexesSafely hashCode tabLen m₀ c := by
  obtain ⟨halloc, hlt, rfl⟩ := init_eq_ok.mp hinit
  have htab : makePersistentArray txAlloc 16 (none : Option ℕ) tabLen = .ok _ :=
    makePersistentArray_eq_ok.mpr ⟨halloc, hlt, rfl⟩
  obtain ⟨hpos, hmax⟩ := hlimits.size_le htab
  rw [PMEMOBJ_MAX_ALLOC_SIZE] at hmax
  exact (indexesSafely_iff hashCode tabLen c).mpr (by omega)

/-- A library that allocates whatever is within its limits. -/
def roomyTxAlloc (size : ℕ) : Bool := 0 < size && size ≤ PMEMOBJ_MAX_ALLOC_SIZE

theorem txAllocLimits_roomy : TxAllocLimits roomyTxAlloc := by
  refine ⟨rfl, fun size hlt => ?_⟩
  simp only [roomyTxAlloc, not_le.mpr hlt, decide_false, Bool.and_false]

/-- A table of `2 ^ 32` slots is refused. -/
example : init roomyTxAlloc 0x100000000 = (.error .allocError :
    Except Fault (PmemHashMapTemplate UInt64)) := rfl

theorem init_indexesSafely_small :
    ∃ m₀ : PmemHashMapTemplate UInt64, init roomyTxAlloc 3 = .ok m₀ ∧
      IndexesSafely id 3 m₀ (4 : UInt64) :=
  ⟨blank 3, rfl, init_indexesSafely id txAllocLimits_roomy rfl 4⟩

end PmemHashMapTemplate

end RangeCache
