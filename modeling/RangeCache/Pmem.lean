import RangeCache.Lib.RecordLog

/-!
# Persistent memory and machine words

What the range cache takes from its environment: 64-bit unsigned arithmetic, the pool of
persistent bytes with its allocator, and the fixed-width integer coding of RocksDB.

The pool is one flat byte memory. `persistent_ptr<char[]>` is an offset into it, so pointer
arithmetic is addition, and nothing but the allocator keeps two objects apart. The allocator
belongs to libpmemobj; what the code relies on is recorded as the field `Allocator.fresh`.

A run of the C++ code can end in undefined behaviour, in an exception the code does not catch,
or not at all. These ends are the values of `Fault`, so a run that reaches a state is a run
without them.
-/

namespace RangeCache

open ByteMemory

/-- `Slice`, `std::string`, or a `const char *` with its length. -/
abbrev Bytes := List UInt8

/-- The ways a run can fail to return. -/
inductive Fault where
  /-- A null `persistent_ptr` is dereferenced. -/
  | nullDeref
  /-- A load or store leaves the object it is meant for. -/
  | outOfBounds
  /-- `vector::at` throws `std::out_of_range`. -/
  | outOfRange
  /-- A signed counter overflows. -/
  | signedOverflow
  /-- A remainder by zero is taken. -/
  | divideByZero
  /-- A loop does not terminate. -/
  | diverges
  /-- `make_persistent` throws `transaction_alloc_error`. -/
  | allocError
  deriving DecidableEq, Repr

/-- `size_t` and `uint64_t` arithmetic wraps. -/
def u64 (n : ℕ) : ℕ := n % 2 ^ 64

theorem u64_of_lt {n : ℕ} (h : n < 2 ^ 64) : u64 n = n := Nat.mod_eq_of_lt h

/-- One below a positive word. -/
theorem u64_pred {n : ℕ} (hpos : 0 < n) (hlt : n ≤ 2 ^ 64) : u64 (n + (2 ^ 64 - 1)) = n - 1 := by
  rw [u64, show n + (2 ^ 64 - 1) = n - 1 + 2 ^ 64 by omega, Nat.add_mod_right,
    Nat.mod_eq_of_lt (by omega)]

/-- One below zero is the largest word. -/
theorem le_u64_pred_zero {n : ℕ} (h : n < 2 ^ 64) : n ≤ u64 (0 + (2 ^ 64 - 1)) := by
  rw [u64_of_lt (by omega)]
  omega

/-- `EncodeFixed64`. -/
def encodeFixed64 (n : ℕ) : Bytes := encodeLE 8 n

/-- `DecodeFixed64` of the 8 bytes at an address. -/
def decodeFixed64 (m : Memory) (a : ℕ) : ℕ := decodeLE (read m a 8)

@[simp] theorem length_encodeFixed64 (n : ℕ) : (encodeFixed64 n).length = 8 := length_encodeLE 8 n

theorem decodeFixed64_lt (m : Memory) (a : ℕ) : decodeFixed64 m a < 2 ^ 64 := by
  have h := decodeLE_lt (read m a 8)
  rw [length_read] at h
  exact lt_of_lt_of_le h (by norm_num)

/-! ## The pool -/

/-- libpmemobj's allocator: `alloc live n` is the offset of a new object of `n` bytes when the
objects `live` are in the pool, and the new object overlaps none of them. -/
structure Allocator where
  alloc : List Extent → ℕ → ℕ
  fresh : ∀ (live : List Extent) (n : ℕ), ∀ e ∈ live, e.Disjoint ⟨alloc live n, n⟩

/-- The first offset past every extent. -/
def endOf : List Extent → ℕ
  | [] => 0
  | e :: es => max (e.base + e.size) (endOf es)

theorem le_endOf {e : Extent} {es : List Extent} (h : e ∈ es) : e.base + e.size ≤ endOf es := by
  induction es with
  | nil => simp at h
  | cons f es ih =>
    rcases List.mem_cons.mp h with rfl | h
    · exact le_max_left _ _
    · exact (ih h).trans (le_max_right _ _)

/-- An allocator that never reuses an offset. -/
def Allocator.bump : Allocator where
  alloc live _ := endOf live
  fresh live n e he x hx := by
    have := le_endOf he
    have hlow : endOf live ≤ x := hx.2.1
    omega

/-- The bytes of a pool and the objects allocated in it. -/
structure Pool where
  mem : Memory
  live : List Extent

namespace Pool

/-- `make_persistent<char[]>(n)`: value initialisation zeroes the bytes. The pool is taken to have
room, so nothing is thrown. -/
def makePersistent (A : Allocator) (p : Pool) (n : ℕ) : Pool × ℕ :=
  let base := A.alloc p.live n
  ({ mem := fill p.mem base n 0, live := ⟨base, n⟩ :: p.live }, base)

/-- `memcpy` into an object at an offset. -/
def memcpy (p : Pool) (obj : Extent) (off : ℕ) (src : Bytes) : Except Fault Pool :=
  if off + src.length ≤ obj.size then
    .ok { p with mem := write p.mem (obj.base + off) src }
  else
    .error .outOfBounds

theorem memcpy_of_le {p : Pool} {obj : Extent} {off : ℕ} {src : Bytes}
    (h : off + src.length ≤ obj.size) :
    p.memcpy obj off src = .ok { p with mem := write p.mem (obj.base + off) src } :=
  if_pos h

theorem memcpy_of_not_le {p : Pool} {obj : Extent} {off : ℕ} {src : Bytes}
    (h : ¬ off + src.length ≤ obj.size) : p.memcpy obj off src = .error .outOfBounds :=
  if_neg h

/-- A copy that succeeds writes the bytes and nothing else. -/
theorem memcpy_inv {p q : Pool} {obj : Extent} {off : ℕ} {src : Bytes}
    (h : p.memcpy obj off src = .ok q) :
    q = { p with mem := write p.mem (obj.base + off) src } := by
  rw [memcpy] at h
  split at h
  · exact (Except.ok.inj h).symm
  · cases h

/-- Two copies side by side are one copy, also when they do not fit. -/
theorem memcpy_append (p : Pool) (obj : Extent) (off : ℕ) (xs ys : Bytes) :
    (p.memcpy obj off xs).bind (fun q => q.memcpy obj (off + xs.length) ys) =
      p.memcpy obj off (xs ++ ys) := by
  by_cases hxs : off + xs.length ≤ obj.size
  · rw [memcpy_of_le hxs, Except.bind]
    by_cases hys : off + xs.length + ys.length ≤ obj.size
    · rw [memcpy_of_le hys, memcpy_of_le (by rw [List.length_append]; omega), write_append,
        Nat.add_assoc]
    · rw [memcpy_of_not_le hys, memcpy_of_not_le (by rw [List.length_append]; omega)]
  · rw [memcpy_of_not_le hxs, memcpy_of_not_le (by rw [List.length_append]; omega), Except.bind]

/-- Nothing that was allocated is freed or overwritten. -/
structure Extends (p p' : Pool) : Prop where
  live : ∀ e ∈ p.live, e ∈ p'.live
  same : ∀ e ∈ p.live, e.SameOn p.mem p'.mem

theorem Extends.refl (p : Pool) : p.Extends p :=
  ⟨fun _ he => he, fun e _ => Extent.SameOn.refl e p.mem⟩

theorem Extends.trans {p₁ p₂ p₃ : Pool} (h : p₁.Extends p₂) (h' : p₂.Extends p₃) :
    p₁.Extends p₃ :=
  ⟨fun e he => h'.live e (h.live e he),
    fun e he => (h.same e he).trans (h'.same e (h.live e he))⟩

/-- Allocation extends the pool. -/
theorem extends_makePersistent (A : Allocator) (p : Pool) (n : ℕ) :
    p.Extends (p.makePersistent A n).1 :=
  ⟨fun _ he => List.mem_cons_of_mem _ he,
    fun e he => Extent.SameOn.of_fill (f := ⟨A.alloc p.live n, n⟩) (A.fresh p.live n e he)⟩

theorem mem_live_makePersistent (A : Allocator) (p : Pool) (n : ℕ) :
    ⟨(p.makePersistent A n).2, n⟩ ∈ (p.makePersistent A n).1.live :=
  List.mem_cons_self ..

/-- The new object overlaps nothing that was allocated before. -/
theorem disjoint_makePersistent (A : Allocator) (p : Pool) (n : ℕ) {e : Extent}
    (he : e ∈ p.live) : e.Disjoint ⟨(p.makePersistent A n).2, n⟩ :=
  A.fresh p.live n e he

/-- A pool that extends `p` still does after a `memcpy` that fits into an object disjoint from
all of `p`'s: this is how code that fills a fresh object frames everything older. -/
theorem Extends.memcpy {p q : Pool} (h : p.Extends q) {obj : Extent} (off : ℕ) (src : Bytes)
    (hobj : ∀ e ∈ p.live, e.Disjoint obj) (hle : off + src.length ≤ obj.size) :
    ∃ q', q.memcpy obj off src = .ok q' ∧ p.Extends q' :=
  ⟨_, memcpy_of_le hle, h.live, fun e he => (h.same e he).trans
    (Extent.SameOn.of_write (hobj e he) (Nat.le_add_right _ _)
      (show obj.base + off + src.length ≤ obj.base + obj.size by omega))⟩

/-- A new object, filled by one copy: it holds the bytes, and everything older is left alone. -/
theorem makePersistent_memcpy (A : Allocator) (p : Pool) (src : Bytes) {n : ℕ}
    (hn : src.length = n) :
    ∃ q, (p.makePersistent A n).1.memcpy ⟨(p.makePersistent A n).2, n⟩ 0 src = .ok q ∧
      p.Extends q ∧ q.live = ⟨(p.makePersistent A n).2, n⟩ :: p.live ∧
      read q.mem (p.makePersistent A n).2 n = src := by
  obtain ⟨q, hq, hext⟩ := (extends_makePersistent A p n).memcpy
    0 src (fun e he => disjoint_makePersistent A p n he) (by simp only; omega)
  refine ⟨q, hq, hext, ?_, ?_⟩
  · rw [memcpy_inv hq]
    rfl
  · rw [memcpy_inv hq, ← hn]
    exact read_write_self _ _ src

end Pool

/-! ## Arrays -/

/-- The size of the largest object that libpmemobj allocates. -/
def PMEMOBJ_MAX_ALLOC_SIZE : ℕ := 0x3FFDFFFC0

/-- The limits of `pmemobj_tx_alloc`: it returns null for no bytes at all and for more than
`PMEMOBJ_MAX_ALLOC_SIZE`. `txAlloc size` says that it returns an object of `size` bytes; for other
sizes that is up to the pool. -/
structure TxAllocLimits (txAlloc : ℕ → Bool) : Prop where
  zero : txAlloc 0 = false
  max : ∀ size, PMEMOBJ_MAX_ALLOC_SIZE < size → txAlloc size = false

/-- `make_persistent<I[]>(N)`. The size of the array is a `size_t`; the elements are constructed one
after the other, `N` of them whatever has been allocated. -/
def makePersistentArray {α : Type} (txAlloc : ℕ → Bool) (sizeofI : ℕ) (elem : α) (N : UInt64) :
    Except Fault (List α) :=
  if txAlloc (u64 (sizeofI * N.toNat)) then
    if sizeofI * N.toNat ≤ u64 (sizeofI * N.toNat) then .ok (List.replicate N.toNat elem)
    else .error .outOfBounds
  else
    .error .allocError

theorem makePersistentArray_eq_ok {α : Type} {txAlloc : ℕ → Bool} {sizeofI : ℕ} {elem : α}
    {N : UInt64} {xs : List α} :
    makePersistentArray txAlloc sizeofI elem N = .ok xs ↔
      txAlloc (sizeofI * N.toNat) ∧ sizeofI * N.toNat < 2 ^ 64 ∧
        xs = List.replicate N.toNat elem := by
  rw [makePersistentArray]
  by_cases hlt : sizeofI * N.toNat < 2 ^ 64
  · rw [u64_of_lt hlt, if_pos le_rfl]
    cases txAlloc (sizeofI * N.toNat) with
    | false => exact iff_of_false nofun fun h => Bool.false_ne_true h.1
    | true => exact ⟨fun h => ⟨rfl, hlt, (Except.ok.inj h).symm⟩, fun h => congrArg _ h.2.2.symm⟩
  · have hwrap : ¬ sizeofI * N.toNat ≤ u64 (sizeofI * N.toNat) := by
      have := Nat.mod_lt (sizeofI * N.toNat) (Nat.two_pow_pos 64)
      rw [u64]
      omega
    rw [if_neg hwrap]
    refine iff_of_false ?_ fun h => hlt h.2.1
    split <;> nofun

/-- An array that has been allocated is not empty, and not above the limit. -/
theorem TxAllocLimits.size_le {α : Type} {txAlloc : ℕ → Bool} (h : TxAllocLimits txAlloc)
    {sizeofI : ℕ} {elem : α} {N : UInt64} {xs : List α}
    (hxs : makePersistentArray txAlloc sizeofI elem N = .ok xs) :
    0 < sizeofI * N.toNat ∧ sizeofI * N.toNat ≤ PMEMOBJ_MAX_ALLOC_SIZE := by
  obtain ⟨halloc, -, -⟩ := makePersistentArray_eq_ok.mp hxs
  constructor
  · refine Nat.pos_of_ne_zero fun hzero => ?_
    rw [hzero, h.zero] at halloc
    cases halloc
  · by_contra hlt
    rw [h.max _ (not_le.mp hlt)] at halloc
    cases halloc

end RangeCache
