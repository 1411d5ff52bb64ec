import Mathlib.Data.Nat.Bitwise
import RangeCache.Lib.Carving
import RangeCache.Lib.FallibleRun
import RangeCache.Pmem

/-!
# The shards of the concurrent arena

`AllocateImpl` serves a request from the arena itself, when it is large or there is no contention,
and otherwise from one of the shards: a piece of memory for each core, carved from both ends and
refilled from the arena. `Fixup` copies three figures of the arena to atomic members, and the
decisions about a refill are taken from these copies.

The arena is RocksDB's `Arena`, and the shards are in RocksDB's `CoreLocalArray`, whose length is a
power of two; `Arena` and the length are parameters. A call is one step. What it depends on beside
the state, the core it runs on and the outcomes of the attempts to lock, is part of its arguments.
The constructor gives the atomic members no values.

## Main definitions

* `Arena`, `Shard`, `ShardedArena`, `Call`, `allocateImpl`
* `ServedByShard`, `availAt` — the calls that reach the subtraction `avail - bytes`, and `avail`

## Main results

* `allocateImpl_cases` — everything a call can do
-/

namespace RangeCache

open ByteMemory

/-- How a call fails to return: `assert` fails, or the arena throws `std::bad_alloc`. -/
inductive Abort where
  | assertion
  | badAlloc
  deriving DecidableEq, Repr

/-- What `AllocateImpl` uses of RocksDB's `Arena`, whose states are `σ`. -/
structure Arena (σ : Type) where
  allocateAligned : σ → ℕ → Option (ℕ × σ)
  allocatedAndUnused : σ → ℕ
  memoryAllocatedBytes : σ → ℕ
  irregularBlockNum : σ → ℕ
  isInInlineBlock : σ → Bool

structure Shard where
  freeBegin : ℕ
  allocatedAndUnused : ℕ
  deriving DecidableEq, Repr

/-- What is left of a shard. -/
def Shard.free (s : Shard) : Extent := ⟨s.freeBegin, s.allocatedAndUnused⟩

/-- The members of a `ConcurrentNVMArena` that `AllocateImpl` uses, with `2 ^ shift` shards. -/
structure ShardedArena (σ : Type) (shift : ℕ) where
  shards : Fin (2 ^ shift) → Shard
  arena : σ
  arenaAllocatedAndUnused : ℕ
  memoryAllocatedBytes : ℕ
  irregularBlockNum : ℕ

/-- A call of `AllocateImpl`, with what it finds out about the threads. -/
structure Call (σ : Type) (shift : ℕ) where
  bytes : UInt64
  forceArena : Bool
  func : σ → Option (ℕ × σ)
  tlsCpuid : UInt64
  /-- `arena_lock.try_lock()` -/
  arenaTryLock : Bool
  /-- `s->mutex.try_lock()` -/
  shardTryLock : Bool
  /-- The shard `Repick` chooses. -/
  repick : Fin (2 ^ shift)

namespace ShardedArena

def kMaxShardBlockSize : ℕ := 128 * 1024

/-- What the arena is compiled and constructed with. -/
structure Config where
  blockSize : UInt64
  /-- `NDEBUG` is not defined. -/
  assertions : Bool

def Config.shardBlockSize (C : Config) : ℕ := min kMaxShardBlockSize (C.blockSize.toNat / 8)

section Model

variable {σ : Type} {shift : ℕ}

/-- `ConcurrentNVMArena::ConcurrentNVMArena`, over the memory `exact`, `memory`, `irregular` of the
atomic members. -/
def new (shift : ℕ) (arena : σ) (exact memory irregular : ℕ) : ShardedArena σ shift :=
  { shards := fun _ => ⟨0, 0⟩, arena, arenaAllocatedAndUnused := exact,
    memoryAllocatedBytes := memory, irregularBlockNum := irregular }

/-- `Fixup`. -/
def fixup (A : Arena σ) (s : ShardedArena σ shift) : ShardedArena σ shift :=
  { s with
    arenaAllocatedAndUnused := A.allocatedAndUnused s.arena
    memoryAllocatedBytes := A.memoryAllocatedBytes s.arena
    irregularBlockNum := A.irregularBlockNum s.arena }

/-- `cpu & (shards_.Size() - 1)`. -/
def coreIndex (shift : ℕ) (cpu : UInt64) : Fin (2 ^ shift) :=
  ⟨cpu.toNat &&& (2 ^ shift - 1), Nat.and_lt_two_pow _ (by have := Nat.two_pow_pos shift; omega)⟩

/-- The condition under which a call goes directly to the arena. -/
def goesToArena (C : Config) (s : ShardedArena σ shift) (c : Call σ shift) : Bool :=
  C.shardBlockSize / 4 < c.bytes.toNat || c.forceArena ||
    (c.tlsCpuid == 0 && (s.shards (coreIndex shift 0)).allocatedAndUnused == 0 && c.arenaTryLock)

/-- The shard a call picks. -/
def pick (c : Call σ shift) : Fin (2 ^ shift) :=
  if c.shardTryLock then coreIndex shift c.tlsCpuid else c.repick

/-- `auto rv = func(); Fixup(); return rv;` -/
def callFunc (A : Arena σ) (s : ShardedArena σ shift) (c : Call σ shift) :
    Except Abort (ℕ × ShardedArena σ shift) :=
  match c.func s.arena with
  | none => .error .badAlloc
  | some (rv, arena) => .ok (rv, fixup A { s with arena })

/-- The size of a refill. -/
def refillSize (C : Config) (exact : ℕ) : ℕ :=
  if C.shardBlockSize / 2 ≤ exact ∧ exact < C.shardBlockSize * 2 then exact else C.shardBlockSize

/-- The end of the function: `avail` bytes from `freeBegin` on are left in the shard `i`. -/
def carve (s : ShardedArena σ shift) (i : Fin (2 ^ shift)) (freeBegin avail : ℕ) (bytes : UInt64) :
    ℕ × ShardedArena σ shift :=
  let allocatedAndUnused := u64 (avail + (2 ^ 64 - bytes.toNat))
  if bytes.toNat % 8 = 0 then
    -- aligned allocation from the beginning
    let shard := ⟨u64 (freeBegin + bytes.toNat), allocatedAndUnused⟩
    (freeBegin, { s with shards := Function.update s.shards i shard })
  else
    -- unaligned from the end
    let rv := u64 (freeBegin + avail + (2 ^ 64 - bytes.toNat))
    let shard := ⟨freeBegin, allocatedAndUnused⟩
    (rv, { s with shards := Function.update s.shards i shard })

/-- `AllocateImpl`. -/
def allocateImpl (C : Config) (A : Arena σ) (s : ShardedArena σ shift) (c : Call σ shift) :
    Except Abort (ℕ × ShardedArena σ shift) :=
  if goesToArena C s c then
    callFunc A s c
  else
    let i := pick c
    let avail := (s.shards i).allocatedAndUnused
    if avail < c.bytes.toNat then
      -- reload
      let exact := s.arenaAllocatedAndUnused
      if C.assertions ∧ exact ≠ A.allocatedAndUnused s.arena then
        .error .assertion
      else if c.bytes.toNat ≤ exact ∧ A.isInInlineBlock s.arena then
        callFunc A s c
      else
        let avail := refillSize C exact
        match A.allocateAligned s.arena avail with
        | none => .error .badAlloc
        | some (freeBegin, arena) =>
          .ok (carve (fixup A { s with arena }) i freeBegin avail c.bytes)
    else
      .ok (carve s i (s.shards i).freeBegin avail c.bytes)

/-! ## What a call does -/

/-- The call is answered from a shard, and reaches the subtraction `avail - bytes`. -/
def ServedByShard (C : Config) (A : Arena σ) (s : ShardedArena σ shift) (c : Call σ shift) : Prop :=
  goesToArena C s c = false ∧
    ¬ ((s.shards (pick c)).allocatedAndUnused < c.bytes.toNat ∧
      c.bytes.toNat ≤ s.arenaAllocatedAndUnused ∧ A.isInInlineBlock s.arena = true)

/-- `avail`, when the subtraction is reached. -/
def availAt (C : Config) (s : ShardedArena σ shift) (c : Call σ shift) : ℕ :=
  if (s.shards (pick c)).allocatedAndUnused < c.bytes.toNat then
    refillSize C s.arenaAllocatedAndUnused
  else
    (s.shards (pick c)).allocatedAndUnused

/-- A call that asks `func`. -/
theorem callFunc_eq_ok {A : Arena σ} {s s' : ShardedArena σ shift} {c : Call σ shift} {rv : ℕ} :
    callFunc A s c = .ok (rv, s') ↔
      ∃ arena, c.func s.arena = some (rv, arena) ∧ s' = fixup A { s with arena } := by
  rw [callFunc]
  cases c.func s.arena with
  | none =>
    constructor
    · intro h
      cases h
    · rintro ⟨arena, h, -⟩
      cases h
  | some r =>
    simp only [Except.ok.injEq, Prod.mk.injEq, Option.some.injEq]
    constructor
    · rintro ⟨rfl, rfl⟩
      exact ⟨r.2, rfl, rfl⟩
    · rintro ⟨arena, rfl, rfl⟩
      exact ⟨rfl, rfl⟩

/-- **Everything a call can do**: ask `func`, refill the shard it has picked, or serve itself from
that shard. -/
theorem allocateImpl_cases {C : Config} {A : Arena σ} {s s' : ShardedArena σ shift}
    {c : Call σ shift} {rv : ℕ} (h : allocateImpl C A s c = .ok (rv, s')) :
    (¬ ServedByShard C A s c ∧
      ∃ arena, c.func s.arena = some (rv, arena) ∧ s' = fixup A { s with arena }) ∨
    (ServedByShard C A s c ∧ (s.shards (pick c)).allocatedAndUnused < c.bytes.toNat ∧
      ∃ freeBegin arena, A.allocateAligned s.arena (availAt C s c) = some (freeBegin, arena) ∧
        (rv, s') = carve (fixup A { s with arena }) (pick c) freeBegin (availAt C s c) c.bytes) ∨
    (ServedByShard C A s c ∧ ¬ (s.shards (pick c)).allocatedAndUnused < c.bytes.toNat ∧
      (rv, s') = carve s (pick c) (s.shards (pick c)).freeBegin (availAt C s c) c.bytes) := by
  simp only [allocateImpl] at h
  by_cases hdirect : goesToArena C s c = true
  · rw [if_pos hdirect] at h
    refine .inl ⟨fun hshard => ?_, callFunc_eq_ok.mp h⟩
    exact absurd (hdirect.symm.trans hshard.1) (by decide)
  have hfalse : goesToArena C s c = false := Bool.not_eq_true _ ▸ hdirect
  rw [if_neg hdirect] at h
  by_cases hreload : (s.shards (pick c)).allocatedAndUnused < c.bytes.toNat
  · have havail : availAt C s c = refillSize C s.arenaAllocatedAndUnused := if_pos hreload
    rw [if_pos hreload] at h
    split at h
    · cases h
    by_cases hinline : c.bytes.toNat ≤ s.arenaAllocatedAndUnused ∧
        A.isInInlineBlock s.arena = true
    · rw [if_pos hinline] at h
      exact .inl ⟨fun hshard => hshard.2 ⟨hreload, hinline⟩, callFunc_eq_ok.mp h⟩
    · rw [if_neg hinline] at h
      rw [havail]
      split at h
      · cases h
      · next freeBegin arena halloc =>
        refine .inr (.inl ⟨⟨hfalse, fun hboth => hinline hboth.2⟩, hreload, freeBegin, arena,
          halloc, ?_⟩)
        exact (Except.ok.inj h).symm
  · have havail : availAt C s c = (s.shards (pick c)).allocatedAndUnused := if_neg hreload
    rw [if_neg hreload] at h
    rw [havail]
    refine .inr (.inr ⟨⟨hfalse, fun hboth => hreload hboth.1⟩, hreload, ?_⟩)
    exact (Except.ok.inj h).symm

/-- **The subtraction does not underflow.** What a call takes from a shard is there: a call that
goes to a shard is for at most a quarter of a refill. -/
theorem le_availAt {C : Config} {A : Arena σ} {s : ShardedArena σ shift} {c : Call σ shift}
    (h : ServedByShard C A s c) : c.bytes.toNat ≤ availAt C s c := by
  have hdirect := h.1
  simp only [goesToArena, Bool.or_eq_false_iff, decide_eq_false_iff_not, not_lt] at hdirect
  have hsmall := hdirect.1.1
  rw [availAt]
  split
  · rw [refillSize]
    split <;> omega
  · omega

end Model

end ShardedArena

end RangeCache
