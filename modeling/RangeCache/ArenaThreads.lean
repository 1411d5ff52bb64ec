import RangeCache.Lib.Guards
import RangeCache.ShardedArena

/-!
# Threads in the concurrent arena

`AllocateImpl`, run by many threads at once. A thread is at one of the points between two accesses
to what the threads share: the two kinds of mutexes, the shards, and the arena with the copies of
its figures. What a thread does from one point to the next is one step, and the threads take their
steps in any order. The mutexes are RocksDB's `SpinMutex`: `try_lock` may fail although nobody
holds the mutex, and `lock` waits.

The accesses are taken in the order the threads make them. The steps of `Fixup`, which stores three
figures that only the holder of `arena_mutex_` reads here, are one step. The arena throwing
`std::bad_alloc`, and an assertion that fails, end a run.

## Main definitions

* `Request`, `Pc`, `Threads` — the calls, the points of the function, and the shared state
* `threadStep` — a thread makes a call or takes the next step

## Main results

* `threadStep_move` — everything a step can do
* `Exclusive.move` — a mutex is held by the thread that is at a point where it holds it
-/

namespace RangeCache

open ByteMemory FallibleRun

/-- The arguments of `AllocateImpl`. -/
structure Request (σ : Type) where
  bytes : UInt64
  forceArena : Bool
  func : σ → Option (ℕ × σ)

namespace ShardedArena

/-- The points of `AllocateImpl`, and what the thread has in its local variables there. A thread at
`func`, `fixup` and `unlockArena` has come from the reload of a shard if there is one. -/
inductive Pc (σ : Type) (shift : ℕ) where
  /-- Outside the function. -/
  | idle
  | enter (r : Request σ)
  /-- `!shards_.AccessAtCore(0)->allocated_and_unused_.load(…)` -/
  | peek (r : Request σ)
  /-- `arena_lock.try_lock()` -/
  | tryArena (r : Request σ)
  /-- `arena_lock.lock()` -/
  | waitArena (r : Request σ)
  /-- `auto rv = func()` -/
  | func (r : Request σ) (s : Option (Fin (2 ^ shift)))
  /-- `Fixup(); return rv;` -/
  | fixup (r : Request σ) (rv : ℕ) (s : Option (Fin (2 ^ shift)))
  | unlockArena (r : Request σ) (rv : ℕ) (s : Option (Fin (2 ^ shift)))
  /-- `s->mutex.try_lock()`, and `Repick()` -/
  | pick (r : Request σ)
  /-- `s->mutex.lock()` -/
  | waitShard (r : Request σ) (s : Fin (2 ^ shift))
  /-- `avail = s->allocated_and_unused_.load(…)` -/
  | readAvail (r : Request σ) (s : Fin (2 ^ shift))
  /-- `std::lock_guard<SpinMutex> reload_lock(arena_mutex_)` -/
  | waitReload (r : Request σ) (s : Fin (2 ^ shift))
  /-- `exact = arena_allocated_and_unused_.load(…)`, and what is decided from it -/
  | reload (r : Request σ) (s : Fin (2 ^ shift))
  /-- `s->free_begin_ = arena_.AllocateAligned(avail)` -/
  | refill (r : Request σ) (s : Fin (2 ^ shift)) (avail : ℕ)
  | fixupRefill (r : Request σ) (s : Fin (2 ^ shift)) (avail : ℕ)
  | unlockReload (r : Request σ) (s : Fin (2 ^ shift)) (avail : ℕ)
  /-- `s->allocated_and_unused_.store(avail - bytes, …)` -/
  | store (r : Request σ) (s : Fin (2 ^ shift)) (avail : ℕ)
  /-- The choice of the end, and `s->free_begin_ += bytes`. -/
  | place (r : Request σ) (s : Fin (2 ^ shift)) (avail : ℕ)
  /-- The shard's mutex is released, if it is held, and the function returns. -/
  | leave (r : Request σ) (rv : ℕ) (s : Option (Fin (2 ^ shift)))

/-- What the threads share, where each of them is, and what the calls of each have returned. -/
structure Threads (σ ι : Type) (shift : ℕ) where
  memory : ShardedArena σ shift
  arenaMutex : Option ι
  shardMutex : Fin (2 ^ shift) → Option ι
  tlsCpuid : ι → UInt64
  pc : ι → Pc σ shift
  returned : ι → List (Request σ × ℕ)

/-- A thread calls `AllocateImpl`, or goes on with its call; then the mutex it tries may look taken,
and the thread may run on any core. -/
inductive Act (σ : Type) (shift : ℕ) where
  | call (r : Request σ)
  | go (taken : Bool) (core : Fin (2 ^ shift))

/-- Why there is no next step: the thread waits or has nothing to do, or the run ends. -/
inductive Stop where
  | notEnabled
  | abort (a : Abort)
  deriving DecidableEq, Repr

section Model

variable {σ ι : Type} {shift : ℕ} [DecidableEq ι]

/-- The thread `t` is now at `p`. -/
def Threads.jump (s : Threads σ ι shift) (t : ι) (p : Pc σ shift) : Threads σ ι shift :=
  { s with pc := Function.update s.pc t p }

/-- `s->mutex`, locked or unlocked. -/
def Threads.setShardMutex (s : Threads σ ι shift) (i : Fin (2 ^ shift)) (m : Option ι) :
    Threads σ ι shift :=
  { s with shardMutex := Function.update s.shardMutex i m }

def Threads.setShard (s : Threads σ ι shift) (i : Fin (2 ^ shift)) (shard : Shard) :
    Threads σ ι shift :=
  { s with memory := { s.memory with shards := Function.update s.memory.shards i shard } }

/-- `tls_cpuid = shard_and_index.second | shards_.Size()`, where thread-local variables are
supported. -/
def repick (threadLocal : Bool) (s : Threads σ ι shift) (t : ι) (core : Fin (2 ^ shift)) :
    Threads σ ι shift :=
  if threadLocal then
    { s with tlsCpuid := Function.update s.tlsCpuid t (UInt64.ofNat (core.val ||| 2 ^ shift)) }
  else s

/-- `AllocateImpl` from one point to the next. -/
def advance (C : Config) (threadLocal : Bool) (A : Arena σ) (s : Threads σ ι shift) (t : ι)
    (taken : Bool) (core : Fin (2 ^ shift)) : Except Stop (Threads σ ι shift) :=
  match s.pc t with
  | .idle => .error .notEnabled
  | .enter r =>
    if C.shardBlockSize / 4 < r.bytes.toNat || r.forceArena then
      .ok (s.jump t (.waitArena r))
    else if s.tlsCpuid t = 0 then
      .ok (s.jump t (.peek r))
    else
      .ok (s.jump t (.pick r))
  | .peek r =>
    if (s.memory.shards (coreIndex shift 0)).allocatedAndUnused = 0 then
      .ok (s.jump t (.tryArena r))
    else
      .ok (s.jump t (.pick r))
  | .tryArena r =>
    if s.arenaMutex = none ∧ taken = false then
      .ok { s.jump t (.func r none) with arenaMutex := some t }
    else
      .ok (s.jump t (.pick r))
  | .waitArena r =>
    if s.arenaMutex = none then
      .ok { s.jump t (.func r none) with arenaMutex := some t }
    else
      .error .notEnabled
  | .func r i =>
    match r.func s.memory.arena with
    | none => .error (.abort .badAlloc)
    | some (rv, arena) =>
      .ok { s.jump t (.fixup r rv i) with memory := { s.memory with arena } }
  | .fixup r rv i =>
    .ok { s.jump t (.unlockArena r rv i) with memory := fixup A s.memory }
  | .unlockArena r rv i =>
    .ok { s.jump t (.leave r rv i) with arenaMutex := none }
  | .pick r =>
    let i := coreIndex shift (s.tlsCpuid t)
    if s.shardMutex i = none ∧ taken = false then
      .ok ((s.jump t (.readAvail r i)).setShardMutex i (some t))
    else
      .ok ((repick threadLocal s t core).jump t (.waitShard r core))
  | .waitShard r i =>
    if s.shardMutex i = none then
      .ok ((s.jump t (.readAvail r i)).setShardMutex i (some t))
    else
      .error .notEnabled
  | .readAvail r i =>
    let avail := (s.memory.shards i).allocatedAndUnused
    if avail < r.bytes.toNat then
      .ok (s.jump t (.waitReload r i))
    else
      .ok (s.jump t (.store r i avail))
  | .waitReload r i =>
    if s.arenaMutex = none then
      .ok { s.jump t (.reload r i) with arenaMutex := some t }
    else
      .error .notEnabled
  | .reload r i =>
    let exact := s.memory.arenaAllocatedAndUnused
    if C.assertions ∧ exact ≠ A.allocatedAndUnused s.memory.arena then
      .error (.abort .assertion)
    else if r.bytes.toNat ≤ exact ∧ A.isInInlineBlock s.memory.arena then
      .ok (s.jump t (.func r (some i)))
    else
      .ok (s.jump t (.refill r i (refillSize C exact)))
  | .refill r i avail =>
    match A.allocateAligned s.memory.arena avail with
    | none => .error (.abort .badAlloc)
    | some (freeBegin, arena) =>
      let s := { s.jump t (.fixupRefill r i avail) with memory := { s.memory with arena } }
      .ok (s.setShard i { s.memory.shards i with freeBegin })
  | .fixupRefill r i avail =>
    .ok { s.jump t (.unlockReload r i avail) with memory := fixup A s.memory }
  | .unlockReload r i avail =>
    .ok { s.jump t (.store r i avail) with arenaMutex := none }
  | .store r i avail =>
    let allocatedAndUnused := u64 (avail + (2 ^ 64 - r.bytes.toNat))
    .ok ((s.jump t (.place r i avail)).setShard i { s.memory.shards i with allocatedAndUnused })
  | .place r i avail =>
    let shard := s.memory.shards i
    if r.bytes.toNat % 8 = 0 then
      -- aligned allocation from the beginning
      .ok ((s.jump t (.leave r shard.freeBegin (some i))).setShard i
        { shard with freeBegin := u64 (shard.freeBegin + r.bytes.toNat) })
    else
      -- unaligned from the end
      let rv := u64 (shard.freeBegin + avail + (2 ^ 64 - r.bytes.toNat))
      .ok (s.jump t (.leave r rv (some i)))
  | .leave r rv i =>
    let s := { s.jump t .idle with
      returned := Function.update s.returned t (s.returned t ++ [(r, rv)]) }
    match i with
    | none => .ok s
    | some i => .ok (s.setShardMutex i none)

/-- One step of one thread. -/
def threadStep (C : Config) (threadLocal : Bool) (A : Arena σ) (s : Threads σ ι shift) :
    ι × Act σ shift → Except Stop (Threads σ ι shift)
  | (t, .call r) =>
    match s.pc t with
    | .idle => .ok (s.jump t (.enter r))
    | _ => .error .notEnabled
  | (t, .go taken core) => advance C threadLocal A s t taken core

/-- No thread has called `AllocateImpl` yet. -/
def Threads.start (memory : ShardedArena σ shift) : Threads σ ι shift :=
  { memory, arenaMutex := none, shardMutex := fun _ => none, tlsCpuid := fun _ => 0,
    pc := fun _ => .idle, returned := fun _ => [] }

end Model

/-! ## What a step can do -/

section Moves

variable {σ ι : Type} {shift : ℕ} [DecidableEq ι]

/-- The call is not for the arena in the first place. -/
def ToShard (C : Config) (r : Request σ) : Prop :=
  r.bytes.toNat ≤ C.shardBlockSize / 4 ∧ r.forceArena = false

/-- The assertion about the copy of the arena's figure holds. -/
def Asserted (C : Config) (A : Arena σ) (m : ShardedArena σ shift) : Prop :=
  ¬ (C.assertions = true ∧ m.arenaAllocatedAndUnused ≠ A.allocatedAndUnused m.arena)

/-- The call is answered from the inline block. -/
def Inline (A : Arena σ) (m : ShardedArena σ shift) (r : Request σ) : Prop :=
  r.bytes.toNat ≤ m.arenaAllocatedAndUnused ∧ A.isInInlineBlock m.arena = true

/-- The steps that only decide. -/
inductive Decides (C : Config) (A : Arena σ) (m : ShardedArena σ shift) :
    Pc σ shift → Pc σ shift → Prop
  | direct {r} : Decides C A m (.enter r) (.waitArena r)
  | unpicked {r} : ToShard C r → Decides C A m (.enter r) (.peek r)
  | picked {r} : ToShard C r → Decides C A m (.enter r) (.pick r)
  | empty {r} : Decides C A m (.peek r) (.tryArena r)
  | nonempty {r} : Decides C A m (.peek r) (.pick r)
  | contended {r} : Decides C A m (.tryArena r) (.pick r)
  | repicked {r i} : Decides C A m (.pick r) (.waitShard r i)
  | short {r i} : (m.shards i).allocatedAndUnused < r.bytes.toNat →
      Decides C A m (.readAvail r i) (.waitReload r i)
  | inline {r i} : Asserted C A m → Inline A m r → Decides C A m (.reload r i) (.func r (some i))
  | block {r i} : Asserted C A m → ¬ Inline A m r →
      Decides C A m (.reload r i) (.refill r i (refillSize C m.arenaAllocatedAndUnused))

inductive LocksArena : Pc σ shift → Pc σ shift → Prop
  | tried {r} : LocksArena (.tryArena r) (.func r none)
  | waited {r} : LocksArena (.waitArena r) (.func r none)
  | reload {r i} : LocksArena (.waitReload r i) (.reload r i)

inductive UnlocksArena : Pc σ shift → Pc σ shift → Prop
  | returning {r rv i} : UnlocksArena (.unlockArena r rv i) (.leave r rv i)
  | refilled {r i avail} : UnlocksArena (.unlockReload r i avail) (.store r i avail)

inductive LocksShard (i : Fin (2 ^ shift)) : Pc σ shift → Pc σ shift → Prop
  | tried {r} : LocksShard i (.pick r) (.readAvail r i)
  | waited {r} : LocksShard i (.waitShard r i) (.readAvail r i)

inductive FixesUp : Pc σ shift → Pc σ shift → Prop
  | called {r rv i} : FixesUp (.fixup r rv i) (.unlockArena r rv i)
  | refilled {r i avail} : FixesUp (.fixupRefill r i avail) (.unlockReload r i avail)

/-- **Everything a thread `t` can do** in one step, with its new point. -/
inductive Move (C : Config) (A : Arena σ) (s : Threads σ ι shift) (t : ι) :
    Pc σ shift → Threads σ ι shift → Prop
  | call {r} : s.pc t = .idle → Move C A s t (.enter r) (s.jump t (.enter r))
  | decide {p tls} : Decides C A s.memory (s.pc t) p →
      Move C A s t p ({ s with tlsCpuid := tls }.jump t p)
  | lockArena {p} : s.arenaMutex = none → LocksArena (s.pc t) p →
      Move C A s t p { s.jump t p with arenaMutex := some t }
  | unlockArena {p} : UnlocksArena (s.pc t) p →
      Move C A s t p { s.jump t p with arenaMutex := none }
  | lockShard {p i} : s.shardMutex i = none → LocksShard i (s.pc t) p →
      Move C A s t p ((s.jump t p).setShardMutex i (some t))
  | func {r i rv arena} : s.pc t = .func r i → r.func s.memory.arena = some (rv, arena) →
      Move C A s t (.fixup r rv i)
        { s.jump t (.fixup r rv i) with memory := { s.memory with arena } }
  | fixup {p} : FixesUp (s.pc t) p →
      Move C A s t p { s.jump t p with memory := fixup A s.memory }
  | enough {r i avail} : s.pc t = .readAvail r i →
      avail = (s.memory.shards i).allocatedAndUnused → r.bytes.toNat ≤ avail →
      Move C A s t (.store r i avail) (s.jump t (.store r i avail))
  | refill {r i avail freeBegin arena} : s.pc t = .refill r i avail →
      A.allocateAligned s.memory.arena avail = some (freeBegin, arena) →
      Move C A s t (.fixupRefill r i avail)
        ({ s.jump t (.fixupRefill r i avail) with memory := { s.memory with arena } }.setShard i
          { s.memory.shards i with freeBegin })
  | store {r i avail} : s.pc t = .store r i avail →
      Move C A s t (.place r i avail) ((s.jump t (.place r i avail)).setShard i
        { s.memory.shards i with
          allocatedAndUnused := u64 (avail + (2 ^ 64 - r.bytes.toNat)) })
  | aligned {r i avail} : s.pc t = .place r i avail → r.bytes.toNat % 8 = 0 →
      Move C A s t (.leave r (s.memory.shards i).freeBegin (some i))
        ((s.jump t (.leave r (s.memory.shards i).freeBegin (some i))).setShard i
          { s.memory.shards i with
            freeBegin := u64 ((s.memory.shards i).freeBegin + r.bytes.toNat) })
  | unaligned {r i avail rv} : s.pc t = .place r i avail → ¬ r.bytes.toNat % 8 = 0 →
      rv = u64 ((s.memory.shards i).freeBegin + avail + (2 ^ 64 - r.bytes.toNat)) →
      Move C A s t (.leave r rv (some i)) (s.jump t (.leave r rv (some i)))
  | return {r rv} : s.pc t = .leave r rv none →
      Move C A s t .idle { s.jump t .idle with
        returned := Function.update s.returned t (s.returned t ++ [(r, rv)]) }
  | unlockShard {r rv i} : s.pc t = .leave r rv (some i) →
      Move C A s t .idle ({ s.jump t .idle with
        returned := Function.update s.returned t (s.returned t ++ [(r, rv)]) }.setShardMutex i none)

variable {C : Config} {threadLocal : Bool} {A : Arena σ} {s s' : Threads σ ι shift} {t : ι}

/-- `Repick` changes the thread-local variable only. -/
theorem repick_eq (threadLocal : Bool) (s : Threads σ ι shift) (t : ι) (core : Fin (2 ^ shift)) :
    ∃ tls, repick threadLocal s t core = { s with tlsCpuid := tls } := by
  rw [repick]
  split
  · exact ⟨_, rfl⟩
  · exact ⟨s.tlsCpuid, rfl⟩

/-- A step of `AllocateImpl` is a move. -/
theorem advance_move {taken : Bool} {core : Fin (2 ^ shift)}
    (h : advance C threadLocal A s t taken core = .ok s') : ∃ p, Move C A s t p s' := by
  simp only [advance] at h
  split at h
  case h_1 hp => cases h
  case h_2 r hp =>
    split at h
    · cases h
      exact ⟨_, .decide (hp ▸ .direct)⟩
    next hshard =>
    have hto : ToShard C r := by simpa [ToShard] using hshard
    split at h
    · cases h
      exact ⟨_, .decide (hp ▸ .unpicked hto)⟩
    · cases h
      exact ⟨_, .decide (hp ▸ .picked hto)⟩
  case h_3 r hp =>
    split at h
    · cases h
      exact ⟨_, .decide (hp ▸ .empty)⟩
    · cases h
      exact ⟨_, .decide (hp ▸ .nonempty)⟩
  case h_4 r hp =>
    split at h
    next hfree =>
      cases h
      exact ⟨_, .lockArena hfree.1 (hp ▸ .tried)⟩
    · cases h
      exact ⟨_, .decide (hp ▸ .contended)⟩
  case h_5 r hp =>
    split at h
    next hfree =>
      cases h
      exact ⟨_, .lockArena hfree (hp ▸ .waited)⟩
    · cases h
  case h_6 r i hp =>
    split at h
    · cases h
    next rv arena hfunc =>
      cases h
      exact ⟨_, .func hp hfunc⟩
  case h_7 r rv i hp =>
    cases h
    exact ⟨_, .fixup (hp ▸ .called)⟩
  case h_8 r rv i hp =>
    cases h
    exact ⟨_, .unlockArena (hp ▸ .returning)⟩
  case h_9 r hp =>
    split at h
    next hfree =>
      cases h
      exact ⟨_, .lockShard hfree.1 (hp ▸ .tried)⟩
    · cases h
      obtain ⟨tls, htls⟩ := repick_eq threadLocal s t core
      rw [htls]
      exact ⟨_, .decide (hp ▸ .repicked)⟩
  case h_10 r i hp =>
    split at h
    next hfree =>
      cases h
      exact ⟨_, .lockShard hfree (hp ▸ .waited)⟩
    · cases h
  case h_11 r i hp =>
    split at h
    next hshort =>
      cases h
      exact ⟨_, .decide (hp ▸ .short hshort)⟩
    next hfit =>
      cases h
      exact ⟨_, .enough hp rfl (not_lt.mp hfit)⟩
  case h_12 r i hp =>
    split at h
    next hfree =>
      cases h
      exact ⟨_, .lockArena hfree (hp ▸ .reload)⟩
    · cases h
  case h_13 r i hp =>
    split at h
    · cases h
    next hassert =>
    split at h
    next hinline =>
      cases h
      exact ⟨_, .decide (hp ▸ .inline hassert hinline)⟩
    next hinline =>
      cases h
      exact ⟨_, .decide (hp ▸ .block hassert hinline)⟩
  case h_14 r i avail hp =>
    split at h
    · cases h
    next freeBegin arena halloc =>
      cases h
      exact ⟨_, .refill hp halloc⟩
  case h_15 r i avail hp =>
    cases h
    exact ⟨_, .fixup (hp ▸ .refilled)⟩
  case h_16 r i avail hp =>
    cases h
    exact ⟨_, .unlockArena (hp ▸ .refilled)⟩
  case h_17 r i avail hp =>
    cases h
    exact ⟨_, .store hp⟩
  case h_18 r i avail hp =>
    split at h
    next hmod =>
      cases h
      exact ⟨_, .aligned hp hmod⟩
    next hmod =>
      cases h
      exact ⟨_, .unaligned hp hmod rfl⟩
  case h_19 r rv i hp =>
    split at h
    · cases h
      exact ⟨_, .return hp⟩
    · cases h
      exact ⟨_, .unlockShard hp⟩

/-- **A step is a move** of its thread. -/
theorem threadStep_move {act : Act σ shift} (h : threadStep C threadLocal A s (t, act) = .ok s') :
    ∃ p, Move C A s t p s' := by
  cases act with
  | call r =>
    simp only [threadStep] at h
    split at h
    next hp =>
      cases h
      exact ⟨_, .call hp⟩
    · cases h
  | go taken core => exact advance_move h

end Moves

/-! ## Who holds the mutexes -/

section Mutexes

variable {σ ι : Type} {shift : ℕ} [DecidableEq ι]

/-- The thread holds `arena_mutex_`. -/
def Pc.holdsArena : Pc σ shift → Bool
  | .func .. | .fixup .. | .unlockArena .. | .reload .. | .refill .. | .fixupRefill ..
  | .unlockReload .. => true
  | _ => false

/-- The shard whose mutex the thread holds. -/
def Pc.shard? : Pc σ shift → Option (Fin (2 ^ shift))
  | .func _ i | .fixup _ _ i | .unlockArena _ _ i | .leave _ _ i => i
  | .readAvail _ i | .waitReload _ i | .reload _ i | .refill _ i _ | .fixupRefill _ i _
  | .unlockReload _ i _ | .store _ i _ | .place _ i _ => some i
  | _ => none

/-- **The invariant of the mutexes.** -/
structure Exclusive (s : Threads σ ι shift) : Prop where
  arena : Guards s.arenaMutex fun t => (s.pc t).holdsArena = true
  shard : ∀ i, Guards (s.shardMutex i) fun t => (s.pc t).shard? = some i

variable {C : Config} {threadLocal : Bool} {A : Arena σ} {m : ShardedArena σ shift}
  {s s' : Threads σ ι shift} {t u : ι} {p q : Pc σ shift} {i : Fin (2 ^ shift)}

omit [DecidableEq ι] in
theorem exclusive_start (memory : ShardedArena σ shift) :
    Exclusive (Threads.start memory : Threads σ ι shift) :=
  ⟨Guards.free fun _ => by simp [Threads.start, Pc.holdsArena],
    fun _ => Guards.free fun _ => by simp [Threads.start, Pc.shard?]⟩

theorem Decides.mutexes (h : Decides C A m q p) :
    q.holdsArena = p.holdsArena ∧ q.shard? = p.shard? := by
  cases h <;> exact ⟨rfl, rfl⟩

theorem LocksArena.mutexes (h : LocksArena q p) :
    q.holdsArena = false ∧ p.holdsArena = true ∧ q.shard? = p.shard? := by
  cases h <;> exact ⟨rfl, rfl, rfl⟩

theorem UnlocksArena.mutexes (h : UnlocksArena q p) :
    q.holdsArena = true ∧ p.holdsArena = false ∧ q.shard? = p.shard? := by
  cases h <;> exact ⟨rfl, rfl, rfl⟩

theorem LocksShard.mutexes (h : LocksShard i q p) :
    q.holdsArena = p.holdsArena ∧ q.shard? = none ∧ p.shard? = some i := by
  cases h <;> exact ⟨rfl, rfl, rfl⟩

theorem FixesUp.mutexes (h : FixesUp q p) :
    q.holdsArena = true ∧ p.holdsArena = true ∧ q.shard? = p.shard? := by
  cases h <;> exact ⟨rfl, rfl, rfl⟩

/-- The threads after a move: one has gone to its new point. -/
theorem Move.pc (h : Move C A s t p s') : s'.pc = Function.update s.pc t p := by
  cases h <;> rfl

theorem Move.pc_self (h : Move C A s t p s') : s'.pc t = p := by
  rw [h.pc, Function.update_self]

theorem Move.pc_of_ne (h : Move C A s t p s') (hu : u ≠ t) : s'.pc u = s.pc u := by
  rw [h.pc, Function.update_of_ne hu]

/-- What a move does to `arena_mutex_`: the thread takes it, gives it back, or leaves it. -/
theorem Move.arenaMutex (h : Move C A s t p s') :
    (s.arenaMutex = none ∧ p.holdsArena = true ∧ s'.arenaMutex = some t) ∨
    ((s.pc t).holdsArena = true ∧ p.holdsArena = false ∧ s'.arenaMutex = none) ∨
    ((s.pc t).holdsArena = p.holdsArena ∧ s'.arenaMutex = s.arenaMutex) := by
  cases h with
  | lockArena hfree hl => exact .inl ⟨hfree, hl.mutexes.2.1, rfl⟩
  | unlockArena hu => exact .inr (.inl ⟨hu.mutexes.1, hu.mutexes.2.1, rfl⟩)
  | decide hd => exact .inr (.inr ⟨hd.mutexes.1, rfl⟩)
  | lockShard _ hl => exact .inr (.inr ⟨hl.mutexes.1, rfl⟩)
  | fixup hf => exact .inr (.inr ⟨hf.mutexes.1.trans hf.mutexes.2.1.symm, rfl⟩)
  | call hp | func hp | enough hp | refill hp | store hp | aligned hp | unaligned hp | «return» hp
  | unlockShard hp => exact .inr (.inr ⟨by rw [hp]; rfl, rfl⟩)

/-- What a move does to the mutex of the shard `i`. -/
theorem Move.shardMutex (h : Move C A s t p s') (i : Fin (2 ^ shift)) :
    (s.shardMutex i = none ∧ (s.pc t).shard? = none ∧ p.shard? = some i ∧
      s'.shardMutex i = some t) ∨
    ((s.pc t).shard? = some i ∧ p.shard? = none ∧ s'.shardMutex i = none) ∨
    ((p.shard? = some i ↔ (s.pc t).shard? = some i) ∧ s'.shardMutex i = s.shardMutex i) := by
  cases h with
  | @lockShard _ j hfree hl =>
    rcases eq_or_ne i j with rfl | hij
    · exact .inl ⟨hfree, hl.mutexes.2.1, hl.mutexes.2.2, Function.update_self ..⟩
    · refine .inr (.inr ⟨?_, Function.update_of_ne hij ..⟩)
      simp [hl.mutexes, hij.symm]
  | @unlockShard r rv j hp =>
    rcases eq_or_ne i j with rfl | hij
    · exact .inr (.inl ⟨by rw [hp]; rfl, rfl, Function.update_self ..⟩)
    · refine .inr (.inr ⟨?_, Function.update_of_ne hij ..⟩)
      simp [hp, Pc.shard?, hij.symm]
  | decide hd => exact .inr (.inr ⟨by rw [hd.mutexes.2], rfl⟩)
  | lockArena _ hl => exact .inr (.inr ⟨by rw [hl.mutexes.2.2], rfl⟩)
  | unlockArena hu => exact .inr (.inr ⟨by rw [hu.mutexes.2.2], rfl⟩)
  | fixup hf => exact .inr (.inr ⟨by rw [hf.mutexes.2.2], rfl⟩)
  | call hp | func hp | enough hp | refill hp | store hp | aligned hp | unaligned hp
  | «return» hp => exact .inr (.inr ⟨by rw [hp]; rfl, rfl⟩)

/-- **A move keeps the mutexes exclusive.** -/
theorem Exclusive.move (hex : Exclusive s) (h : Move C A s t p s') : Exclusive s' := by
  constructor
  · have hothers : ∀ u, u ≠ t → ((s'.pc u).holdsArena = true ↔ (s.pc u).holdsArena = true) := by
      intro u hu
      rw [h.pc_of_ne hu]
    obtain ⟨hfree, hp, hm⟩ | ⟨hq, hp, hm⟩ | ⟨hpq, hm⟩ := h.arenaMutex
    · rw [hm]
      exact hex.arena.acquire hfree hothers (by rw [h.pc_self, hp])
    · rw [hm]
      exact hex.arena.release hq hothers (by rw [h.pc_self, hp]; decide)
    · rw [hm]
      exact hex.arena.keep hothers (by rw [h.pc_self, hpq])
  · intro i
    have hothers : ∀ u, u ≠ t → ((s'.pc u).shard? = some i ↔ (s.pc u).shard? = some i) := by
      intro u hu
      rw [h.pc_of_ne hu]
    obtain ⟨hfree, -, hp, hm⟩ | ⟨hq, hp, hm⟩ | ⟨hpq, hm⟩ := h.shardMutex i
    · rw [hm]
      exact (hex.shard i).acquire hfree hothers (by rw [h.pc_self, hp])
    · rw [hm]
      exact (hex.shard i).release hq hothers (by rw [h.pc_self, hp]; simp)
    · rw [hm]
      exact (hex.shard i).keep hothers (by rw [h.pc_self]; exact hpq)

/-- A move changes no shard but one that the thread holds. -/
theorem Move.shards_frame (h : Move C A s t p s') (hi : (s.pc t).shard? ≠ some i) :
    s'.memory.shards i = s.memory.shards i := by
  cases h with
  | refill hp | store hp | aligned hp =>
    rw [hp] at hi
    exact Function.update_of_ne (fun heq => hi (congrArg some heq.symm)) ..
  | _ => rfl

/-- A move of a thread that does not hold the arena changes only the shards. -/
theorem Move.memory_frame (h : Move C A s t p s') (hq : (s.pc t).holdsArena = false) :
    ∃ shards, s'.memory = { s.memory with shards } := by
  cases h with
  | func hp | refill hp =>
    rw [hp] at hq
    cases hq
  | fixup hf =>
    rw [hf.mutexes.1] at hq
    cases hq
  | store hp | aligned hp => exact ⟨_, rfl⟩
  | _ => exact ⟨s.memory.shards, rfl⟩

/-- A move returns from the calls of its own thread only. -/
theorem Move.returned_of_ne (h : Move C A s t p s') (hu : u ≠ t) :
    s'.returned u = s.returned u := by
  cases h with
  | «return» hp | unlockShard hp => exact Function.update_of_ne hu ..
  | _ => rfl

end Mutexes

end ShardedArena

end RangeCache
