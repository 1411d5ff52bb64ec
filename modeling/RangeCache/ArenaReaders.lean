import RangeCache.ArenaFootprint
import RangeCache.Lib.Scan

/-!
# Reading the figures of the shards

`ShardAllocatedAndUnused` adds up what is left in the shards. It takes no lock and reads one shard
after the other, while threads go on in `AllocateImpl`. There need not be a moment when the shards
had the sum that it returns; but between two refills a shard only loses memory, so the sum is off
by at most what refills have put into the shards while it was read.

## Main definitions

* `Watched`, `watchStep` — the threads, and a reader that is in the loop
* `refilledBy` — what a step puts into a shard

## Main results

* `Move.sum_grown` — no other step adds to what is left in the shards
* `threads_readUnused` — the sum against what was left before and after
-/

namespace RangeCache

open ByteMemory FallibleRun

namespace ShardedArena

section Readers

variable {σ ι : Type} {shift : ℕ} [DecidableEq ι] {C : Config} {threadLocal : Bool} {A : Arena σ}
  {s s' : Threads σ ι shift} {t : ι} {p : Pc σ shift}

/-! ## The reader -/

/-- What the next step of the thread leaves in a shard over what the shard has, when it stores. -/
def refilledBy (s : Threads σ ι shift) (t : ι) : ℕ :=
  match s.pc t with
  | .store r i avail => avail - r.bytes.toNat - (s.memory.shards i).allocatedAndUnused
  | _ => 0

/-- The threads, and a call of `ShardAllocatedAndUnused`. -/
structure Watched (σ ι : Type) (shift : ℕ) where
  threads : Threads σ ι shift
  i : ℕ
  total : ℕ
  /-- What refills have put into the shards since the call. -/
  refilled : ℕ

/-- A thread takes a step, or the reader takes a turn of its loop. -/
def watchStep (C : Config) (threadLocal : Bool) (A : Arena σ) (w : Watched σ ι shift) :
    Option (ι × Act σ shift) → Except Stop (Watched σ ι shift)
  | some act => do
    let threads ← threadStep C threadLocal A w.threads act
    return { w with threads, refilled := w.refilled + refilledBy w.threads act.1 }
  | none =>
    if h : w.i < 2 ^ shift then
      let unused := (w.threads.memory.shards ⟨w.i, h⟩).allocatedAndUnused
      .ok { w with i := w.i + 1, total := u64 (w.total + unused) }
    else
      .error .notEnabled

/-- `ShardAllocatedAndUnused` is called. -/
def Watched.start (threads : Threads σ ι shift) : Watched σ ι shift :=
  { threads, i := 0, total := 0, refilled := 0 }

/-! ## What the steps leave in the shards -/

/-- What is taken from a shard, or from what it is refilled with, is there. -/
def Pc.Sized : Pc σ shift → Prop
  | .refill r _ avail | .fixupRefill r _ avail | .unlockReload r _ avail | .store r _ avail =>
    r.bytes.toNat ≤ avail ∧ avail < 2 ^ 64
  | _ => True

/-- The figures of the shards are words, and so are those that threads have in their hands. -/
structure SizesOk (C : Config) (A : Arena σ) (s : Threads σ ι shift) : Prop where
  ok : ThreadsOk C A s
  word : ∀ i, (s.memory.shards i).allocatedAndUnused < 2 ^ 64
  sized : ∀ t, (s.pc t).Sized

/-- A step stores to a shard what is left of `avail`, or changes what is left in none. -/
theorem Move.stores_or_same (h : Move C A s t p s') :
    (∃ r i avail, s.pc t = .store r i avail ∧
      (fun j => (s'.memory.shards j).allocatedAndUnused)
        = Function.update (fun j => (s.memory.shards j).allocatedAndUnused) i
          (u64 (avail + (2 ^ 64 - r.bytes.toNat)))) ∨
    ∀ j, (s'.memory.shards j).allocatedAndUnused = (s.memory.shards j).allocatedAndUnused := by
  have hupdate : ∀ i (shard : Shard) j,
      (Function.update s.memory.shards i shard j).allocatedAndUnused
        = Function.update (fun j => (s.memory.shards j).allocatedAndUnused) i
          shard.allocatedAndUnused j := fun i shard j =>
    Function.apply_update (fun _ => Shard.allocatedAndUnused) s.memory.shards i shard j
  cases h with
  | store hp => exact .inl ⟨_, _, _, hp, funext fun j => hupdate _ _ j⟩
  | refill hp _ =>
    refine .inr fun j => (hupdate _ _ j).trans ?_
    rw [Function.update_eq_self]
  | aligned hp _ =>
    refine .inr fun j => (hupdate _ _ j).trans ?_
    rw [Function.update_eq_self]
  | _ => exact .inr fun _ => rfl

/-- What is stored is what is left of `avail`. -/
theorem Pc.Sized.stored {r : Request σ} {i : Fin (2 ^ shift)} {avail : ℕ}
    (h : (Pc.store r i avail).Sized) :
    u64 (avail + (2 ^ 64 - r.bytes.toNat)) = avail - r.bytes.toNat := by
  obtain ⟨hle, hlt⟩ := h
  rw [u64]
  omega

/-- **No other step adds to what is left in the shards.** -/
theorem Move.sum_grown (h : Move C A s t p s') (hs : (s.pc t).Sized) :
    ∑ i, ((s'.memory.shards i).allocatedAndUnused - (s.memory.shards i).allocatedAndUnused)
      ≤ refilledBy s t := by
  rcases h.stores_or_same with ⟨r, i, avail, hp, hstored⟩ | hsame
  · rw [hp] at hs
    have hothers : ∀ j ∈ Finset.univ, j ≠ i → (s'.memory.shards j).allocatedAndUnused
        - (s.memory.shards j).allocatedAndUnused = 0 := by
      intro j _ hj
      have hj' := (congrFun hstored j).trans (Function.update_of_ne hj ..)
      exact (congrArg (· - _) hj').trans (Nat.sub_self _)
    have hself : (s'.memory.shards i).allocatedAndUnused = avail - r.bytes.toNat :=
      (congrFun hstored i).trans ((Function.update_self ..).trans hs.stored)
    rw [Finset.sum_eq_single i hothers (absurd (Finset.mem_univ i)), hself, refilledBy, hp]
  · have hzero : ∑ i, ((s'.memory.shards i).allocatedAndUnused
        - (s.memory.shards i).allocatedAndUnused) = 0 :=
      Finset.sum_eq_zero fun i _ => by rw [hsame i, Nat.sub_self]
    exact hzero.trans_le (Nat.zero_le _)

/-- What a thread has in its hands after a move. -/
theorem Move.sized_self (h : Move C A s t p s') (hok : SizesOk C A s) : p.Sized := by
  have hs := hok.sized t
  have hk := hok.ok.knows t
  cases h with
  | decide hd =>
    generalize s.pc t = q at hd hk
    cases hd with
    | block _ _ =>
      obtain ⟨⟨hto, -⟩, -⟩ := hk
      obtain ⟨hhalf, hlt⟩ := refillSize_bounds C s.memory.arenaAllocatedAndUnused
      exact ⟨by omega, hlt⟩
    | _ => trivial
  | lockArena _ hl =>
    generalize s.pc t = q at hl
    cases hl <;> trivial
  | lockShard _ hl =>
    generalize s.pc t = q at hl
    cases hl <;> trivial
  | unlockArena hu =>
    generalize s.pc t = q at hu hs
    cases hu with
    | returning => trivial
    | refilled => exact hs
  | fixup hf =>
    generalize s.pc t = q at hf hs
    cases hf with
    | called => trivial
    | refilled => exact hs
  | enough _ havail hle => exact ⟨hle, havail ▸ hok.word _⟩
  | refill hp _ =>
    rw [hp] at hs
    exact hs
  | _ => trivial

omit [DecidableEq ι] in
/-- The shards have nothing yet. -/
theorem sizesOk_start (C : Config) (A : Arena σ) (arena : σ) (exact memory irregular : ℕ) :
    SizesOk C A (Threads.start (new shift arena exact memory irregular) : Threads σ ι shift) where
  ok := threadsOk_start C A _
  word _ := Nat.two_pow_pos 64
  sized _ := trivial

/-- **The figures stay words.** -/
theorem SizesOk.step (hok : SizesOk C A s) {act : ι × Act σ shift}
    (hstep : threadStep C threadLocal A s act = .ok s') : SizesOk C A s' := by
  obtain ⟨p, hmove⟩ := threadStep_move hstep
  refine ⟨hok.ok.step hstep, fun j => ?_, fun u => ?_⟩
  · rcases hmove.stores_or_same with ⟨r, i, avail, -, hstored⟩ | hsame
    · have hj := congrFun hstored j
      rcases eq_or_ne j i with rfl | hne
      · rw [Function.update_self] at hj
        rw [hj]
        exact Nat.mod_lt _ (Nat.two_pow_pos 64)
      · rw [Function.update_of_ne hne] at hj
        rw [hj]
        exact hok.word j
    · rw [hsame j]
      exact hok.word j
  · rcases eq_or_ne u act.1 with rfl | hu
    · rw [hmove.pc_self]
      exact hmove.sized_self hok
    · rw [hmove.pc_of_ne hu]
      exact hok.sized u

/-! ## The reader among the threads -/

/-- The reader, and what it has really added up: the sum is kept in a word. -/
def Watched.Scanning (C : Config) (threadLocal : Bool) (A : Arena σ) (s₀ : Threads σ ι shift)
    (w : Watched σ ι shift) : Prop :=
  ∃ total, w.total = u64 total ∧
    Scan (threadStep C threadLocal A) (fun s i => (s.memory.shards i).allocatedAndUnused)
      (fun s act => refilledBy s act.1) s₀ w.i total w.refilled w.threads

theorem Watched.Scanning.step {s₀ : Threads σ ι shift} {w w' : Watched σ ι shift}
    (h : w.Scanning C threadLocal A s₀) {turn : Option (ι × Act σ shift)}
    (hstep : watchStep C threadLocal A w turn = .ok w') : w'.Scanning C threadLocal A s₀ := by
  obtain ⟨total, htotal, hscan⟩ := h
  cases turn with
  | some act =>
    obtain ⟨threads, hmove, heq⟩ := bind_eq_ok.mp hstep
    cases heq
    exact ⟨total, htotal, hscan.moves hmove⟩
  | none =>
    simp only [watchStep] at hstep
    split at hstep
    next hi =>
      cases hstep
      refine ⟨_, ?_, hscan.reads hi⟩
      show u64 (w.total + _) = u64 (total + _)
      rw [htotal, u64, u64, u64, Nat.mod_add_mod]
    next => cases hstep

/-- **What `ShardAllocatedAndUnused` returns**, however the threads are interleaved with it. Before
it is cut to a word, the sum exceeds what was left in the shards when the function was called by at
most what refills have put in meanwhile; and what is left when it returns exceeds the sum by at most
that. -/
theorem threads_readUnused (C : Config) (threadLocal : Bool) (A : Arena σ) (arena : σ)
    (exact memory irregular : ℕ) {acts : List (ι × Act σ shift)}
    {turns : List (Option (ι × Act σ shift))} {s₀ : Threads σ ι shift} {w : Watched σ ι shift}
    (hrun : run (threadStep C threadLocal A)
      (Threads.start (new shift arena exact memory irregular)) acts = .ok s₀)
    (hturns : run (watchStep C threadLocal A) (Watched.start s₀) turns = .ok w)
    (hdone : w.i = 2 ^ shift) :
    ∃ total, w.total = u64 total ∧ total ≤ s₀.memory.unused + w.refilled ∧
      w.threads.memory.unused ≤ total + w.refilled := by
  have hs₀ : SizesOk C A s₀ := run_induction (fun _ _ _ hok hstep => hok.step hstep)
    (sizesOk_start C A arena exact memory irregular) hrun
  have hstart : (Watched.start s₀).Scanning C threadLocal A s₀ := ⟨0, rfl, .start⟩
  obtain ⟨total, htotal, hscan⟩ := run_induction (fun _ _ _ h hstep => h.step hstep) hstart hturns
  rw [hdone] at hscan
  refine ⟨total, htotal, hscan.bounds (I := SizesOk C A) (fun _ _ _ hok hstep => hok.step hstep)
    (fun s act s' hok hstep => ?_) hs₀⟩
  obtain ⟨p, hmove⟩ := threadStep_move hstep
  exact hmove.sum_grown (hok.sized _)

end Readers

/-- The reader has read the shard; then a thread takes 8 bytes from it. -/
def readThenTake : List (Option (Bool × Act BumpArena 1)) :=
  let go : Act BumpArena 1 := .go false (coreIndex 1 0)
  let request : Act BumpArena 1 := .call ⟨8, false, fun a => a.allocateAligned 8⟩
  [none, some (false, request)] ++ List.replicate 6 (some (false, go)) ++ [none]

theorem threads_readUnused_readThenTake :
    ∃ s₀ w, run (threadStep ⟨4096, false⟩ true BumpArena.arena)
        (Threads.start (new 1 BumpArena.start 0 0 0)) refillShard = .ok s₀ ∧
      run (watchStep ⟨4096, false⟩ true BumpArena.arena) (Watched.start s₀) readThenTake = .ok w ∧
      w.total = 504 ∧ w.threads.memory.unused = 496 ∧ w.refilled = 0 ∧
      ∃ total, w.total = u64 total ∧ total ≤ s₀.memory.unused + w.refilled ∧
        w.threads.memory.unused ≤ total + w.refilled := by
  refine ⟨_, _, rfl, rfl, rfl, rfl, rfl, ?_⟩
  exact threads_readUnused ⟨4096, false⟩ true BumpArena.arena BumpArena.start 0 0 0
    (show run _ _ refillShard = .ok _ from rfl) (show run _ _ readThenTake = .ok _ from rfl) rfl

end ShardedArena

end RangeCache
