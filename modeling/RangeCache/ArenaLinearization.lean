import RangeCache.ArenaProgress
import RangeCache.ArenaMirrors
import RangeCache.Lib.Linearization

/-!
# One call at a time

However the steps of the threads in `AllocateImpl` are interleaved, they come to the same as calls
that take effect at once, one after the other. A call takes effect when it asks `func`, when it asks
the arena for a refill, or when it finds that a shard has enough. What is still to be stored after
that concerns only memory that the thread has locked, and is counted as done: the *settled* state.

A call that has found shard 0 empty and got the arena takes effect as if `force_arena` had been set:
by that time another thread may have filled the shard.

## Main definitions

* `Threads.settled`, `Threads.answered` — the state and the answers, with what is about to be done
* `Specification` — the calls that the interleaving is compared with
* `Pc.Knows` — what a thread has found out, and nobody else can change

## Main results

* `Move.effect` — a step is not seen, or is one call
* `threads_linearizable` — every interleaving comes to the same as calls one after the other
-/

namespace RangeCache

open ByteMemory FallibleRun Linearization

namespace ShardedArena

section Settled

variable {σ ι : Type} {shift : ℕ}

/-- Both results of taking `bytes` from `avail` bytes at `freeBegin`: the address, and the shard. -/
def takeFrom (freeBegin avail : ℕ) (bytes : UInt64) : ℕ × Shard :=
  let allocatedAndUnused := u64 (avail + (2 ^ 64 - bytes.toNat))
  if bytes.toNat % 8 = 0 then
    (freeBegin, ⟨u64 (freeBegin + bytes.toNat), allocatedAndUnused⟩)
  else
    (u64 (freeBegin + avail + (2 ^ 64 - bytes.toNat)), ⟨freeBegin, allocatedAndUnused⟩)

theorem carve_eq (m : ShardedArena σ shift) (i : Fin (2 ^ shift)) (freeBegin avail : ℕ)
    (bytes : UInt64) :
    carve m i freeBegin avail bytes = ((takeFrom freeBegin avail bytes).1,
      { m with shards := Function.update m.shards i (takeFrom freeBegin avail bytes).2 }) := by
  by_cases h : bytes.toNat % 8 = 0 <;> simp [carve, takeFrom, h]

/-- The arena and its figures, with other shards. -/
def withShards (m : ShardedArena σ shift) (shards : Fin (2 ^ shift) → Shard) :
    ShardedArena σ shift :=
  { m with shards }

/-- The shard that the thread holds, with what the thread is about to take from it. -/
def Pc.settle : Pc σ shift → Shard → Shard
  | .fixupRefill r _ avail, shard | .unlockReload r _ avail, shard | .store r _ avail, shard
  | .place r _ avail, shard => (takeFrom shard.freeBegin avail r.bytes).2
  | _, shard => shard

/-- The copies of the arena's figures, if the thread is about to put them right. -/
def Pc.refresh (A : Arena σ) (p : Pc σ shift) (m : ShardedArena σ shift) : ShardedArena σ shift :=
  match p with
  | .fixup .. | .fixupRefill .. => ShardedArena.fixup A m
  | _ => m

/-- What the thread is about to return, once this is determined. -/
def Pc.answer? (m : ShardedArena σ shift) : Pc σ shift → Option (Request σ × ℕ)
  | .fixup r rv _ | .unlockArena r rv _ | .leave r rv _ => some (r, rv)
  | .fixupRefill r i avail | .unlockReload r i avail | .store r i avail | .place r i avail =>
    some (r, (takeFrom (m.shards i).freeBegin avail r.bytes).1)
  | _ => none

def Threads.settledShard (s : Threads σ ι shift) (i : Fin (2 ^ shift)) : Shard :=
  match s.shardMutex i with
  | none => s.memory.shards i
  | some t => (s.pc t).settle (s.memory.shards i)

def Threads.settledFigures (A : Arena σ) (s : Threads σ ι shift) : ShardedArena σ shift :=
  match s.arenaMutex with
  | none => s.memory
  | some t => (s.pc t).refresh A s.memory

/-- **The settled state.** What the threads share, when each of them has done what it can no longer
decide differently. -/
def Threads.settled (A : Arena σ) (s : Threads σ ι shift) : ShardedArena σ shift :=
  (s.settledFigures A).withShards s.settledShard

/-- What the calls of a thread have returned or are about to return. -/
def Threads.answered (s : Threads σ ι shift) (t : ι) : List (Request σ × ℕ) :=
  s.returned t ++ ((s.pc t).answer? s.memory).toList

/-- The calls that a request may take effect as. -/
def Admits (r : Request σ) (c : Call σ shift) : Prop :=
  c.bytes = r.bytes ∧ c.func = r.func ∧ (r.forceArena = true → c.forceArena = true)

/-- The interleaving is compared with calls of `allocateImpl`, each for what the thread has asked
for. -/
def specification (C : Config) (A : Arena σ) :
    Specification Abort (Threads σ ι shift) ι (Request σ) (Call σ shift) ℕ
      (ShardedArena σ shift) :=
  { apply := allocateImpl C A
    admits := Admits
    settled := Threads.settled A
    answered := Threads.answered }

/-- When no thread is in the function, there is nothing to settle. -/
theorem settled_of_idle {A : Arena σ} {s : Threads σ ι shift} (h : ∀ t, s.pc t = .idle) :
    s.settled A = s.memory ∧ s.answered = s.returned := by
  constructor
  · have hfigures : s.settledFigures A = s.memory := by
      rw [Threads.settledFigures]
      split
      · rfl
      · rw [h]
        rfl
    have hshards : s.settledShard = s.memory.shards := by
      funext i
      rw [Threads.settledShard]
      split
      · rfl
      · rw [h]
        rfl
    rw [Threads.settled, hfigures, hshards]
    rfl
  · funext t
    simp [Threads.answered, h, Pc.answer?]

end Settled

/-! ## What a move leaves as it is -/

section Frame

variable {σ ι : Type} {shift : ℕ} [DecidableEq ι] {C : Config} {A : Arena σ}
  {m m' : ShardedArena σ shift} {s s' : Threads σ ι shift} {t u : ι} {p q : Pc σ shift}
  {i : Fin (2 ^ shift)}

theorem Pc.settle_of_no_shard (h : p.shard? = none) (shard : Shard) : p.settle shard = shard := by
  cases p <;> first | rfl | cases h

theorem Pc.refresh_of_no_arena (h : p.holdsArena = false) (m : ShardedArena σ shift) :
    p.refresh A m = m := by
  cases p <;> first | rfl | cases h

omit [DecidableEq ι] in
theorem Exclusive.settledShard (hex : Exclusive s) (h : (s.pc t).shard? = some i) :
    s.settledShard i = (s.pc t).settle (s.memory.shards i) := by
  rw [Threads.settledShard, (hex.shard i t).mpr h]

omit [DecidableEq ι] in
theorem Exclusive.settledFigures (hex : Exclusive s) (h : (s.pc t).holdsArena = true) :
    s.settledFigures A = (s.pc t).refresh A s.memory := by
  rw [Threads.settledFigures, (hex.arena t).mpr h]

/-- **A shard is settled as before**, when what the thread has still to do to it has changed as much
as the shard itself. -/
theorem Move.settledShard (h : Move C A s t p s') (hex : Exclusive s)
    (hlocal : (s.pc t).shard? = some i ∨ p.shard? = some i →
      p.settle (s'.memory.shards i) = (s.pc t).settle (s.memory.shards i)) :
    s'.settledShard i = s.settledShard i := by
  have hex' := hex.move h
  obtain ⟨hfree, hq, hp, -⟩ | ⟨hq, hp, hm⟩ | ⟨hpq, hm⟩ := h.shardMutex i
  · have hself : (s'.pc t).shard? = some i := by rw [h.pc_self, hp]
    rw [hex'.settledShard hself, h.pc_self, hlocal (.inr hp), Pc.settle_of_no_shard hq,
      Threads.settledShard, hfree]
  · rw [hex.settledShard hq, Threads.settledShard, hm, ← hlocal (.inl hq),
      Pc.settle_of_no_shard hp]
  · by_cases hq : (s.pc t).shard? = some i
    · have hself : (s'.pc t).shard? = some i := by rw [h.pc_self, hpq.mpr hq]
      rw [hex'.settledShard hself, hex.settledShard hq, h.pc_self, hlocal (.inl hq)]
    · rw [Threads.settledShard, Threads.settledShard, hm, h.shards_frame hq]
      cases hholder : s.shardMutex i with
      | none => rfl
      | some u =>
        have hu : u ≠ t := fun heq => hq (heq ▸ (hex.shard i u).mp hholder)
        simp only [h.pc_of_ne hu]

/-- **The figures are settled as before**, too. -/
theorem Move.settledFigures (h : Move C A s t p s') (hex : Exclusive s)
    (hlocal : (s.pc t).holdsArena = true ∨ p.holdsArena = true → ∀ shards,
      (p.refresh A s'.memory).withShards shards = ((s.pc t).refresh A s.memory).withShards shards)
    (shards : Fin (2 ^ shift) → Shard) :
    (s'.settledFigures A).withShards shards = (s.settledFigures A).withShards shards := by
  have hex' := hex.move h
  obtain ⟨hfree, hp, hm⟩ | ⟨hq, hp, hm⟩ | ⟨hpq, hm⟩ := h.arenaMutex
  · have hq : (s.pc t).holdsArena = false :=
      Bool.eq_false_iff.mpr (hex.arena.not_inside hfree t)
    have hself : (s'.pc t).holdsArena = true := by rw [h.pc_self, hp]
    rw [hex'.settledFigures hself, h.pc_self, hlocal (.inr hp), Pc.refresh_of_no_arena hq,
      Threads.settledFigures, hfree]
  · rw [hex.settledFigures hq, ← hlocal (.inl hq), Pc.refresh_of_no_arena hp,
      Threads.settledFigures, hm]
  · cases hq : (s.pc t).holdsArena with
    | true =>
      have hself : (s'.pc t).holdsArena = true := by rw [h.pc_self, ← hpq, hq]
      rw [hex'.settledFigures hself, hex.settledFigures hq, h.pc_self, hlocal (.inl hq)]
    | false =>
      obtain ⟨shards', hmemory⟩ := h.memory_frame hq
      rw [Threads.settledFigures, Threads.settledFigures, hm, hmemory]
      cases hholder : s.arenaMutex with
      | none => rfl
      | some u =>
        have hholds := (hex.arena u).mp hholder
        have hu : u ≠ t := by
          rintro rfl
          rw [hholds] at hq
          cases hq
        simp only [h.pc_of_ne hu]
        cases s.pc u <;> rfl

theorem Pc.answer?_congr (h : ∀ i, p.shard? = some i → m'.shards i = m.shards i) :
    p.answer? m' = p.answer? m := by
  cases p with
  | fixupRefill r i avail | unlockReload r i avail | store r i avail | place r i avail =>
    simp only [Pc.answer?, h i rfl]
  | _ => rfl

/-- The other threads are answered as before. -/
theorem Move.answered_of_ne (h : Move C A s t p s') (hex : Exclusive s) (hu : u ≠ t) :
    s'.answered u = s.answered u := by
  have hanswer : (s.pc u).answer? s'.memory = (s.pc u).answer? s.memory := by
    refine Pc.answer?_congr fun i hi => h.shards_frame fun ht => ?_
    exact hu ((hex.shard i).unique hi ht)
  rw [Threads.answered, Threads.answered, h.returned_of_ne hu, h.pc_of_ne hu, hanswer]

end Frame

/-! ## What a thread knows -/

section Knowledge

variable {σ ι : Type} {shift : ℕ} [DecidableEq ι] {C : Config} {A : Arena σ}
  {m m' : ShardedArena σ shift} {s s' : Threads σ ι shift} {t u : ι} {p : Pc σ shift}

/-- The shard does not have enough. -/
def Short (m : ShardedArena σ shift) (r : Request σ) (i : Fin (2 ^ shift)) : Prop :=
  (m.shards i).allocatedAndUnused < r.bytes.toNat

/-- What a thread has found out before it gets to the point where it is. -/
def Pc.Knows (C : Config) (A : Arena σ) (m : ShardedArena σ shift) : Pc σ shift → Prop
  | .peek r | .tryArena r | .pick r | .waitShard r _ | .readAvail r _ => ToShard C r
  | .waitReload r i | .reload r i => ToShard C r ∧ Short m r i
  | .func r (some i) => ToShard C r ∧ Short m r i ∧ Asserted C A m ∧ Inline A m r
  | .refill r i avail => ToShard C r ∧ Short m r i ∧ Asserted C A m ∧ ¬ Inline A m r ∧
      avail = refillSize C m.arenaAllocatedAndUnused
  | .place r i avail =>
    (m.shards i).allocatedAndUnused = u64 (avail + (2 ^ 64 - r.bytes.toNat))
  | _ => True

/-- What a thread knows is about what it has locked. -/
theorem Pc.Knows.congr (h : p.Knows C A m)
    (hshard : ∀ i, p.shard? = some i → m'.shards i = m.shards i)
    (harena : p.holdsArena = true → ∃ shards, m' = { m with shards }) : p.Knows C A m' := by
  cases p with
  | waitReload r i => exact ⟨h.1, by rw [Short, hshard i rfl]; exact h.2⟩
  | reload r i => exact ⟨h.1, by rw [Short, hshard i rfl]; exact h.2⟩
  | func r i =>
    cases i with
    | none => trivial
    | some i =>
      obtain ⟨hto, hshort, hassert, hinline⟩ := h
      have hshort' : Short m' r i := by rwa [Short, hshard i rfl]
      obtain ⟨shards, rfl⟩ := harena rfl
      exact ⟨hto, hshort', hassert, hinline⟩
  | refill r i avail =>
    obtain ⟨hto, hshort, hassert, hinline, havail⟩ := h
    have hshort' : Short m' r i := by rwa [Short, hshard i rfl]
    obtain ⟨shards, rfl⟩ := harena rfl
    exact ⟨hto, hshort', hassert, hinline, havail⟩
  | place r i avail => exact (congrArg Shard.allocatedAndUnused (hshard i rfl)).trans h
  | _ => exact h

/-- What the thread itself knows after a move. -/
theorem Move.knows_self (h : Move C A s t p s') (hk : (s.pc t).Knows C A s.memory) :
    p.Knows C A s'.memory := by
  cases h with
  | decide hd =>
    generalize s.pc t = q at hd hk
    cases hd with
    | direct => trivial
    | unpicked hto | picked hto => exact hto
    | empty | nonempty | contended | repicked => exact hk
    | short hshort => exact ⟨hk, hshort⟩
    | inline hassert hinline => exact ⟨hk.1, hk.2, hassert, hinline⟩
    | block hassert hinline => exact ⟨hk.1, hk.2, hassert, hinline, rfl⟩
  | lockArena _ hl =>
    generalize s.pc t = q at hl hk
    cases hl with
    | tried | waited => trivial
    | reload => exact hk
  | lockShard _ hl =>
    generalize s.pc t = q at hl hk
    cases hl <;> exact hk
  | unlockArena hu =>
    generalize s.pc t = q at hu
    cases hu <;> trivial
  | fixup hf =>
    generalize s.pc t = q at hf
    cases hf <;> trivial
  | store _ => simp [Threads.setShard, Pc.Knows]
  | _ => trivial

/-- **Nobody else changes what a thread knows.** -/
theorem Move.knows (h : Move C A s t p s') (hex : Exclusive s)
    (hk : ∀ u, (s.pc u).Knows C A s.memory) (u : ι) : (s'.pc u).Knows C A s'.memory := by
  rcases eq_or_ne u t with rfl | hu
  · rw [h.pc_self]
    exact h.knows_self (hk u)
  · rw [h.pc_of_ne hu]
    refine (hk u).congr (fun i hi => h.shards_frame fun ht => ?_) fun harena => h.memory_frame ?_
    · exact hu ((hex.shard i).unique hi ht)
    · exact Bool.eq_false_iff.mpr fun ht => hu (hex.arena.unique harena ht)

end Knowledge

/-! ## The calls that take effect -/

section Calls

variable {σ ι : Type} {shift : ℕ} {C : Config} {A : Arena σ} {m : ShardedArena σ shift}
  {r : Request σ} {i : Fin (2 ^ shift)}

/-- A call that goes to the arena. -/
def viaArena (shift : ℕ) (r : Request σ) : Call σ shift :=
  { bytes := r.bytes, forceArena := true, func := r.func, tlsCpuid := 0, arenaTryLock := false,
    shardTryLock := false, repick := coreIndex shift 0 }

/-- A call that goes to the shard `i`. -/
def viaShard (r : Request σ) (i : Fin (2 ^ shift)) : Call σ shift :=
  { bytes := r.bytes, forceArena := false, func := r.func, tlsCpuid := 1, arenaTryLock := false,
    shardTryLock := false, repick := i }

theorem allocateImpl_viaArena (C : Config) (A : Arena σ) (m : ShardedArena σ shift)
    (r : Request σ) : allocateImpl C A m (viaArena shift r) = callFunc A m (viaArena shift r) := by
  simp [allocateImpl, goesToArena, viaArena]

theorem goesToArena_viaShard (hto : ToShard C r) : ¬ goesToArena C m (viaShard r i) = true := by
  have hsmall : ¬ C.shardBlockSize / 4 < r.bytes.toNat := not_lt.mpr hto.1
  simp [goesToArena, viaShard, hsmall]

theorem allocateImpl_enough (hto : ToShard C r)
    (h : r.bytes.toNat ≤ (m.shards i).allocatedAndUnused) :
    allocateImpl C A m (viaShard r i) = .ok (carve m i (m.shards i).freeBegin
      (m.shards i).allocatedAndUnused r.bytes) := by
  have hshort : ¬ (m.shards i).allocatedAndUnused < (viaShard r i).bytes.toNat := not_lt.mpr h
  rw [allocateImpl, if_neg (goesToArena_viaShard hto)]
  exact if_neg hshort

theorem allocateImpl_inline (hto : ToShard C r) (hshort : Short m r i) (hassert : Asserted C A m)
    (hinline : Inline A m r) :
    allocateImpl C A m (viaShard r i) = callFunc A m (viaShard r i) := by
  have hshort' : (m.shards i).allocatedAndUnused < (viaShard r i).bytes.toNat := hshort
  have hinline' : (viaShard r i).bytes.toNat ≤ m.arenaAllocatedAndUnused ∧
      A.isInInlineBlock m.arena = true := hinline
  rw [allocateImpl, if_neg (goesToArena_viaShard hto)]
  refine (if_pos hshort').trans ?_
  exact (if_neg hassert).trans (if_pos hinline')

theorem allocateImpl_refill {freeBegin : ℕ} {arena : σ} (hto : ToShard C r) (hshort : Short m r i)
    (hassert : Asserted C A m) (hinline : ¬ Inline A m r)
    (halloc : A.allocateAligned m.arena (refillSize C m.arenaAllocatedAndUnused)
      = some (freeBegin, arena)) :
    allocateImpl C A m (viaShard r i) = .ok (carve (fixup A { m with arena }) i freeBegin
      (refillSize C m.arenaAllocatedAndUnused) r.bytes) := by
  have hshort' : (m.shards i).allocatedAndUnused < (viaShard r i).bytes.toNat := hshort
  have hinline' : ¬ ((viaShard r i).bytes.toNat ≤ m.arenaAllocatedAndUnused ∧
      A.isInInlineBlock m.arena = true) := hinline
  rw [allocateImpl, if_neg (goesToArena_viaShard hto)]
  refine (if_pos hshort').trans ?_
  refine (if_neg hassert).trans ((if_neg hinline').trans ?_)
  simp only [halloc]
  rfl

end Calls

/-! ## One step -/

section Step

variable {σ ι : Type} {shift : ℕ} [DecidableEq ι] {C : Config} {A : Arena σ}
  {m : ShardedArena σ shift} {s s' : Threads σ ι shift} {t : ι} {p q : Pc σ shift}
  {i : Fin (2 ^ shift)}

/-- From one point to the other, there is the same left to do, with the same answer. -/
structure Alike (A : Arena σ) (q p : Pc σ shift) : Prop where
  settle : ∀ shard, p.settle shard = q.settle shard
  refresh : ∀ m, p.refresh A m = q.refresh A m
  answer : ∀ m, p.answer? m = q.answer? m

theorem Decides.alike (h : Decides C A m q p) : Alike A q p := by
  cases h <;> exact ⟨fun _ => rfl, fun _ => rfl, fun _ => rfl⟩

theorem LocksArena.alike (h : LocksArena q p) : Alike A q p := by
  cases h <;> exact ⟨fun _ => rfl, fun _ => rfl, fun _ => rfl⟩

theorem UnlocksArena.alike (h : UnlocksArena q p) : Alike A q p := by
  cases h <;> exact ⟨fun _ => rfl, fun _ => rfl, fun _ => rfl⟩

theorem LocksShard.alike (h : LocksShard i q p) : Alike A q p := by
  cases h <;> exact ⟨fun _ => rfl, fun _ => rfl, fun _ => rfl⟩

/-- A move is not seen, when what it does to the memory was counted as done before. -/
theorem Move.quiet (h : Move C A s t p s') (hex : Exclusive s)
    (hshard : ∀ i, (s.pc t).shard? = some i ∨ p.shard? = some i →
      p.settle (s'.memory.shards i) = (s.pc t).settle (s.memory.shards i))
    (hfigures : (s.pc t).holdsArena = true ∨ p.holdsArena = true → ∀ shards,
      (p.refresh A s'.memory).withShards shards = ((s.pc t).refresh A s.memory).withShards shards)
    (hanswered : s'.answered t = s.answered t) : Effect (specification C A) s s' := by
  left
  constructor
  · show s'.settled A = s.settled A
    have hshards : s'.settledShard = s.settledShard :=
      funext fun i => h.settledShard hex (hshard i)
    rw [Threads.settled, Threads.settled, hshards, h.settledFigures hex hfigures]
  · show s'.answered = s.answered
    funext u
    rcases eq_or_ne u t with rfl | hu
    · exact hanswered
    · exact h.answered_of_ne hex hu

/-- A move that changes neither the memory nor what is left to do is not seen. -/
theorem Move.quiet_of_alike (h : Move C A s t p s') (hex : Exclusive s)
    (halike : Alike A (s.pc t) p) (hmemory : s'.memory = s.memory)
    (hreturned : s'.returned = s.returned) : Effect (specification C A) s s' := by
  refine h.quiet hex ?_ ?_ ?_
  · intro i _
    rw [hmemory, halike.settle]
  · intro _ shards
    rw [hmemory, halike.refresh]
  · rw [Threads.answered, Threads.answered, h.pc_self, hmemory, hreturned, halike.answer]

/-- A move that is a call. -/
theorem Move.takesEffect (h : Move C A s t p s') (hex : Exclusive s) {r : Request σ}
    {c : Call σ shift} {v : ℕ} (hadmits : Admits r c)
    (hcall : allocateImpl C A (s.settled A) c = .ok (v, s'.settled A))
    (hanswered : s'.answered t = s.answered t ++ [(r, v)]) :
    Effect (specification C A) s s' := by
  refine .inr ⟨⟨t, r, c, v⟩, hadmits, hcall, ?_⟩
  show s'.answered = _
  funext u
  rcases eq_or_ne u t with rfl | hu
  · rw [Function.update_self]
    exact hanswered
  · rw [Function.update_of_ne hu]
    exact h.answered_of_ne hex hu

omit [DecidableEq ι] in
/-- The figures are settled for the one who has locked the arena and has not used it. -/
theorem Exclusive.settled (hex : Exclusive s) (harena : (s.pc t).holdsArena = true)
    (hrefresh : (s.pc t).refresh A s.memory = s.memory) :
    s.settled A = s.memory.withShards s.settledShard := by
  rw [Threads.settled, hex.settledFigures harena, hrefresh]

/-- The settled shards, when one of them is about to give the thread memory. -/
theorem Move.settledShard_update (h : Move C A s t p s') (hex : Exclusive s)
    (hq : (s.pc t).shard? = some i) (hp : p.shard? = some i) :
    s'.settledShard = Function.update s.settledShard i (p.settle (s'.memory.shards i)) := by
  have hself : (s'.pc t).shard? = some i := by rw [h.pc_self, hp]
  funext j
  rcases eq_or_ne j i with rfl | hj
  · rw [(hex.move h).settledShard hself, h.pc_self, Function.update_self]
  · rw [Function.update_of_ne hj]
    refine h.settledShard hex fun hheld => ?_
    rw [hq, hp, or_self] at hheld
    exact absurd (Option.some.inj hheld).symm hj

/-- **`func` is asked.** -/
theorem effect_func {r : Request σ} {j : Option (Fin (2 ^ shift))} {rv : ℕ} {arena : σ}
    (hex : Exclusive s) (hk : (s.pc t).Knows C A s.memory) (hp : s.pc t = .func r j)
    (hfunc : r.func s.memory.arena = some (rv, arena)) :
    Effect (specification C A) s
      { s.jump t (.fixup r rv j) with memory := { s.memory with arena } } := by
  have h : Move C A s t _ _ := .func hp hfunc
  have harena : (s.pc t).holdsArena = true := by rw [hp]; rfl
  have hsettled : s.settled A = s.memory.withShards s.settledShard :=
    hex.settled harena (by rw [hp]; rfl)
  have hshards : (Threads.settledShard
      { s.jump t (.fixup r rv j) with memory := { s.memory with arena } }) = s.settledShard := by
    funext i
    refine h.settledShard hex fun _ => ?_
    rw [hp]
    rfl
  have hfigures := (hex.move h).settledFigures (A := A) (t := t) (by rw [h.pc_self]; rfl)
  rw [h.pc_self] at hfigures
  have hcallFunc : ∀ c : Call σ shift, c.func = r.func → callFunc A (s.settled A) c
      = .ok (rv, Threads.settled A
        { s.jump t (.fixup r rv j) with memory := { s.memory with arena } }) := by
    intro c hc
    refine callFunc_eq_ok.mpr ⟨arena, ?_, ?_⟩
    · rw [hc, hsettled]
      exact hfunc
    · rw [Threads.settled, hshards, hfigures, hsettled]
      rfl
  have hanswered : Threads.answered
      { s.jump t (.fixup r rv j) with memory := { s.memory with arena } } t
        = s.answered t ++ [(r, rv)] := by
    simp [Threads.answered, Threads.jump, hp, Pc.answer?]
  cases j with
  | none =>
    refine h.takesEffect hex (c := viaArena shift r) ⟨rfl, rfl, fun _ => rfl⟩ ?_ hanswered
    rw [allocateImpl_viaArena]
    exact hcallFunc _ rfl
  | some i =>
    rw [hp] at hk
    obtain ⟨hto, hshort, hassert, hinline⟩ := hk
    have hshort' : Short (s.settled A) r i := by
      have hi : s.settledShard i = s.memory.shards i := by
        rw [hex.settledShard (t := t) (by rw [hp]; rfl), hp]
        rfl
      rw [hsettled, Short]
      show (s.settledShard i).allocatedAndUnused < _
      rw [hi]
      exact hshort
    refine h.takesEffect hex (c := viaShard r i) ⟨rfl, rfl, ?_⟩ ?_ hanswered
    · intro hforce
      exact absurd (hto.2.symm.trans hforce) (by decide)
    · rw [allocateImpl_inline hto hshort' (by rw [hsettled]; exact hassert)
        (by rw [hsettled]; exact hinline)]
      exact hcallFunc _ rfl

/-- **A shard has enough.** -/
theorem effect_enough {r : Request σ} (hex : Exclusive s) (hk : (s.pc t).Knows C A s.memory)
    (hp : s.pc t = .readAvail r i)
    (hle : r.bytes.toNat ≤ (s.memory.shards i).allocatedAndUnused) :
    Effect (specification C A) s
      (s.jump t (.store r i (s.memory.shards i).allocatedAndUnused)) := by
  have h : Move C A s t _ _ := .enough hp rfl hle
  rw [hp] at hk
  have hi : s.settledShard i = s.memory.shards i := by
    rw [hex.settledShard (t := t) (by rw [hp]; rfl), hp]
    rfl
  have hshard : (s.settled A).shards i = s.memory.shards i := hi
  refine h.takesEffect hex (c := viaShard r i)
    (v := (takeFrom (s.memory.shards i).freeBegin (s.memory.shards i).allocatedAndUnused r.bytes).1)
    ⟨rfl, rfl, ?_⟩ ?_ ?_
  · intro hforce
    exact absurd (hk.2.symm.trans hforce) (by decide)
  · rw [allocateImpl_enough hk (by rw [hshard]; exact hle), carve_eq, hshard]
    have hfigures := h.settledFigures (A := A) hex
      (fun hheld => absurd hheld (by rw [hp]; simp [Pc.holdsArena]))
    rw [Threads.settled, Threads.settled, hfigures,
      h.settledShard_update hex (i := i) (by rw [hp]; rfl) rfl]
    rfl
  · simp [Threads.answered, Threads.jump, hp, Pc.answer?]

/-- **A shard is filled.** -/
theorem effect_refill {r : Request σ} {avail freeBegin : ℕ} {arena : σ} (hex : Exclusive s)
    (hk : (s.pc t).Knows C A s.memory) (hp : s.pc t = .refill r i avail)
    (halloc : A.allocateAligned s.memory.arena avail = some (freeBegin, arena)) :
    Effect (specification C A) s
      ({ s.jump t (.fixupRefill r i avail) with memory := { s.memory with arena } }.setShard i
        { s.memory.shards i with freeBegin }) := by
  have h : Move C A s t _ _ := .refill hp halloc
  have harena : (s.pc t).holdsArena = true := by rw [hp]; rfl
  have hsettled : s.settled A = s.memory.withShards s.settledShard :=
    hex.settled harena (by rw [hp]; rfl)
  have hi : s.settledShard i = s.memory.shards i := by
    rw [hex.settledShard (t := t) (by rw [hp]; rfl), hp]
    rfl
  have hfigures := (hex.move h).settledFigures (A := A) (t := t) (by rw [h.pc_self]; rfl)
  rw [h.pc_self] at hfigures
  rw [hp] at hk
  obtain ⟨hto, hshort, hassert, hinline, rfl⟩ := hk
  have hshort' : Short (s.settled A) r i := by
    rw [hsettled, Short]
    show (s.settledShard i).allocatedAndUnused < _
    rw [hi]
    exact hshort
  refine h.takesEffect hex (c := viaShard r i)
    (v := (takeFrom freeBegin (refillSize C s.memory.arenaAllocatedAndUnused) r.bytes).1)
    ⟨rfl, rfl, ?_⟩ ?_ ?_
  · intro hforce
    exact absurd (hto.2.symm.trans hforce) (by decide)
  · have hcall := allocateImpl_refill (m := s.settled A) hto hshort'
      (by rw [hsettled]; exact hassert) (by rw [hsettled]; exact hinline)
      (by rw [hsettled]; exact halloc)
    rw [hcall, carve_eq, hsettled, Threads.settled, hfigures,
      h.settledShard_update hex (i := i) (by rw [hp]; rfl) rfl]
    simp [fixup, withShards, Pc.refresh, Pc.settle, Threads.setShard]
  · simp [Threads.answered, Threads.setShard, Threads.jump, hp, Pc.answer?]

/-- **A step is not seen, or is one call** of `allocateImpl`, in the settled state. -/
theorem Move.effect (h : Move C A s t p s') (hex : Exclusive s)
    (hk : (s.pc t).Knows C A s.memory) : Effect (specification C A) s s' := by
  have hmove := h
  cases h with
  | call hp =>
    refine hmove.quiet_of_alike hex ?_ rfl rfl
    rw [hp]
    exact ⟨fun _ => rfl, fun _ => rfl, fun _ => rfl⟩
  | decide hd => exact hmove.quiet_of_alike hex hd.alike rfl rfl
  | lockArena _ hl => exact hmove.quiet_of_alike hex hl.alike rfl rfl
  | unlockArena hu => exact hmove.quiet_of_alike hex hu.alike rfl rfl
  | lockShard _ hl => exact hmove.quiet_of_alike hex hl.alike rfl rfl
  | func hp hfunc => exact effect_func hex hk hp hfunc
  | enough hp havail hle =>
    subst havail
    exact effect_enough hex hk hp hle
  | refill hp halloc => exact effect_refill hex hk hp halloc
  | fixup hf =>
    refine hmove.quiet hex ?_ ?_ ?_
    · intro i _
      generalize s.pc t = q at hf
      cases hf <;> rfl
    · intro _ shards
      generalize s.pc t = q at hf
      cases hf <;> rfl
    · rw [Threads.answered, Threads.answered, hmove.pc_self]
      generalize s.pc t = q at hf
      cases hf <;> rfl
  | @store r i avail hp =>
    refine hmove.quiet hex ?_ ?_ ?_
    · intro j hheld
      rw [hp] at hheld
      obtain rfl : i = j := Option.some.inj (or_self_iff.mp hheld)
      rw [hp]
      simp [Threads.setShard, Pc.settle]
    · intro hheld
      rw [hp] at hheld
      simp [Pc.holdsArena] at hheld
    · simp [Threads.answered, Threads.setShard, Threads.jump, hp, Pc.answer?]
  | @aligned r i avail hp hmod =>
    rw [hp] at hk
    have hunused : (s.memory.shards i).allocatedAndUnused
        = u64 (avail + (2 ^ 64 - r.bytes.toNat)) := hk
    refine hmove.quiet hex ?_ ?_ ?_
    · intro j hheld
      rw [hp] at hheld
      obtain rfl : i = j := Option.some.inj (or_self_iff.mp hheld)
      rw [hp]
      simp [Threads.setShard, Pc.settle, takeFrom, hmod, hunused]
    · intro hheld
      rw [hp] at hheld
      simp [Pc.holdsArena] at hheld
    · simp [Threads.answered, Threads.setShard, Threads.jump, hp, Pc.answer?, takeFrom, hmod]
  | @unaligned r i avail rv hp hmod hrv =>
    rw [hp] at hk
    have hunused : (s.memory.shards i).allocatedAndUnused
        = u64 (avail + (2 ^ 64 - r.bytes.toNat)) := hk
    refine hmove.quiet hex ?_ ?_ ?_
    · intro j hheld
      rw [hp] at hheld
      obtain rfl : i = j := Option.some.inj (or_self_iff.mp hheld)
      rw [hp]
      show s.memory.shards i = (takeFrom (s.memory.shards i).freeBegin avail r.bytes).2
      rw [takeFrom, if_neg hmod, ← hunused]
    · intro hheld
      rw [hp] at hheld
      simp [Pc.holdsArena] at hheld
    · simp [Threads.answered, Threads.jump, hp, Pc.answer?, takeFrom, hmod, hrv]
  | «return» hp | unlockShard hp =>
    refine hmove.quiet hex ?_ ?_ ?_
    · intro i _
      rw [hp]
      rfl
    · intro _ shards
      rw [hp]
      rfl
    · simp [Threads.answered, Threads.jump, Threads.setShardMutex, hp, Pc.answer?]

end Step

/-! ## Every interleaving -/

section Runs

variable {σ ι : Type} {shift : ℕ} [DecidableEq ι] {C : Config} {threadLocal : Bool} {A : Arena σ}
  {s s' s₁ s₂ : Threads σ ι shift} {t : ι}

/-- **The invariant.** The mutexes are exclusive, and what the threads know is so. -/
structure ThreadsOk (C : Config) (A : Arena σ) (s : Threads σ ι shift) : Prop where
  exclusive : Exclusive s
  knows : ∀ t, (s.pc t).Knows C A s.memory

omit [DecidableEq ι] in
theorem threadsOk_start (C : Config) (A : Arena σ) (memory : ShardedArena σ shift) :
    ThreadsOk C A (Threads.start memory : Threads σ ι shift) :=
  ⟨exclusive_start memory, fun _ => trivial⟩

/-- **A step keeps the invariant.** -/
theorem ThreadsOk.step (h : ThreadsOk C A s) {act : ι × Act σ shift}
    (hstep : threadStep C threadLocal A s act = .ok s') : ThreadsOk C A s' := by
  obtain ⟨p, hmove⟩ := threadStep_move hstep
  exact ⟨h.exclusive.move hmove, hmove.knows h.exclusive h.knows⟩

theorem ThreadsOk.effect (h : ThreadsOk C A s) {act : ι × Act σ shift}
    (hstep : threadStep C threadLocal A s act = .ok s') :
    Effect (specification C A) s s' := by
  obtain ⟨p, hmove⟩ := threadStep_move hstep
  exact hmove.effect h.exclusive (h.knows _)

omit [DecidableEq ι] in
theorem settled_start (A : Arena σ) (memory : ShardedArena σ shift) :
    (Threads.start memory : Threads σ ι shift).settled A = memory ∧
      (Threads.start memory : Threads σ ι shift).answered = fun _ => [] :=
  settled_of_idle fun _ => rfl

/-- The invariant holds in every state that the threads get to, and an order of the calls accounts
for the state. -/
theorem linearizes_run {memory : ShardedArena σ shift} {acts : List (ι × Act σ shift)}
    (hrun : run (threadStep C threadLocal A) (Threads.start memory) acts = .ok s) :
    ThreadsOk C A s ∧ ∃ order, Linearizes (specification C A) memory s order := by
  have hstart : Linearizes (specification C A) memory (Threads.start memory : Threads σ ι shift)
      [] := by
    refine ⟨(settled_start A memory).1.symm, by simp, fun t => ?_⟩
    exact (congrFun (settled_start A memory).2 t).symm
  refine ⟨run_induction (fun _ _ _ h hstep => h.step hstep) (threadsOk_start C A memory) hrun, ?_⟩
  exact hstart.run (threadsOk_start C A memory) hrun (fun _ _ _ h hstep => h.step hstep)
    (fun _ _ _ h hstep => h.effect hstep)

end Runs

end ShardedArena

end RangeCache
