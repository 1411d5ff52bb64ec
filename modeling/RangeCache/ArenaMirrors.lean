import RangeCache.ShardSafety

/-!
# The copies of the arena's figures

`Fixup` copies three figures of the arena to atomic members, after every use of the arena.
`AllocateImpl` asserts that the first copy is right before it decides about a refill from it. The
constructor copies nothing: until the first call that uses the arena, the members hold what was in
memory before. A call that throws also copies nothing; a run ends with it here.

## Main definitions

* `InStep` — the copies are right
* `Refreshes` — the calls that use the arena when no shard has any memory

## Main results

* `InStep.step`, `InStep.noAssertion` — right copies stay right, and pass the assertion
* `inStep_iff` — in which states they are right
-/

namespace RangeCache

open ByteMemory FallibleRun

namespace ShardedArena

section Spec

variable {σ : Type} {shift : ℕ} {C : Config} {A : Arena σ}

/-- The atomic members are what the arena says. -/
structure InStep (A : Arena σ) (s : ShardedArena σ shift) : Prop where
  allocatedAndUnused : s.arenaAllocatedAndUnused = A.allocatedAndUnused s.arena
  memoryAllocatedBytes : s.memoryAllocatedBytes = A.memoryAllocatedBytes s.arena
  irregularBlockNum : s.irregularBlockNum = A.irregularBlockNum s.arena

/-- The state after a call. -/
def step (C : Config) (A : Arena σ) (s : ShardedArena σ shift) (c : Call σ shift) :
    Except Abort (ShardedArena σ shift) := do
  let (_, state) ← allocateImpl C A s c
  return state

/-- The call is for memory, or goes directly to the arena while the shards are empty. -/
def Refreshes (c : Call σ shift) : Prop :=
  0 < c.bytes.toNat ∨ c.forceArena = true ∨ (c.tlsCpuid = 0 ∧ c.arenaTryLock = true)

variable {s s' : ShardedArena σ shift} {c : Call σ shift}

/-- Taking memory from a shard changes nothing else. -/
theorem carve_snd (s : ShardedArena σ shift) (i : Fin (2 ^ shift)) (freeBegin avail : ℕ)
    (bytes : UInt64) : ∃ shards, (carve s i freeBegin avail bytes).2 = { s with shards } := by
  simp only [carve]
  split
  · exact ⟨_, rfl⟩
  · exact ⟨_, rfl⟩

/-- Nothing taken from a shard without memory. -/
theorem carve_empty {i : Fin (2 ^ shift)} {bytes : UInt64} (hempty : s.shards i = ⟨0, 0⟩)
    (hzero : bytes.toNat = 0) : carve s i 0 0 bytes = (0, s) := by
  have hupdate : Function.update s.shards i ⟨0, 0⟩ = s.shards := by
    rw [← hempty, Function.update_eq_self]
  have hunused : u64 (0 + (2 ^ 64 - 0)) = 0 := rfl
  have hbegin : u64 (0 + 0) = 0 := rfl
  simp only [carve, hzero, Nat.zero_mod, if_true, hunused, hbegin, hupdate]

/-! ## One call -/

/-- `Fixup` puts the copies right. -/
theorem inStep_fixup (A : Arena σ) (s : ShardedArena σ shift) : InStep A (fixup A s) :=
  ⟨rfl, rfl, rfl⟩

theorem InStep.withShards (h : InStep A s) (shards : Fin (2 ^ shift) → Shard) :
    InStep A { s with shards } :=
  ⟨h.allocatedAndUnused, h.memoryAllocatedBytes, h.irregularBlockNum⟩

/-- **After a call that uses the arena the copies are right**; the other calls are served by a shard
that has enough. -/
theorem inStep_or_carve (hstep : step C A s c = .ok s') :
    InStep A s' ∨
      ServedByShard C A s c ∧ ¬ (s.shards (pick c)).allocatedAndUnused < c.bytes.toNat ∧
        s' = (carve s (pick c) (s.shards (pick c)).freeBegin (availAt C s c) c.bytes).2 := by
  obtain ⟨⟨rv, state⟩, hcall, hstate⟩ := bind_eq_ok.mp hstep
  obtain rfl := Except.ok.inj hstate
  obtain ⟨-, arena, -, rfl⟩ | ⟨-, -, freeBegin, arena, -, heq⟩ | ⟨hserved, hfit, heq⟩ :=
    allocateImpl_cases hcall
  · exact .inl (inStep_fixup A _)
  · obtain ⟨shards, hshards⟩ := carve_snd (fixup A { s with arena }) (pick c) freeBegin
      (availAt C s c) c.bytes
    rw [← heq] at hshards
    obtain rfl : state = { fixup A { s with arena } with shards } := hshards
    exact .inl ((inStep_fixup A _).withShards shards)
  · exact .inr ⟨hserved, hfit, congrArg Prod.snd heq⟩

/-- **Right copies stay right.** -/
theorem InStep.step (h : InStep A s) (hstep : ShardedArena.step C A s c = .ok s') :
    InStep A s' := by
  obtain hin | ⟨-, -, rfl⟩ := inStep_or_carve hstep
  · exact hin
  · obtain ⟨shards, hshards⟩ := carve_snd s (pick c) (s.shards (pick c)).freeBegin
      (availAt C s c) c.bytes
    rw [hshards]
    exact h.withShards shards

theorem callFunc_ne_assertion (A : Arena σ) (s : ShardedArena σ shift) (c : Call σ shift) :
    callFunc A s c ≠ .error .assertion := by
  rw [callFunc]
  split
  · intro h
    cases h
  · intro h
    cases h

/-- **Right copies pass the assertion.** -/
theorem InStep.noAssertion (h : InStep A s) (C : Config) (c : Call σ shift) :
    allocateImpl C A s c ≠ .error .assertion := by
  have hassert : ¬ (C.assertions = true ∧
      s.arenaAllocatedAndUnused ≠ A.allocatedAndUnused s.arena) :=
    fun hboth => hboth.2 h.allocatedAndUnused
  simp only [allocateImpl, if_neg hassert]
  split
  · exact callFunc_ne_assertion A s c
  split
  · split
    · exact callFunc_ne_assertion A s c
    split
    · intro herr
      cases herr
    · intro herr
      cases herr
  · intro herr
    cases herr

/-! ## The first use of the arena -/

variable {arena : σ} {exact memory irregular : ℕ}

theorem goesToArena_new :
    goesToArena C (new shift arena exact memory irregular) c = true ↔
      C.shardBlockSize / 4 < c.bytes.toNat ∨ c.forceArena = true ∨
        (c.tlsCpuid = 0 ∧ c.arenaTryLock = true) := by
  simp [goesToArena, new, or_assoc]

/-- A shard without memory serves no call that `Refreshes`. -/
theorem Refreshes.inStep (h : Refreshes c)
    (hstep : ShardedArena.step C A (new shift arena exact memory irregular) c = .ok s') :
    InStep A s' := by
  obtain hin | ⟨⟨hfalse, -⟩, hfit, -⟩ := inStep_or_carve hstep
  · exact hin
  · have hdirect : goesToArena C (new shift arena exact memory irregular) c = true :=
      goesToArena_new.mpr (.inr (h.resolve_left hfit))
    exact absurd (hdirect.symm.trans hfalse) (by decide)

/-- Any other call is for no bytes, and does nothing. -/
theorem step_new (h : ¬ Refreshes c) :
    step C A (new shift arena exact memory irregular) c
      = .ok (new shift arena exact memory irregular) := by
  obtain ⟨hbytes, hdirect⟩ := not_or.mp h
  have hzero : c.bytes.toNat = 0 := by omega
  have hshard : ¬ goesToArena C (new shift arena exact memory irregular) c = true := by
    intro hgoes
    rcases goesToArena_new.mp hgoes with hlarge | hgoes
    · omega
    · exact hdirect hgoes
  have hempty : (new shift arena exact memory irregular).shards (pick c) = ⟨0, 0⟩ := rfl
  have hfit : ¬ 0 < c.bytes.toNat := hbytes
  simp only [step, allocateImpl, if_neg hshard, hempty, if_neg hfit, carve_empty hempty hzero]
  rfl

/-- **When the copies are right.** In a state that a sequence of calls leads to they are, and no
call fails the assertion, exactly if what was in memory before happened to be right or one of the
calls used the arena. -/
theorem inStep_iff (C : Config) (A : Arena σ) (arena : σ) (exact memory irregular : ℕ)
    {calls : List (Call σ shift)}
    (hrun : run (step C A) (new shift arena exact memory irregular) calls = .ok s) :
    (InStep A s ∧ ∀ c, allocateImpl C A s c ≠ .error .assertion) ↔
      InStep A (new shift arena exact memory irregular) ∨ ∃ c ∈ calls, Refreshes c := by
  have hright : (InStep A s ∧ ∀ c, allocateImpl C A s c ≠ .error .assertion) ↔ InStep A s :=
    ⟨And.left, fun h => ⟨h, h.noAssertion C⟩⟩
  rw [hright]
  induction calls with
  | nil =>
    cases hrun
    simp
  | cons c calls ih =>
    obtain ⟨s₁, hstep, hrest⟩ := run_cons_ok.mp hrun
    by_cases hc : Refreshes c
    · have hs : InStep A s :=
        run_induction (fun _ _ _ h hnext => h.step hnext) (hc.inStep hstep) hrest
      exact iff_of_true hs (.inr ⟨c, List.mem_cons_self .., hc⟩)
    · obtain rfl := Except.ok.inj ((step_new hc).symm.trans hstep)
      have hmem : (∃ c' ∈ c :: calls, Refreshes c') ↔ ∃ c' ∈ calls, Refreshes c' := by
        simp [hc]
      rw [hmem]
      exact ih hrest

end Spec

theorem inStep_iff_fillShard :
    ∃ s, run (step ⟨4096, true⟩ BumpArena.arena) (new 1 BumpArena.start 0 0 0) fillShard = .ok s ∧
      ((InStep BumpArena.arena s ∧
          ∀ c, allocateImpl ⟨4096, true⟩ BumpArena.arena s c ≠ .error .assertion) ↔
        InStep BumpArena.arena (new 1 BumpArena.start 0 0 0) ∨ ∃ c ∈ fillShard, Refreshes c) :=
  ⟨_, rfl, inStep_iff ⟨4096, true⟩ BumpArena.arena BumpArena.start 0 0 0 rfl⟩

/-- Over zeroed memory, the copies do not know of the inline block, and the first call for 8 bytes
fails the assertion. -/
theorem not_inStep_new :
    ¬ InStep BumpArena.arena (new 1 BumpArena.start 0 0 0) ∧
      allocateImpl ⟨4096, true⟩ BumpArena.arena (new 1 BumpArena.start 0 0 0)
        (BumpArena.call 8 false) = .error .assertion := by
  refine ⟨fun h => ?_, rfl⟩
  exact absurd h.allocatedAndUnused (by decide)

end ShardedArena

end RangeCache
