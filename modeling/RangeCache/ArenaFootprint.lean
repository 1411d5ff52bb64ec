import Mathlib.Algebra.BigOperators.Group.Finset.Basic
import Mathlib.Data.Fintype.Basic
import RangeCache.ThreadSafety

/-!
# How much memory the shards waste

A shard that has too little for a call is refilled, and what it still had is lost. Such a call is
for at most a quarter of the usual refill, and a refill has at least half of the usual size. So
whatever the interleaving, at least half of what the arena has been asked for is with the callers
or still in the shards.

## Main definitions

* `unused`, `bytesOf` — what is left in the shards, and what calls have got
* `MeteredArena`, `MeteredRequest` — a count of the bytes that the arena is asked for
* `Footprint` — that count against what has become of the bytes

## Main results

* `Footprint.call` — a call keeps the footprint within its bounds
* `threads_footprint` — the bounds hold of all interleavings
-/

namespace RangeCache

open ByteMemory FallibleRun Linearization

namespace ShardedArena

section Footprint

variable {σ ι : Type} {shift : ℕ} {C : Config} {A : Arena σ} {asked : σ → ℕ} {start : σ}
  {m m' : ShardedArena σ shift} {got : ℕ}

/-- The bytes that are left in the shards. -/
def unused (m : ShardedArena σ shift) : ℕ := ∑ i, (m.shards i).allocatedAndUnused

/-- The bytes that calls have got. -/
def bytesOf (answers : List (Request σ × ℕ)) : ℕ := (answers.map fun a => a.1.bytes.toNat).sum

/-- `asked` counts the bytes that the arena is asked for. -/
def MeteredArena (A : Arena σ) (asked : σ → ℕ) : Prop :=
  ∀ a n base a', A.allocateAligned a n = some (base, a') → asked a' = asked a + n

/-- `func` asks the arena for as many bytes as the call is for. -/
def MeteredRequest (asked : σ → ℕ) (r : Request σ) : Prop :=
  ∀ a rv a', r.func a = some (rv, a') → asked a' = asked a + r.bytes.toNat

/-- The arena has been asked for what calls have got and what is in the shards, and at most for
twice as much. -/
structure Footprint (asked : σ → ℕ) (start : σ) (m : ShardedArena σ shift) (got : ℕ) : Prop where
  ge : asked start + (got + m.unused) ≤ asked m.arena
  le : asked m.arena ≤ asked start + 2 * (got + m.unused)

theorem unused_new (shift : ℕ) (arena : σ) (exact memory irregular : ℕ) :
    (new shift arena exact memory irregular).unused = 0 :=
  Finset.sum_eq_zero fun _ _ => rfl

/-- What is left, when a shard is replaced. -/
theorem unused_update (m : ShardedArena σ shift) (i : Fin (2 ^ shift)) (shard : Shard) :
    unused { m with shards := Function.update m.shards i shard }
        + (m.shards i).allocatedAndUnused = m.unused + shard.allocatedAndUnused := by
  have hupdate : (fun j => (Function.update m.shards i shard j).allocatedAndUnused)
      = Function.update (fun j => (m.shards j).allocatedAndUnused) i shard.allocatedAndUnused := by
    funext j
    exact Function.apply_update (fun _ => Shard.allocatedAndUnused) m.shards i shard j
  have hsplit := Finset.add_sum_erase Finset.univ (fun j => (m.shards j).allocatedAndUnused)
    (Finset.mem_univ i)
  rw [unused, unused, ← hsplit]
  show ∑ j, (Function.update m.shards i shard j).allocatedAndUnused + _ = _
  rw [hupdate, Finset.sum_update_of_mem (Finset.mem_univ i), Finset.sdiff_singleton_eq_erase]
  omega

/-- What a call leaves in the shard it takes its bytes from. -/
theorem takeFrom_allocatedAndUnused (freeBegin : ℕ) {avail : ℕ} {bytes : UInt64}
    (hle : bytes.toNat ≤ avail) (hlt : avail < 2 ^ 64) :
    (takeFrom freeBegin avail bytes).2.allocatedAndUnused = avail - bytes.toNat := by
  have hunused : u64 (avail + (2 ^ 64 - bytes.toNat)) = avail - bytes.toNat := by
    rw [u64]
    omega
  rw [takeFrom, ← hunused]
  split <;> rfl

/-- A refill has at least half of the usual size, and is no huge one. -/
theorem refillSize_bounds (C : Config) (exact : ℕ) :
    C.shardBlockSize / 2 ≤ refillSize C exact ∧ refillSize C exact < 2 ^ 64 := by
  have hmax : C.shardBlockSize ≤ kMaxShardBlockSize := min_le_left _ _
  rw [kMaxShardBlockSize] at hmax
  rw [refillSize]
  split <;> omega

/-- **The arena answers a call** by itself. -/
theorem Footprint.direct (h : Footprint asked start m got) {arena : σ} {n : ℕ}
    (hasked : asked arena = asked m.arena + n) :
    Footprint asked start (fixup A { m with arena }) (got + n) := by
  have hge := h.ge
  have hle := h.le
  constructor
  · show asked start + (got + n + m.unused) ≤ asked arena
    omega
  · show asked arena ≤ asked start + 2 * (got + n + m.unused)
    omega

/-- **A shard is refilled**, and loses what it had, at most half as much as it gets. -/
theorem Footprint.refill (h : Footprint asked start m got) {arena : σ} {n : ℕ}
    (hasked : asked arena = asked m.arena + n) (A : Arena σ) (base : ℕ) {i : Fin (2 ^ shift)}
    (hlost : 2 * (m.shards i).allocatedAndUnused ≤ n) :
    Footprint asked start { fixup A { m with arena } with
      shards := Function.update m.shards i ⟨base, n⟩ } got := by
  have hge := h.ge
  have hle := h.le
  have hunused : unused { m with shards := Function.update m.shards i ⟨base, n⟩ }
      + (m.shards i).allocatedAndUnused = m.unused + n := unused_update m i ⟨base, n⟩
  constructor
  · show asked start + (got + unused { m with shards := Function.update m.shards i _ })
      ≤ asked arena
    omega
  · show asked arena
      ≤ asked start + 2 * (got + unused { m with shards := Function.update m.shards i _ })
    omega

/-- **A shard answers a call.** -/
theorem Footprint.take (h : Footprint asked start m got) (i : Fin (2 ^ shift)) {shard : Shard}
    {n : ℕ} (hshard : shard.allocatedAndUnused + n = (m.shards i).allocatedAndUnused) :
    Footprint asked start { m with shards := Function.update m.shards i shard } (got + n) := by
  have hge := h.ge
  have hle := h.le
  have hunused := unused_update m i shard
  constructor
  · show asked start + (got + n + _) ≤ asked m.arena
    omega
  · show asked m.arena ≤ asked start + 2 * (got + n + _)
    omega

/-- **A call keeps the footprint within its bounds.** -/
theorem Footprint.call (h : Footprint asked start m got) (hA : MeteredArena A asked)
    {c : Call σ shift} {rv : ℕ}
    (hfunc : ∀ a rv a', c.func a = some (rv, a') → asked a' = asked a + c.bytes.toNat)
    (hword : ∀ i, (m.shards i).allocatedAndUnused < 2 ^ 64)
    (hcall : allocateImpl C A m c = .ok (rv, m')) :
    Footprint asked start m' (got + c.bytes.toNat) ∧
      ∀ i, (m'.shards i).allocatedAndUnused < 2 ^ 64 := by
  obtain ⟨-, arena, hret, rfl⟩ | ⟨hserved, hshort, base, arena, halloc, heq⟩ |
    ⟨hserved, hfit, heq⟩ := allocateImpl_cases hcall
  · exact ⟨h.direct (hfunc _ _ _ hret), hword⟩
  · have hle := le_availAt hserved
    have havail : availAt C m c = refillSize C m.arenaAllocatedAndUnused := if_pos hshort
    obtain ⟨hhalf, hlt⟩ := refillSize_bounds C m.arenaAllocatedAndUnused
    have hsmall : c.bytes.toNat ≤ C.shardBlockSize / 4 := by
      have hdirect := hserved.1
      simp only [goesToArena, Bool.or_eq_false_iff, decide_eq_false_iff_not, not_lt] at hdirect
      exact hdirect.1.1
    rw [← havail] at hhalf hlt
    rw [carve_eq, Prod.mk.injEq] at heq
    obtain ⟨-, rfl⟩ := heq
    have hunused := takeFrom_allocatedAndUnused base hle hlt
    have hrefill := h.refill (i := pick c) (hA _ _ _ _ halloc) A base (by omega)
    have hrest : (takeFrom base (availAt C m c) c.bytes).2.allocatedAndUnused + c.bytes.toNat =
        (Function.update m.shards (pick c) ⟨base, availAt C m c⟩ (pick c)).allocatedAndUnused := by
      rw [Function.update_self, hunused]
      exact Nat.sub_add_cancel hle
    have htake := hrefill.take (pick c) hrest
    simp only [Function.update_idem] at htake
    refine ⟨htake, fun j => ?_⟩
    refine forall_update (P := fun t => t.allocatedAndUnused < 2 ^ 64) ?_ hword j
    rw [hunused]
    omega
  · have hle := le_availAt hserved
    have havail : availAt C m c = (m.shards (pick c)).allocatedAndUnused := if_neg hfit
    have hlt : availAt C m c < 2 ^ 64 := havail ▸ hword (pick c)
    rw [carve_eq, Prod.mk.injEq] at heq
    obtain ⟨-, rfl⟩ := heq
    have hunused := takeFrom_allocatedAndUnused (m.shards (pick c)).freeBegin hle hlt
    refine ⟨h.take (pick c) (by rw [hunused]; omega), fun j => ?_⟩
    refine forall_update (P := fun t => t.allocatedAndUnused < 2 ^ 64) ?_ hword j
    rw [hunused]
    omega

/-- One call after the other. -/
theorem Footprint.replays {order : List (Entry ι (Request σ) (Call σ shift) ℕ)}
    (h : Footprint asked start m got) (hA : MeteredArena A asked)
    (hadmits : ∀ e ∈ order, Admits e.request e.call)
    (hmetered : ∀ e ∈ order, MeteredRequest asked e.request)
    (hword : ∀ i, (m.shards i).allocatedAndUnused < 2 ^ 64)
    (hreplays : Replays (allocateImpl C A) m order m') :
    Footprint asked start m' (got + (order.map fun e => e.request.bytes.toNat).sum) := by
  induction order generalizing m got with
  | nil =>
    obtain rfl : m = m' := hreplays
    exact h
  | cons e order ih =>
    obtain ⟨m₁, hcall, hrest⟩ := hreplays
    obtain ⟨hbytes, hfunc, -⟩ := hadmits e (List.mem_cons_self ..)
    have hreturns : ∀ a rv a', e.call.func a = some (rv, a') →
        asked a' = asked a + e.call.bytes.toNat := by
      rw [hfunc, hbytes]
      exact hmetered e (List.mem_cons_self ..)
    obtain ⟨hnext, hword'⟩ := h.call hA hreturns hword hcall
    have hall := ih hnext (fun f hf => hadmits f (List.mem_cons_of_mem _ hf))
      (fun f hf => hmetered f (List.mem_cons_of_mem _ hf)) hword' hrest
    rw [hbytes, Nat.add_assoc] at hall
    simpa using hall

/-- **At least half of the memory is put to use**, however the threads are interleaved. With what
is about to be done counted as done, the arena has been asked for what the calls have got and what
is left in the shards, and for at most twice as much. -/
theorem threads_footprint [Fintype ι] [DecidableEq ι] (C : Config) (threadLocal : Bool)
    (hA : MeteredArena A asked) (arena : σ) (exact memory irregular : ℕ)
    {acts : List (ι × Act σ shift)} {s : Threads σ ι shift}
    (hmetered : ∀ t, ∀ r ∈ requestsOf t acts, MeteredRequest asked r)
    (hrun : run (threadStep C threadLocal A)
      (Threads.start (new shift arena exact memory irregular)) acts = .ok s) :
    Footprint asked arena (s.settled A) (∑ t, bytesOf (s.answered t)) ∧
      ((∀ t, s.pc t = .idle) → Footprint asked arena s.memory (∑ t, bytesOf (s.returned t))) := by
  obtain ⟨-, order, hlin⟩ := linearizes_run hrun
  have hacc := accounted_run hrun
  have hnew : Footprint asked arena (new shift arena exact memory irregular) 0 := by
    constructor <;> rw [unused_new]
    · exact le_rfl
    · exact Nat.le_add_right _ _
  have hall := hnew.replays hA hlin.admits
    (fun e he => hmetered _ _ (request_mem hacc hlin he)) (fun _ => Nat.two_pow_pos 64)
    hlin.replays
  have hgot : ∑ t, bytesOf (s.answered t)
      = 0 + (order.map fun e => e.request.bytes.toNat).sum := by
    have hsum := sum_answersOf (fun answer : Request σ × ℕ => answer.1.bytes.toNat) order
    rw [Nat.zero_add, ← hsum]
    exact Finset.sum_congr rfl fun t _ => congrArg bytesOf (hlin.answers t).symm
  have hsettled : Footprint asked arena (s.settled A) (∑ t, bytesOf (s.answered t)) := by
    rw [hgot]
    exact hall
  refine ⟨hsettled, fun hidle => ?_⟩
  obtain ⟨hmemory, hreturned⟩ := settled_of_idle (A := A) hidle
  rwa [hmemory, hreturned] at hsettled

end Footprint

namespace BumpArena

/-- The bytes that the arena has been asked for. -/
def asked (a : BumpArena) : ℕ := (a.given.map Extent.size).sum

theorem asked_allocateAligned {a a' : BumpArena} {n base : ℕ}
    (h : a.allocateAligned n = some (base, a')) : a'.asked = a.asked + n := by
  obtain ⟨-, -, hgiven, -⟩ := allocateAligned_spec h
  rw [asked, asked, hgiven, List.map_cons, List.sum_cons, Nat.add_comm]

end BumpArena

/-- A thread that does not get the arena, and has the shard refilled. -/
def refillShard : List (Bool × Act BumpArena 1) :=
  let go (taken : Bool) : Act BumpArena 1 := .go taken (coreIndex 1 0)
  let request : Act BumpArena 1 := .call ⟨8, false, fun a => a.allocateAligned 8⟩
  [(false, request)] ++ List.replicate 2 (false, go false) ++ [(false, go true)] ++
    List.replicate 10 (false, go false)

theorem threads_footprint_refillShard :
    ∃ s, run (threadStep ⟨4096, false⟩ true BumpArena.arena)
        (Threads.start (new 1 BumpArena.start 0 0 0)) refillShard = .ok s ∧
      s.memory.unused = 504 ∧ s.memory.arena.asked = 512 ∧
      Footprint BumpArena.asked BumpArena.start (s.settled BumpArena.arena)
        (∑ t, bytesOf (s.answered t)) ∧
      ((∀ t, s.pc t = .idle) →
        Footprint BumpArena.asked BumpArena.start s.memory (∑ t, bytesOf (s.returned t))) := by
  have hmetered : ∀ t, ∀ r ∈ requestsOf t refillShard, MeteredRequest BumpArena.asked r := by
    have hrequest : MeteredRequest BumpArena.asked
        (⟨8, false, fun a => a.allocateAligned 8⟩ : Request BumpArena) :=
      fun _ _ _ h => BumpArena.asked_allocateAligned h
    intro t r hr
    cases t with
    | false =>
      have hfalse : requestsOf false refillShard = [⟨8, false, fun a => a.allocateAligned 8⟩] := rfl
      obtain rfl := List.mem_singleton.mp (hfalse ▸ hr)
      exact hrequest
    | true => cases hr
  refine ⟨_, rfl, rfl, rfl, ?_⟩
  exact threads_footprint ⟨4096, false⟩ true (fun _ _ _ _ h => BumpArena.asked_allocateAligned h)
    BumpArena.start 0 0 0 hmetered rfl

end ShardedArena

end RangeCache
