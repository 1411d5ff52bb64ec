import RangeCache.ShardedArena

/-!
# What the shards hand out

Whatever shards the calls pick, whichever locks they get and in whatever order they come: nothing
that `AllocateImpl` returns overlaps anything else it has returned or what is left of a shard. The
arena under it is only assumed to hand out memory that it has not handed out before.

## Main definitions

* `HandsOut`, `FreshArena`, `FreshFunc` — what is assumed of the arena
* `ShardHistory`, `request` — the shards, with the regions they and the arena have returned
* `ShardsApart`, `CallSound` — what holds in every state, and of the next call

## Main results

* `ShardsOk.refill`, `ShardsOk.carve` — what a call does to a shard keeps the invariant `ShardsOk`
* `ShardsOk.request` — a call keeps it
* `allocateImpl_sound` — the shards are apart and the next call is sound, after every sequence of
  calls
-/

namespace RangeCache

open ByteMemory FallibleRun

namespace ShardedArena

section Assumptions

variable {σ : Type} {shift : ℕ}

/-- From `a` to `a'`, the arena has handed out `e`, and nothing of it before; `given` is the memory
it has handed out by the time it is in a state. -/
structure HandsOut (given : σ → List Extent) (a a' : σ) (e : Extent) : Prop where
  fresh : ∀ f ∈ given a, f.Disjoint e
  mem : e ∈ given a'
  mono : ∀ f ∈ given a, f ∈ given a'

/-- `arena_.AllocateAligned` returns fresh memory, aligned to 8 bytes. -/
structure FreshArena (A : Arena σ) (given : σ → List Extent) : Prop where
  handsOut : ∀ a n base a', A.allocateAligned a n = some (base, a') → HandsOut given a a' ⟨base, n⟩
  aligned : ∀ a n base a', A.allocateAligned a n = some (base, a') → 8 ∣ base
  inAddressSpace : ∀ a n base a', A.allocateAligned a n = some (base, a') → base + n < 2 ^ 64

/-- `func` returns fresh memory. -/
def FreshFunc (given : σ → List Extent) (c : Call σ shift) : Prop :=
  ∀ a rv a', c.func a = some (rv, a') → HandsOut given a a' ⟨rv, c.bytes.toNat⟩

end Assumptions

/-! ## Sequences of calls -/

/-- The shards, and the regions `AllocateImpl` has returned, the latest first. -/
structure ShardHistory (σ : Type) (shift : ℕ) where
  state : ShardedArena σ shift
  regions : List Extent

section Spec

variable {σ : Type} {shift : ℕ}

/-- One call of `AllocateImpl`. -/
def request (C : Config) (A : Arena σ) (h : ShardHistory σ shift) (c : Call σ shift) :
    Except Abort (ShardHistory σ shift) := do
  let (rv, state) ← allocateImpl C A h.state c
  return { state, regions := ⟨rv, c.bytes.toNat⟩ :: h.regions }

/-- The regions returned, and what is left of each shard, do not overlap. -/
structure ShardsApart (h : ShardHistory σ shift) : Prop where
  regions : h.regions.Pairwise Extent.Disjoint
  shard_region : ∀ i, ∀ e ∈ h.regions, (h.state.shards i).free.Disjoint e
  shard_shard : ∀ i j, i ≠ j → (h.state.shards i).free.Disjoint (h.state.shards j).free

/-- A call that is served by a shard subtracts no more than there is, and returns an aligned address
for a multiple of 8 bytes. -/
structure CallSound (C : Config) (A : Arena σ) (s : ShardedArena σ shift) (c : Call σ shift) :
    Prop where
  noUnderflow : ServedByShard C A s c → c.bytes.toNat ≤ availAt C s c
  aligned : ServedByShard C A s c → 8 ∣ c.bytes.toNat →
    ∀ rv s', allocateImpl C A s c = .ok (rv, s') → 8 ∣ rv

/-- **The invariant.** Everything returned, and what is left of the shards, has been carved out of
the memory of the arena; the shards begin at aligned addresses. -/
structure ShardsOk (given : σ → List Extent) (h : ShardHistory σ shift) : Prop where
  carved : CarvedMany (given h.state.arena) (fun i => (h.state.shards i).free) h.regions
  aligned : ∀ i, 8 ∣ (h.state.shards i).freeBegin
  inAddressSpace : ∀ i,
    (h.state.shards i).freeBegin + (h.state.shards i).allocatedAndUnused < 2 ^ 64

variable {given : σ → List Extent} {h h' : ShardHistory σ shift}

theorem ShardsOk.apart (hok : ShardsOk given h) : ShardsApart h :=
  ⟨(hok.carved.carved (coreIndex shift 0)).disjoint, fun i => (hok.carved.carved i).free_disjoint,
    hok.carved.frees_disjoint⟩

theorem shardsOk_new (given : σ → List Extent) (shift : ℕ) (arena : σ)
    (exact memory irregular : ℕ) :
    ShardsOk given ⟨new shift arena exact memory irregular, []⟩ :=
  ⟨CarvedMany.start _ 0, fun _ => Nat.dvd_zero 8, fun _ => Nat.two_pow_pos 64⟩

/-! ## One call -/

/-- `rv` and the new shard are two parts of `avail` bytes from `freeBegin` on. -/
structure CarvedShard (freeBegin avail : ℕ) (bytes : UInt64) (rv : ℕ) (shard : Shard) : Prop where
  free_inside : shard.free.Inside ⟨freeBegin, avail⟩
  region_inside : Extent.Inside ⟨rv, bytes.toNat⟩ ⟨freeBegin, avail⟩
  disjoint : shard.free.Disjoint ⟨rv, bytes.toNat⟩
  freeBegin_dvd : 8 ∣ freeBegin → 8 ∣ shard.freeBegin
  rv_eq : 8 ∣ bytes.toNat → rv = freeBegin

/-- **Either end of a shard.** -/
theorem carve_spec (s : ShardedArena σ shift) (i : Fin (2 ^ shift)) {freeBegin avail : ℕ}
    {bytes : UInt64} (hle : bytes.toNat ≤ avail) (hlt : freeBegin + avail < 2 ^ 64) :
    ∃ rv shard, carve s i freeBegin avail bytes =
        (rv, { s with shards := Function.update s.shards i shard }) ∧
      CarvedShard freeBegin avail bytes rv shard := by
  have hunused : u64 (avail + (2 ^ 64 - bytes.toNat)) = avail - bytes.toNat := by
    rw [u64]
    omega
  by_cases hmod : bytes.toNat % 8 = 0
  · have hbegin : u64 (freeBegin + bytes.toNat) = freeBegin + bytes.toNat := u64_of_lt (by omega)
    refine ⟨freeBegin, ⟨freeBegin + bytes.toNat, avail - bytes.toNat⟩, ?_, ?_, ?_, ?_, ?_, ?_⟩
    · simp only [carve, if_pos hmod, hunused, hbegin]
    · exact ⟨Nat.le_add_right _ _, by simp only [Shard.free]; omega⟩
    · exact ⟨le_rfl, by simp only; omega⟩
    · exact (Extent.disjoint_of_le (by simp only [Shard.free]; omega)).symm
    · exact fun hdvd => Nat.dvd_add hdvd (Nat.dvd_of_mod_eq_zero hmod)
    · exact fun _ => rfl
  · have hrv : u64 (freeBegin + avail + (2 ^ 64 - bytes.toNat))
        = freeBegin + (avail - bytes.toNat) := by
      rw [u64]
      omega
    refine ⟨freeBegin + (avail - bytes.toNat), ⟨freeBegin, avail - bytes.toNat⟩,
      ?_, ?_, ?_, ?_, ?_, ?_⟩
    · simp only [carve, if_neg hmod, hunused, hrv]
    · exact ⟨le_rfl, by simp only [Shard.free]; omega⟩
    · exact ⟨Nat.le_add_right _ _, by simp only; omega⟩
    · exact Extent.disjoint_of_le le_rfl
    · exact id
    · exact fun hdvd => absurd (Nat.mod_eq_zero_of_dvd hdvd) hmod

/-- A region handed out by the arena and returned as it is. -/
theorem ShardsOk.whole (hok : ShardsOk given h) {arena : σ} {e : Extent}
    (hout : HandsOut given h.state.arena arena e) (A : Arena σ) :
    ShardsOk given ⟨fixup A { h.state with arena }, e :: h.regions⟩ := by
  refine ⟨(hok.carved.whole hout.fresh).mono ?_, hok.aligned, hok.inAddressSpace⟩
  exact List.forall_mem_cons.mpr ⟨hout.mem, hout.mono⟩

/-- The parts that are left, when a shard is replaced. -/
theorem free_update (shards : Fin (2 ^ shift) → Shard) (i : Fin (2 ^ shift)) (shard : Shard) :
    (fun j => (Function.update shards i shard j).free)
      = Function.update (fun j => (shards j).free) i shard.free := by
  funext j
  exact Function.apply_update (fun _ => Shard.free) shards i shard j

/-- What holds of every shard, when one of them is replaced. -/
theorem forall_update {P : Shard → Prop} {shards : Fin (2 ^ shift) → Shard} {i : Fin (2 ^ shift)}
    {shard : Shard} (hi : P shard) (hall : ∀ j, P (shards j)) (j : Fin (2 ^ shift)) :
    P (Function.update shards i shard j) :=
  (Function.forall_update_iff shards (p := fun _ => P)).mpr ⟨hi, fun k _ => hall k⟩ j

/-- **A shard is filled** with a new block. -/
theorem ShardsOk.refill (hok : ShardsOk given h) {arena : σ} {base n : ℕ}
    (hout : HandsOut given h.state.arena arena ⟨base, n⟩) (hdvd : 8 ∣ base)
    (hlt : base + n < 2 ^ 64) (A : Arena σ) (i : Fin (2 ^ shift)) :
    ShardsOk given ⟨{ fixup A { h.state with arena } with
      shards := Function.update h.state.shards i ⟨base, n⟩ }, h.regions⟩ := by
  have hopen : CarvedMany (given arena)
      (Function.update (fun j => (h.state.shards j).free) i ⟨base, n⟩) h.regions :=
    (hok.carved.openBlock i hout.fresh).mono (List.forall_mem_cons.mpr ⟨hout.mem, hout.mono⟩)
  constructor
  · show CarvedMany (given arena) (fun j => (Function.update h.state.shards i _ j).free) h.regions
    rw [free_update]
    exact hopen
  · exact forall_update (P := fun t => 8 ∣ t.freeBegin) hdvd hok.aligned
  · exact forall_update (P := fun t => t.freeBegin + t.allocatedAndUnused < 2 ^ 64) hlt
      hok.inAddressSpace

/-- **A region is taken from a shard.** -/
theorem ShardsOk.carve {s : ShardedArena σ shift} {i : Fin (2 ^ shift)} {rv : ℕ} {bytes : UInt64}
    {shard : Shard} {regions : List Extent} (hok : ShardsOk given ⟨s, regions⟩)
    (hpos : 0 < bytes.toNat)
    (hshard : CarvedShard (s.shards i).freeBegin (s.shards i).allocatedAndUnused bytes rv shard) :
    ShardsOk given ⟨{ s with shards := Function.update s.shards i shard },
      ⟨rv, bytes.toNat⟩ :: regions⟩ := by
  constructor
  · show CarvedMany (given s.arena) (fun j => (Function.update s.shards i shard j).free) _
    rw [free_update]
    exact hok.carved.take hpos hshard.region_inside hshard.free_inside hshard.disjoint
  · exact forall_update (P := fun t => 8 ∣ t.freeBegin) (hshard.freeBegin_dvd (hok.aligned i))
      hok.aligned
  · have hlt : shard.freeBegin + shard.allocatedAndUnused < 2 ^ 64 :=
      lt_of_le_of_lt hshard.free_inside.2 (hok.inAddressSpace i)
    exact forall_update (P := fun t => t.freeBegin + t.allocatedAndUnused < 2 ^ 64) hlt
      hok.inAddressSpace

variable {C : Config} {A : Arena σ} {c : Call σ shift}

/-- **A call that is served by a shard** takes one end of what the shard has, if need be after it
has been filled. -/
theorem ShardsOk.served (hok : ShardsOk given h) (hA : FreshArena A given)
    (hserved : ServedByShard C A h.state c) {rv : ℕ} {s' : ShardedArena σ shift}
    (hcall : allocateImpl C A h.state c = .ok (rv, s')) :
    ∃ (s : ShardedArena σ shift) (shard : Shard), ShardsOk given ⟨s, h.regions⟩ ∧
      CarvedShard (s.shards (pick c)).freeBegin (s.shards (pick c)).allocatedAndUnused c.bytes rv
        shard ∧
      s' = { s with shards := Function.update s.shards (pick c) shard } := by
  have hle := le_availAt hserved
  obtain ⟨hnot, -⟩ | ⟨-, -, base, arena, halloc, heq⟩ | ⟨-, hfit, heq⟩ := allocateImpl_cases hcall
  · exact absurd hserved hnot
  · have hlt := hA.inAddressSpace _ _ _ _ halloc
    obtain ⟨rv', shard, hcarve, hshard⟩ :=
      carve_spec (fixup A { h.state with arena }) (pick c) hle hlt
    rw [hcarve, Prod.mk.injEq] at heq
    obtain ⟨rfl, rfl⟩ := heq
    refine ⟨_, shard, hok.refill (hA.handsOut _ _ _ _ halloc) (hA.aligned _ _ _ _ halloc) hlt A
      (pick c), ?_, ?_⟩
    · simp only [Function.update_self]
      exact hshard
    · simp only [Function.update_idem]
      rfl
  · have havail : availAt C h.state c = (h.state.shards (pick c)).allocatedAndUnused := if_neg hfit
    rw [havail] at hle heq
    obtain ⟨rv', shard, hcarve, hshard⟩ :=
      carve_spec h.state (pick c) hle (hok.inAddressSpace (pick c))
    rw [hcarve, Prod.mk.injEq] at heq
    obtain ⟨rfl, rfl⟩ := heq
    exact ⟨h.state, shard, hok, hshard, rfl⟩

/-- **A call keeps the invariant.** -/
theorem ShardsOk.request (hok : ShardsOk given h) (hA : FreshArena A given)
    (hfunc : FreshFunc given c) (hpos : 0 < c.bytes.toNat)
    (hreq : ShardedArena.request C A h c = .ok h') : ShardsOk given h' := by
  obtain ⟨⟨rv, s'⟩, hcall, hreq⟩ := bind_eq_ok.mp hreq
  obtain rfl := Except.ok.inj hreq
  by_cases hserved : ServedByShard C A h.state c
  · obtain ⟨s, shard, hs, hshard, rfl⟩ := hok.served hA hserved hcall
    exact hs.carve hpos hshard
  · obtain ⟨-, arena, hret, rfl⟩ | ⟨hshard, -⟩ | ⟨hshard, -⟩ := allocateImpl_cases hcall
    · exact hok.whole (hfunc _ _ _ hret) A
    · exact absurd hshard hserved
    · exact absurd hshard hserved

/-- The next call is sound, too. -/
theorem ShardsOk.callSound (hok : ShardsOk given h) (hA : FreshArena A given) (C : Config)
    (c : Call σ shift) : CallSound C A h.state c := by
  refine ⟨le_availAt, fun hserved hdvd rv s' hcall => ?_⟩
  obtain ⟨s, shard, hs, hshard, -⟩ := hok.served hA hserved hcall
  rw [hshard.rv_eq hdvd]
  exact hs.aligned (pick c)

/-- **Sharded allocation is sound.** Over every sequence of calls, whatever shards they pick and
locks they get: what has been returned and what is left of the shards does not overlap, no shard
gives more than it has, and shards give aligned memory for multiples of 8 bytes. -/
theorem allocateImpl_sound (C : Config) (hA : FreshArena A given) (arena : σ)
    (exact memory irregular : ℕ) {calls : List (Call σ shift)}
    (hfunc : ∀ c ∈ calls, FreshFunc given c) (hpos : ∀ c ∈ calls, 0 < c.bytes.toNat)
    (hrun : run (ShardedArena.request C A) ⟨new shift arena exact memory irregular, []⟩ calls
      = .ok h) :
    ShardsApart h ∧ ∀ c : Call σ shift, CallSound C A h.state c := by
  have hstep : ∀ c ∈ calls, ∀ g g', ShardsOk given g →
      ShardedArena.request C A g c = .ok g' → ShardsOk given g' :=
    fun c hc g g' hg hreq => hg.request hA (hfunc c hc) (hpos c hc) hreq
  have hok : ShardsOk given h :=
    run_induction_mem hstep (shardsOk_new given shift arena exact memory irregular) hrun
  exact ⟨hok.apart, hok.callSound hA C⟩

end Spec

/-! ## An arena -/

/-- An arena with an inline block of 2048 bytes at the address 4096 and further blocks of one page,
on a heap that does not reuse addresses. -/
structure BumpArena where
  given : List Extent
  alignedAllocPtr : ℕ
  allocBytesRemaining : ℕ
  blocksMemory : ℕ
  irregularBlockNum : ℕ
  blocksEmpty : Bool

namespace BumpArena

def start : BumpArena :=
  { given := [], alignedAllocPtr := 4096, allocBytesRemaining := 2048, blocksMemory := 2048,
    irregularBlockNum := 0, blocksEmpty := true }

/-- The first aligned address from `lo` on, past everything handed out. -/
def next (a : BumpArena) (lo : ℕ) : ℕ := (max (endOf a.given) lo + 7) / 8 * 8

/-- Hand out `n` bytes at `base`. -/
def handOut (a : BumpArena) (base n : ℕ) : Option (ℕ × BumpArena) :=
  if base + n < 2 ^ 64 then some (base, { a with given := ⟨base, n⟩ :: a.given }) else none

def allocateAligned (a : BumpArena) (n : ℕ) : Option (ℕ × BumpArena) :=
  let blockEnd := a.alignedAllocPtr + a.allocBytesRemaining
  let base := a.next a.alignedAllocPtr
  let block := a.next blockEnd
  if base + n ≤ blockEnd then
    let arena := { a with
      alignedAllocPtr := base + n
      allocBytesRemaining := blockEnd - (base + n) }
    arena.handOut base n
  else if 4096 / 4 < n then
    let arena := { a with
      blocksMemory := a.blocksMemory + n
      irregularBlockNum := a.irregularBlockNum + 1
      blocksEmpty := false }
    arena.handOut block n
  else
    let arena := { a with
      alignedAllocPtr := block + n
      allocBytesRemaining := 4096 - n
      blocksMemory := a.blocksMemory + 4096
      blocksEmpty := false }
    arena.handOut block n

def arena : Arena BumpArena :=
  { allocateAligned
    allocatedAndUnused := allocBytesRemaining
    memoryAllocatedBytes := blocksMemory
    irregularBlockNum := irregularBlockNum
    isInInlineBlock := blocksEmpty }

/-- A call of `AllocateImpl` for aligned memory, by a thread that has repicked, on the core 1; every
lock is free. -/
def call (bytes : UInt64) (forceArena : Bool) : Call BumpArena 1 :=
  { bytes, forceArena, func := fun a => a.allocateAligned bytes.toNat, tlsCpuid := 3,
    arenaTryLock := true, shardTryLock := true, repick := 0 }

variable {a a' : BumpArena} {lo n base : ℕ}

theorem le_next (a : BumpArena) (lo : ℕ) : endOf a.given ≤ a.next lo := by
  rw [next]
  omega

theorem handOut_spec (hle : endOf a.given ≤ lo) (h : a.handOut lo n = some (base, a')) :
    base = lo ∧ lo + n < 2 ^ 64 ∧ a'.given = ⟨lo, n⟩ :: a.given ∧
      ∀ f ∈ a.given, f.Disjoint ⟨lo, n⟩ := by
  rw [handOut] at h
  split at h
  · next hlt =>
    obtain ⟨rfl, rfl⟩ := Prod.mk.inj (Option.some.inj h)
    exact ⟨rfl, hlt, rfl, fun f hf => Extent.disjoint_of_le ((le_endOf hf).trans hle)⟩
  · cases h

/-- Whatever the block, the memory is past everything handed out. -/
theorem allocateAligned_spec (h : a.allocateAligned n = some (base, a')) :
    8 ∣ base ∧ base + n < 2 ^ 64 ∧ a'.given = ⟨base, n⟩ :: a.given ∧
      ∀ f ∈ a.given, f.Disjoint ⟨base, n⟩ := by
  obtain ⟨lo, b, hgiven, hout⟩ : ∃ (lo : ℕ) (b : BumpArena), b.given = a.given ∧
      b.handOut (a.next lo) n = some (base, a') := by
    simp only [allocateAligned] at h
    split at h
    · refine ⟨_, _, ?_, h⟩
      rfl
    split at h
    · refine ⟨_, _, ?_, h⟩
      rfl
    · refine ⟨_, _, ?_, h⟩
      rfl
  have hle : endOf b.given ≤ a.next lo := hgiven ▸ a.le_next lo
  obtain ⟨rfl, hlt, hcons, hfresh⟩ := handOut_spec hle hout
  rw [hgiven] at hcons hfresh
  exact ⟨Nat.dvd_mul_left 8 _, hlt, hcons, hfresh⟩

theorem handsOut (h : a.allocateAligned n = some (base, a')) :
    HandsOut given a a' ⟨base, n⟩ := by
  obtain ⟨-, -, hgiven, hfresh⟩ := allocateAligned_spec h
  refine ⟨hfresh, ?_, fun f hf => ?_⟩
  · rw [hgiven]
    exact List.mem_cons_self ..
  · rw [hgiven]
    exact List.mem_cons_of_mem _ hf

theorem freshArena : FreshArena arena given :=
  ⟨fun _ _ _ _ h => handsOut h, fun _ _ _ _ h => (allocateAligned_spec h).1,
    fun _ _ _ _ h => (allocateAligned_spec h).2.1⟩

theorem freshFunc (bytes : UInt64) (forceArena : Bool) : FreshFunc given (call bytes forceArena) :=
  fun _ _ _ h => handsOut h

end BumpArena

/-- The inline block is used up, then a shard is filled and gives memory from both ends. -/
def fillShard : List (Call BumpArena 1) :=
  [BumpArena.call 2000 true, BumpArena.call 64 false, BumpArena.call 5 false]

theorem allocateImpl_sound_fillShard :
    ∃ h, run (ShardedArena.request ⟨4096, true⟩ BumpArena.arena)
        ⟨new 1 BumpArena.start 0 0 0, []⟩ fillShard = .ok h ∧
      h.regions = [⟨6651, 5⟩, ⟨6144, 64⟩, ⟨4096, 2000⟩] ∧
      ShardsApart h ∧
      ∀ c : Call BumpArena 1, CallSound ⟨4096, true⟩ BumpArena.arena h.state c := by
  have hfunc : ∀ c ∈ fillShard, FreshFunc BumpArena.given c := by
    simp [fillShard, BumpArena.freshFunc]
  have hpos : ∀ c ∈ fillShard, 0 < c.bytes.toNat := by
    simp [fillShard, BumpArena.call]
  refine ⟨_, rfl, rfl, ?_⟩
  exact allocateImpl_sound ⟨4096, true⟩ BumpArena.freshArena BumpArena.start 0 0 0 hfunc hpos rfl

end ShardedArena

end RangeCache
