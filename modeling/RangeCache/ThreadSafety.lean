import RangeCache.ArenaLinearization

/-!
# What the threads get

What holds of calls of `AllocateImpl` that come one after the other holds of all interleavings: the
memory that the threads have got does not overlap, and the assertion about the copy of the arena's
figure does not fail.

## Main definitions

* `FreshRequest` — what is assumed of `func`
* `Threads.regions` — the memory that a thread has got

## Main results

* `threads_apart` — no two regions that have been returned overlap
* `threads_inStep` — the copies are right whenever nobody holds the arena
-/

namespace RangeCache

open ByteMemory FallibleRun Linearization

namespace ShardedArena

section Spec

variable {σ ι : Type} {shift : ℕ} {given : σ → List Extent} {C : Config} {A : Arena σ}
  {m m' : ShardedArena σ shift} {s s₁ s₂ : Threads σ ι shift} {t : ι} {p : Pc σ shift}

/-- `func` returns fresh memory. -/
def FreshRequest (given : σ → List Extent) (r : Request σ) : Prop :=
  ∀ a rv a', r.func a = some (rv, a') → HandsOut given a a' ⟨rv, r.bytes.toNat⟩

/-- What a request has got. -/
def region (answer : Request σ × ℕ) : Extent := ⟨answer.2, answer.1.bytes.toNat⟩

/-- The memory that a thread has got, the latest last. -/
def Threads.regions (s : Threads σ ι shift) (t : ι) : List Extent := (s.returned t).map region

/-- The entries of a linearization, as regions. -/
def entryRegion (e : Entry ι (Request σ) (Call σ shift) ℕ) : Extent :=
  ShardedArena.region (e.request, e.answer)

theorem Pc.request?_of_answer? {answer : Request σ × ℕ} (h : p.answer? m = some answer) :
    p.request? = some answer.1 := by
  cases p <;> first | cases h; rfl | cases h

/-- **One call after the other**: the memory they have got, and what is left of the shards, has been
carved out of the memory of the arena. -/
theorem ShardsOk.replays {order : List (Entry ι (Request σ) (Call σ shift) ℕ)}
    {regions : List Extent} (hok : ShardsOk given ⟨m, regions⟩) (hA : FreshArena A given)
    (hadmits : ∀ e ∈ order, Admits e.request e.call)
    (hfresh : ∀ e ∈ order, FreshRequest given e.request)
    (hpos : ∀ e ∈ order, 0 < e.request.bytes.toNat)
    (h : Replays (allocateImpl C A) m order m') :
    ShardsOk given ⟨m', (order.map entryRegion).reverse ++ regions⟩ := by
  induction order generalizing m regions with
  | nil =>
    obtain rfl : m = m' := h
    exact hok
  | cons e order ih =>
    obtain ⟨m₁, hcall, hrest⟩ := h
    obtain ⟨hbytes, hfunc, -⟩ := hadmits e (List.mem_cons_self ..)
    have hreq : ShardedArena.request C A ⟨m, regions⟩ e.call
        = Except.ok ⟨m₁, ⟨e.answer, e.call.bytes.toNat⟩ :: regions⟩ := by
      simp only [ShardedArena.request, hcall, ok_bind]
      rfl
    have hfreshFunc : FreshFunc given e.call := by
      intro a rv a' hret
      rw [hbytes]
      exact hfresh e (List.mem_cons_self ..) a rv a' (hfunc ▸ hret)
    have hnext := hok.request hA hfreshFunc (hbytes ▸ hpos e (List.mem_cons_self ..)) hreq
    have hall := ih hnext (fun f hf => hadmits f (List.mem_cons_of_mem _ hf))
      (fun f hf => hfresh f (List.mem_cons_of_mem _ hf))
      (fun f hf => hpos f (List.mem_cons_of_mem _ hf)) hrest
    rw [hbytes] at hall
    simpa [entryRegion, ShardedArena.region] using hall

variable [DecidableEq ι] {threadLocal : Bool}

/-- The entries of a linearization are calls that have been made. -/
theorem request_mem {order : List (Entry ι (Request σ) (Call σ shift) ℕ)}
    {acts : List (ι × Act σ shift)} {a : ShardedArena σ shift} (hacc : Accounted s acts)
    (h : Linearizes (specification C A) a s order)
    {e : Entry ι (Request σ) (Call σ shift) ℕ} (he : e ∈ order) :
    e.request ∈ requestsOf e.thread acts := by
  have hmem : (e.request, e.answer) ∈ answersOf e.thread order := by
    refine List.mem_map.mpr ⟨e, List.mem_filter.mpr ⟨he, by simp⟩, rfl⟩
  rw [h.answers e.thread] at hmem
  rw [hacc.requests e.thread]
  rcases List.mem_append.mp hmem with hret | hanswer
  · exact List.mem_append_left _ (List.mem_map.mpr ⟨_, hret, rfl⟩)
  · have hrequest := Pc.request?_of_answer? (Option.mem_toList.mp hanswer)
    rw [hrequest]
    simp

/-- What a thread has got is among the entries. -/
theorem mem_regions {order : List (Entry ι (Request σ) (Call σ shift) ℕ)}
    {a : ShardedArena σ shift} (h : Linearizes (specification C A) a s order) {e : Extent}
    (he : e ∈ s.regions t) : ∃ entry ∈ order, entry.thread = t ∧ entryRegion entry = e := by
  obtain ⟨answer, hmem, rfl⟩ := List.mem_map.mp he
  have hanswered : answer ∈ answersOf t order := by
    rw [h.answers t]
    exact List.mem_append_left _ hmem
  obtain ⟨entry, hentry, rfl⟩ := List.mem_map.mp hanswered
  obtain ⟨hin, hthread⟩ := List.mem_filter.mp hentry
  exact ⟨entry, hin, of_decide_eq_true hthread, rfl⟩

/-- The threads, and the shards that nobody has locked, have memory of their own. -/
structure ThreadsApart (s : Threads σ ι shift) : Prop where
  own : ∀ t, (s.regions t).Pairwise Extent.Disjoint
  others : ∀ t u, t ≠ u → ∀ e ∈ s.regions t, ∀ f ∈ s.regions u, e.Disjoint f
  shard : ∀ i, s.shardMutex i = none → ∀ t, ∀ e ∈ s.regions t,
    (s.memory.shards i).free.Disjoint e
  shards : ∀ i j, i ≠ j → s.shardMutex i = none → s.shardMutex j = none →
    (s.memory.shards i).free.Disjoint (s.memory.shards j).free

/-- **No memory is given out twice**, however the threads are interleaved. -/
theorem threads_apart (C : Config) (threadLocal : Bool) (hA : FreshArena A given) (arena : σ)
    (exact memory irregular : ℕ) {acts : List (ι × Act σ shift)}
    (hfresh : ∀ t, ∀ r ∈ requestsOf t acts, FreshRequest given r)
    (hpos : ∀ t, ∀ r ∈ requestsOf t acts, 0 < r.bytes.toNat)
    (hrun : run (threadStep C threadLocal A)
      (Threads.start (new shift arena exact memory irregular)) acts = .ok s) :
    ThreadsApart s := by
  obtain ⟨hok, order, hlin⟩ := linearizes_run hrun
  have hacc := accounted_run hrun
  have hcarved := (shardsOk_new given shift arena exact memory irregular).replays hA hlin.admits
    (fun e he => hfresh _ _ (request_mem hacc hlin he))
    (fun e he => hpos _ _ (request_mem hacc hlin he)) hlin.replays
  rw [List.append_nil] at hcarved
  have hapart := hcarved.apart
  have hpairwise : order.Pairwise fun e f => (entryRegion e).Disjoint (entryRegion f) := by
    have hreverse := List.pairwise_reverse.mp hapart.regions
    exact (List.pairwise_map.mp hreverse).imp fun h => h.symm
  have hfree : ∀ i, s.shardMutex i = none → (s.settled A).shards i = s.memory.shards i := by
    intro i hi
    show s.settledShard i = _
    rw [Threads.settledShard, hi]
  constructor
  · intro t
    have hanswers : (answersOf t order).Pairwise fun a b => (region a).Disjoint (region b) :=
      List.pairwise_map.mpr (hpairwise.filter _)
    rw [hlin.answers t] at hanswers
    exact List.pairwise_map.mpr (hanswers.sublist (List.sublist_append_left ..))
  · intro t u htu e he f hf
    obtain ⟨a, ha, rfl, rfl⟩ := mem_regions hlin he
    obtain ⟨b, hb, rfl, rfl⟩ := mem_regions hlin hf
    have hsymm : Std.Symm fun e f : Entry ι (Request σ) (Call σ shift) ℕ =>
        (entryRegion e).Disjoint (entryRegion f) := ⟨fun _ _ h => h.symm⟩
    exact hpairwise.forall ha hb fun hab => htu (congrArg Entry.thread hab)
  · intro i hi t e he
    obtain ⟨a, ha, -, rfl⟩ := mem_regions hlin he
    rw [← hfree i hi]
    refine hapart.shard_region i _ ?_
    exact List.mem_reverse.mpr (List.mem_map.mpr ⟨a, ha, rfl⟩)
  · intro i j hij hi hj
    rw [← hfree i hi, ← hfree j hj]
    exact hapart.shard_shard i j hij

/-! ## The copies of the arena's figures -/

omit [DecidableEq ι] in
/-- Nobody is about to put the copies right, when nobody holds the arena. -/
theorem settled_inStep (hfree : s.arenaMutex = none) :
    InStep A (s.settled A) ↔ InStep A s.memory := by
  have hfigures : s.settled A = s.memory.withShards s.settledShard := by
    rw [Threads.settled, Threads.settledFigures, hfree]
  rw [hfigures]
  exact ⟨fun h => ⟨h.allocatedAndUnused, h.memoryAllocatedBytes, h.irregularBlockNum⟩,
    fun h => h.withShards _⟩

/-- **A step keeps the settled copies right.** -/
theorem ThreadsOk.inStep (hok : ThreadsOk C A s₁) (hin : InStep A (s₁.settled A))
    {act : ι × Act σ shift} (hstep : threadStep C threadLocal A s₁ act = .ok s₂) :
    InStep A (s₂.settled A) := by
  obtain ⟨hsettled, -⟩ | ⟨e, -, hcall, -⟩ := hok.effect hstep
  · have heq : s₂.settled A = s₁.settled A := hsettled
    rwa [heq]
  · have happly : allocateImpl C A (s₁.settled A) e.call = .ok (e.answer, s₂.settled A) := hcall
    refine hin.step (C := C) (c := e.call) ?_
    rw [ShardedArena.step, happly]
    rfl

/-- Where the assertion is. -/
theorem advance_assertion {taken : Bool} {core : Fin (2 ^ shift)}
    (h : advance C threadLocal A s t taken core = .error (.abort .assertion)) :
    ∃ r i, s.pc t = .reload r i ∧
      s.memory.arenaAllocatedAndUnused ≠ A.allocatedAndUnused s.memory.arena := by
  simp only [advance] at h
  split at h
  case h_13 r i hp =>
    split at h
    next hassert => exact ⟨r, i, hp, hassert.2⟩
    · split at h <;> cases h
  all_goals repeat' split at h
  all_goals cases h

/-- **Right copies stay right**, for those who may look at them: when they are right while nobody
holds the arena, they will be right whenever nobody holds it, and the assertion does not fail for
any thread. -/
theorem threads_inStep (C : Config) (threadLocal : Bool) (A : Arena σ)
    (memory : ShardedArena σ shift) {acts more : List (ι × Act σ shift)}
    (hrun : run (threadStep C threadLocal A) (Threads.start memory) acts = .ok s₁)
    (hfree : s₁.arenaMutex = none) (hin : InStep A s₁.memory)
    (hmore : run (threadStep C threadLocal A) s₁ more = .ok s₂) :
    (s₂.arenaMutex = none → InStep A s₂.memory) ∧
      ∀ act, threadStep C threadLocal A s₂ act ≠ .error (.abort .assertion) := by
  obtain ⟨hok₁, -⟩ := linearizes_run hrun
  obtain ⟨hok, hsettled⟩ : ThreadsOk C A s₂ ∧ InStep A (s₂.settled A) := by
    refine run_induction (I := fun s => ThreadsOk C A s ∧ InStep A (s.settled A))
      (fun s act s' h hstep => ?_) ⟨hok₁, (settled_inStep hfree).mpr hin⟩ hmore
    exact ⟨h.1.step hstep, h.1.inStep h.2 hstep⟩
  refine ⟨fun hfree₂ => (settled_inStep hfree₂).mp hsettled, ?_⟩
  rintro ⟨t, act⟩ herror
  cases act with
  | call r =>
    simp only [threadStep] at herror
    split at herror <;> cases herror
  | go taken core =>
    obtain ⟨r, i, hp, hne⟩ := advance_assertion herror
    have hfigures : s₂.settled A = s₂.memory.withShards s₂.settledShard :=
      hok.exclusive.settled (by rw [hp]; rfl) (by rw [hp]; rfl)
    rw [hfigures] at hsettled
    exact hne hsettled.allocatedAndUnused

end Spec

/-- The requests of the two threads are for fresh memory. -/
theorem twoThreads_fresh (t : Bool) :
    ∀ r ∈ requestsOf t twoThreads, FreshRequest BumpArena.given r ∧ 0 < r.bytes.toNat := by
  have hrequests : requestsOf t twoThreads = [⟨8, false, fun a => a.allocateAligned 8⟩] := by
    cases t <;> rfl
  intro r hr
  obtain rfl := List.mem_singleton.mp (hrequests ▸ hr)
  exact ⟨fun _ _ _ h => BumpArena.handsOut h, by decide⟩

theorem threads_apart_twoThreads :
    ∃ s, run (threadStep ⟨4096, true⟩ true BumpArena.arena)
        (Threads.start (new 1 BumpArena.start 2048 2048 0)) twoThreads = .ok s ∧
      s.regions false = [⟨4096, 8⟩] ∧ s.regions true = [⟨4104, 8⟩] ∧ ThreadsApart s := by
  obtain ⟨s, hs, hfalse, htrue⟩ := twoThreads_run
  refine ⟨s, hs, by rw [Threads.regions, hfalse]; rfl, by rw [Threads.regions, htrue]; rfl, ?_⟩
  exact threads_apart ⟨4096, true⟩ true BumpArena.freshArena BumpArena.start 2048 2048 0
    (fun t r hr => (twoThreads_fresh t r hr).1) (fun t r hr => (twoThreads_fresh t r hr).2) hs

theorem threads_inStep_twoThreads :
    ∃ s, run (threadStep ⟨4096, true⟩ true BumpArena.arena)
        (Threads.start (new 1 BumpArena.start 2048 2048 0)) twoThreads = .ok s ∧
      (s.arenaMutex = none → InStep BumpArena.arena s.memory) ∧
      ∀ act, threadStep ⟨4096, true⟩ true BumpArena.arena s act ≠ .error (.abort .assertion) := by
  obtain ⟨s, hs, -⟩ := twoThreads_run
  exact ⟨s, hs, threads_inStep ⟨4096, true⟩ true BumpArena.arena
    (new 1 BumpArena.start 2048 2048 0) (run_nil _) rfl ⟨rfl, rfl, rfl⟩ hs⟩

end ShardedArena

end RangeCache
