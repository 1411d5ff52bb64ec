import RangeCache.ArenaThreads
import RangeCache.ShardSafety

/-!
# The end of a call

The threads in `AllocateImpl` wait for each other only at the mutexes. The mutex of a shard is taken
before the arena's, and nothing is taken while the arena's is held, so the one who holds it goes on.
No step of the function is taken twice in a call: `lock` counts as one step, when it succeeds.

## Main definitions

* `Enabled` — a thread has a next step
* `Pc.rank` — a bound for the steps to the end of the call
* `requestsOf`, `stepsOf` — the calls and the other steps of a thread, in a run

## Main results

* `Exclusive.exists_enabled` — there is no deadlock
* `Move.towards_return` — every step of a call brings it closer to its end
* `allocateImpl_terminates` — every call comes to an end
-/

namespace RangeCache

open ByteMemory FallibleRun

namespace ShardedArena

section Progress

variable {σ ι : Type} {shift : ℕ} [DecidableEq ι] {C : Config} {threadLocal : Bool} {A : Arena σ}
  {m : ShardedArena σ shift} {s s' : Threads σ ι shift} {t u : ι} {p q : Pc σ shift}

/-- The thread cannot go on by itself: it is outside the function, or calls `lock`. -/
def Pc.waits : Pc σ shift → Bool
  | .idle | .waitArena _ | .waitShard .. | .waitReload .. => true
  | _ => false

/-- The thread has a next step, whatever the mutexes it tries look like. -/
def Enabled (C : Config) (threadLocal : Bool) (A : Arena σ) (s : Threads σ ι shift) (t : ι) :
    Prop :=
  ∀ taken core, advance C threadLocal A s t taken core ≠ .error .notEnabled

theorem enabled_of_not_waits (h : (s.pc t).waits = false) : Enabled C threadLocal A s t := by
  intro taken core hstuck
  simp only [advance] at hstuck
  split at hstuck
  case h_1 hp => simp [hp, Pc.waits] at h
  case h_5 hp => simp [hp, Pc.waits] at h
  case h_10 hp => simp [hp, Pc.waits] at h
  case h_12 hp => simp [hp, Pc.waits] at h
  all_goals repeat' split at hstuck
  all_goals cases hstuck

/-- A thread that waits for the arena has a next step when nobody holds it. -/
theorem enabled_of_arena_free {r : Request σ} (hfree : s.arenaMutex = none)
    (h : s.pc t = .waitArena r ∨ ∃ i, s.pc t = .waitReload r i) :
    Enabled C threadLocal A s t := by
  intro taken core hstuck
  obtain hp | ⟨i, hp⟩ := h
  · simp only [advance, hp, if_pos hfree] at hstuck
    cases hstuck
  · simp only [advance, hp, if_pos hfree] at hstuck
    cases hstuck

theorem enabled_of_shard_free {r : Request σ} {i : Fin (2 ^ shift)} (hfree : s.shardMutex i = none)
    (h : s.pc t = .waitShard r i) : Enabled C threadLocal A s t := by
  intro taken core hstuck
  simp only [advance, h, if_pos hfree] at hstuck
  cases hstuck

/-- Nobody waits who holds the arena. -/
theorem Pc.not_waits_of_holdsArena (h : p.holdsArena = true) : p.waits = false := by
  cases p <;> first | rfl | cases h

/-- A thread that holds a shard waits for the arena at most. -/
theorem Pc.waits_of_shard {i : Fin (2 ^ shift)} (h : p.shard? = some i) :
    p.waits = false ∨ ∃ r, p = .waitReload r i := by
  cases p with
  | waitReload r j =>
    obtain rfl := Option.some.inj h
    exact .inr ⟨r, rfl⟩
  | idle | waitArena r | waitShard r j => cases h
  | _ => exact .inl rfl

/-- A thread is outside the function, waits for a mutex, or can go on. -/
theorem Pc.cases_waits (p : Pc σ shift) :
    p = .idle ∨ (∃ r, p = .waitArena r) ∨ (∃ r i, p = .waitShard r i) ∨
      (∃ r i, p = .waitReload r i) ∨ p.waits = false := by
  cases p with
  | idle => exact .inl rfl
  | waitArena r => exact .inr (.inl ⟨r, rfl⟩)
  | waitShard r i => exact .inr (.inr (.inl ⟨r, i, rfl⟩))
  | waitReload r i => exact .inr (.inr (.inr (.inl ⟨r, i, rfl⟩)))
  | _ => exact .inr (.inr (.inr (.inr rfl)))

/-- **No deadlock.** A shard's mutex is taken before the arena's, and none while the arena's is
held: unless every thread is outside the function, one that is inside has a next step. -/
theorem Exclusive.exists_enabled (hex : Exclusive s) (ht : s.pc t ≠ .idle) :
    ∃ u, s.pc u ≠ .idle ∧ Enabled C threadLocal A s u := by
  cases harena : s.arenaMutex with
  | some u =>
    have hwaits := Pc.not_waits_of_holdsArena ((hex.arena u).mp harena)
    exact ⟨u, fun hidle => by simp [hidle, Pc.waits] at hwaits, enabled_of_not_waits hwaits⟩
  | none =>
    obtain hidle | ⟨r, hp⟩ | ⟨r, i, hp⟩ | ⟨r, i, hp⟩ | hwaits := Pc.cases_waits (s.pc t)
    · exact absurd hidle ht
    · exact ⟨t, ht, enabled_of_arena_free harena (.inl hp)⟩
    · cases hshard : s.shardMutex i with
      | none => exact ⟨t, ht, enabled_of_shard_free hshard hp⟩
      | some u =>
        have hu := (hex.shard i u).mp hshard
        refine ⟨u, fun hidle => by simp [hidle, Pc.shard?] at hu, ?_⟩
        obtain hwaits | ⟨r', hp'⟩ := Pc.waits_of_shard hu
        · exact enabled_of_not_waits hwaits
        · exact enabled_of_arena_free harena (.inr ⟨i, hp'⟩)
    · exact ⟨t, ht, enabled_of_arena_free harena (.inr ⟨i, hp⟩)⟩
    · exact ⟨t, ht, enabled_of_not_waits hwaits⟩

/-- An upper bound for the steps to the end of the call. -/
def Pc.rank : Pc σ shift → ℕ
  | .idle => 0
  | .enter _ => 14
  | .peek _ => 13
  | .tryArena _ => 12
  | .pick _ => 11
  | .waitShard .. => 10
  | .readAvail .. => 9
  | .waitReload .. => 8
  | .reload .. => 7
  | .refill .. => 6
  | .fixupRefill .. | .waitArena _ => 5
  | .unlockReload .. | .func .. => 4
  | .store .. | .fixup .. => 3
  | .place .. | .unlockArena .. => 2
  | .leave .. => 1

/-- The call a thread is in. -/
def Pc.request? : Pc σ shift → Option (Request σ)
  | .idle => none
  | .enter r | .peek r | .tryArena r | .waitArena r | .func r _ | .fixup r _ _ | .unlockArena r _ _
  | .pick r | .waitShard r _ | .readAvail r _ | .waitReload r _ | .reload r _ | .refill r _ _
  | .fixupRefill r _ _ | .unlockReload r _ _ | .store r _ _ | .place r _ _ | .leave r _ _ => some r

/-- The calls of a thread. -/
def requestsOf (t : ι) (acts : List (ι × Act σ shift)) : List (Request σ) :=
  acts.filterMap fun
    | (u, .call r) => if u = t then some r else none
    | _ => none

/-- The other steps of a thread. -/
def stepsOf (t : ι) (acts : List (ι × Act σ shift)) : ℕ :=
  acts.countP fun
    | (u, .go ..) => u = t
    | _ => false

theorem requestsOf_concat (t u : ι) (acts : List (ι × Act σ shift)) (act : Act σ shift) :
    requestsOf t (acts ++ [(u, act)]) = requestsOf t acts ++ requestsOf t [(u, act)] := by
  rw [requestsOf, List.filterMap_append]
  rfl

theorem stepsOf_concat (t u : ι) (acts : List (ι × Act σ shift)) (act : Act σ shift) :
    stepsOf t (acts ++ [(u, act)]) = stepsOf t acts + stepsOf t [(u, act)] := by
  rw [stepsOf, List.countP_append]
  rfl

/-- The calls made so far are those that have returned and the one that has not, and a call has a
bounded number of steps. -/
structure Accounted (s : Threads σ ι shift) (acts : List (ι × Act σ shift)) : Prop where
  requests : ∀ t, requestsOf t acts = (s.returned t).map Prod.fst ++ (s.pc t).request?.toList
  steps : ∀ t, stepsOf t acts + (s.pc t).rank ≤ 14 * (requestsOf t acts).length

/-- The steps inside a call get on with it. -/
def Towards (q p : Pc σ shift) : Prop := p.rank < q.rank ∧ p.request? = q.request?

theorem Decides.towards (h : Decides C A m q p) : Towards q p := by
  cases h <;> exact ⟨by simp [Pc.rank], rfl⟩

theorem LocksArena.towards (h : LocksArena q p) : Towards q p := by
  cases h <;> exact ⟨by simp [Pc.rank], rfl⟩

theorem UnlocksArena.towards (h : UnlocksArena q p) : Towards q p := by
  cases h <;> exact ⟨by simp [Pc.rank], rfl⟩

theorem LocksShard.towards {i : Fin (2 ^ shift)} (h : LocksShard i q p) : Towards q p := by
  cases h <;> exact ⟨by simp [Pc.rank], rfl⟩

theorem FixesUp.towards (h : FixesUp q p) : Towards q p := by
  cases h <;> exact ⟨by simp [Pc.rank], rfl⟩

/-- **A step towards the return.** Any move but a call lowers the rank; the call goes on, or is
over and has returned. -/
theorem Move.towards_return (h : Move C A s t p s') (hidle : s.pc t ≠ .idle) :
    (Towards (s.pc t) p ∧ s'.returned = s.returned) ∨
      ∃ r rv i, s.pc t = .leave r rv i ∧ p = .idle ∧
        s'.returned = Function.update s.returned t (s.returned t ++ [(r, rv)]) := by
  cases h with
  | call hp => exact absurd hp hidle
  | decide hd => exact .inl ⟨hd.towards, rfl⟩
  | lockArena _ hl => exact .inl ⟨hl.towards, rfl⟩
  | unlockArena hu => exact .inl ⟨hu.towards, rfl⟩
  | lockShard _ hl => exact .inl ⟨hl.towards, rfl⟩
  | fixup hf => exact .inl ⟨hf.towards, rfl⟩
  | func hp | enough hp | refill hp | store hp | aligned hp | unaligned hp =>
    rw [hp]
    exact .inl ⟨⟨by simp [Pc.rank], rfl⟩, rfl⟩
  | «return» hp | unlockShard hp => exact .inr ⟨_, _, _, hp, rfl, rfl⟩

/-- **A step is accounted for.** -/
theorem Accounted.step {acts : List (ι × Act σ shift)} (hacc : Accounted s acts)
    {act : Act σ shift} (h : threadStep C threadLocal A s (u, act) = .ok s') :
    Accounted s' (acts ++ [(u, act)]) := by
  obtain ⟨p, hmove⟩ := threadStep_move h
  cases act with
  | call r =>
    simp only [threadStep] at h
    split at h
    next hidle =>
      cases h
      have hself : (s.jump u (.enter r)).pc u = .enter r := Function.update_self ..
      have hother : ∀ t, t ≠ u → (s.jump u (.enter r)).pc t = s.pc t :=
        fun t ht => Function.update_of_ne ht ..
      have hone : requestsOf u [(u, (Act.call r : Act σ shift))] = [r] := by simp [requestsOf]
      have hnone : ∀ t, t ≠ u → requestsOf t [(u, (Act.call r : Act σ shift))] = [] :=
        fun t ht => by simp [requestsOf, ht.symm]
      have hzero : ∀ t, stepsOf t [(u, (Act.call r : Act σ shift))] = 0 :=
        fun t => by simp [stepsOf]
      constructor
      · intro t
        have hreq := hacc.requests t
        rw [requestsOf_concat, hreq]
        rcases eq_or_ne t u with rfl | hu
        · rw [hself, hone, hidle, show (Pc.idle : Pc σ shift).request? = none from rfl]
          exact congrArg (· ++ [r]) (List.append_nil _)
        · rw [hother t hu, hnone t hu, List.append_nil]
          rfl
      · intro t
        have hsteps := hacc.steps t
        rw [requestsOf_concat, stepsOf_concat, hzero]
        rcases eq_or_ne t u with rfl | hu
        · have hrank : (Pc.enter r : Pc σ shift).rank = 14 := rfl
          rw [hself, hone, hrank, List.length_append, List.length_singleton]
          omega
        · rw [hother t hu, hnone t hu, List.append_nil]
          exact hsteps
    · cases h
  | go taken core =>
    have hidle : s.pc u ≠ .idle := by
      intro hidle
      simp [threadStep, advance, hidle] at h
    have hreturn := hmove.towards_return hidle
    have hnone : ∀ t, requestsOf t [(u, (Act.go taken core : Act σ shift))] = [] :=
      fun _ => rfl
    constructor
    · intro t
      have hreq := hacc.requests t
      rw [requestsOf_concat, hnone, List.append_nil, hreq]
      rcases eq_or_ne t u with rfl | hu
      · rw [hmove.pc_self]
        obtain ⟨htowards, hret⟩ | ⟨r, rv, i, hp, rfl, hret⟩ := hreturn
        · rw [htowards.2, hret]
        · simp [hp, hret, Pc.request?]
      · rw [hmove.pc_of_ne hu]
        obtain ⟨-, hret⟩ | ⟨r, rv, i, -, -, hret⟩ := hreturn
        · rw [hret]
        · rw [hret, Function.update_of_ne hu]
    · intro t
      have hsteps := hacc.steps t
      rw [requestsOf_concat, hnone, List.append_nil, stepsOf_concat]
      rcases eq_or_ne t u with rfl | hu
      · rw [hmove.pc_self]
        have hone : stepsOf t [(t, (Act.go taken core : Act σ shift))] = 1 := by simp [stepsOf]
        have hrank : p.rank < (s.pc t).rank := by
          obtain ⟨htowards, -⟩ | ⟨r, rv, i, hp, rfl, -⟩ := hreturn
          · exact htowards.1
          · simp [hp, Pc.rank]
        omega
      · rw [hmove.pc_of_ne hu]
        have hzero : stepsOf t [(u, (Act.go taken core : Act σ shift))] = 0 := by
          simp [stepsOf, hu.symm]
        omega

/-- Every step of a run is accounted for. -/
theorem Accounted.run {acts more : List (ι × Act σ shift)} (hacc : Accounted s acts)
    (h : run (threadStep C threadLocal A) s more = .ok s') : Accounted s' (acts ++ more) := by
  induction more generalizing s acts with
  | nil =>
    cases h
    rwa [List.append_nil]
  | cons act more ih =>
    obtain ⟨s₁, hstep, hrest⟩ := run_cons_ok.mp h
    have hmore := ih (hacc.step hstep) hrest
    rwa [List.append_assoc] at hmore

theorem accounted_run {memory : ShardedArena σ shift} {acts : List (ι × Act σ shift)}
    (hrun : run (threadStep C threadLocal A) (Threads.start memory) acts = .ok s) :
    Accounted s acts := by
  have hstart : Accounted (Threads.start memory : Threads σ ι shift) [] :=
    ⟨fun _ => rfl, fun _ => le_rfl⟩
  exact hstart.run hrun

omit [DecidableEq ι] in
theorem Pc.request?_eq_none : p.request? = none ↔ p = .idle := by
  cases p <;> simp [Pc.request?]

/-- **Every call comes to an end.** In every run, a thread takes at most 14 steps for each call; as
long as a call has not returned, some call has a next step, whatever the threads try; and when there
is none, what each thread has called is what has returned to it. -/
theorem allocateImpl_terminates (C : Config) (threadLocal : Bool) (A : Arena σ)
    (memory : ShardedArena σ shift) {acts : List (ι × Act σ shift)}
    (hrun : run (threadStep C threadLocal A) (Threads.start memory) acts = .ok s) :
    (∀ t, stepsOf t acts ≤ 14 * (requestsOf t acts).length) ∧
    ((∃ t, s.pc t ≠ .idle) → ∃ u, s.pc u ≠ .idle ∧ Enabled C threadLocal A s u) ∧
    ((∀ u taken core, threadStep C threadLocal A s (u, .go taken core) = .error .notEnabled) →
      ∀ t, requestsOf t acts = (s.returned t).map Prod.fst) := by
  have hacc := accounted_run hrun
  have hex : Exclusive s := by
    refine run_induction (fun s act s' hex hstep => ?_) (exclusive_start memory) hrun
    obtain ⟨p, hmove⟩ := threadStep_move hstep
    exact hex.move hmove
  refine ⟨fun t => le_of_add_le_left (hacc.steps t), ?_, ?_⟩
  · rintro ⟨t, ht⟩
    exact hex.exists_enabled ht
  · intro hstuck t
    have hidle : s.pc t = .idle := by
      by_contra ht
      obtain ⟨u, -, henabled⟩ : ∃ u, s.pc u ≠ .idle ∧ Enabled C threadLocal A s u :=
        hex.exists_enabled ht
      exact henabled false (coreIndex shift 0) (hstuck u false (coreIndex shift 0))
    rw [hacc.requests t, Pc.request?_eq_none.mpr hidle]
    exact List.append_nil _

end Progress

/-- Two threads call for 8 bytes; while the first asks the arena, the second goes to a shard and
waits for the arena there. -/
def twoThreads : List (Bool × Act BumpArena 1) :=
  let go : Act BumpArena 1 := .go false (coreIndex 1 0)
  let request : Act BumpArena 1 := .call ⟨8, false, fun a => a.allocateAligned 8⟩
  [(false, request), (true, request)] ++ List.replicate 3 (false, go) ++
    List.replicate 5 (true, go) ++ List.replicate 4 (false, go) ++ List.replicate 6 (true, go)

theorem twoThreads_run :
    ∃ s, run (threadStep ⟨4096, true⟩ true BumpArena.arena)
        (Threads.start (new 1 BumpArena.start 2048 2048 0)) twoThreads = .ok s ∧
      s.returned false = [(⟨8, false, fun a => a.allocateAligned 8⟩, 4096)] ∧
      s.returned true = [(⟨8, false, fun a => a.allocateAligned 8⟩, 4104)] :=
  ⟨_, rfl, rfl, rfl⟩

theorem allocateImpl_terminates_twoThreads :
    ∃ s, run (threadStep ⟨4096, true⟩ true BumpArena.arena)
        (Threads.start (new 1 BumpArena.start 2048 2048 0)) twoThreads = .ok s ∧
      (∀ t, stepsOf t twoThreads ≤ 14 * (requestsOf t twoThreads).length) ∧
      ((∃ t, s.pc t ≠ .idle) →
        ∃ u, s.pc u ≠ .idle ∧ Enabled ⟨4096, true⟩ true BumpArena.arena s u) ∧
      ((∀ u taken core, threadStep ⟨4096, true⟩ true BumpArena.arena s (u, .go taken core)
          = .error .notEnabled) →
        ∀ t, requestsOf t twoThreads = (s.returned t).map Prod.fst) := by
  obtain ⟨s, hs, -⟩ := twoThreads_run
  exact ⟨s, hs, allocateImpl_terminates ⟨4096, true⟩ true BumpArena.arena _ hs⟩

end ShardedArena

end RangeCache
