import RangeCache.DurableMaps
import RangeCache.Transactions

/-!
# Puts in the transaction of a caller

`put` runs a transaction of its own. When its caller is in one, the two are nested: what `put` has
committed is on the medium when the transaction of the caller is, and not before. So a caller can
put several contents into the map at once.

Any call of the library in `put` may fail, and the caller may throw behind its puts.

## Main definitions

* `putProg`, `batchProg` — `put`, and a caller, as programs
* `BatchRun` — callers one after the other, and crashes in between and within

## Main results

* `does_putProg`, `does_batchProg` — the operations of `put`, and of a caller
* `batches_durable` — all of a caller's puts are found, or none of them
-/

namespace RangeCache

open ByteMemory TxMemory FallibleRun

namespace PmemHashMapTemplate

open Transaction

variable {C : Type} {hashCode : C → UInt64} {m₀ : PmemHashMapTemplate C}
  {v : ∀ l, MapVal (Node2 C) l}

/-! ## The programs -/

/-- `put(c)` in a program that opens the map of `m₀.tabLen` slots; `fails` says which of its calls
of the library fail. -/
def putProg (hashCode : C → UInt64) (m₀ : PmemHashMapTemplate C) (fails : Fin 4 → Bool) (c : C) :
    Prog (MapVal (Node2 C)) :=
  .read fun v =>
    let m := recovered m₀ (.ofValues v)
    let idx := (hashCode c).toNat % m.tabLen % m.tabLen
    let bucketHeadNode := (m.tab[idx]?).getD none
    let newhead := m.nodes.length
    .execTx <|
      .seq (.makePersistent (fails 0)
          (TxMemory.assign (V := MapVal (Node2 C)) .nodeCount (newhead + 1) ++
            [Op.allocate (.node newhead)])
          (.store (.node newhead) newNode)) <|
        .seq (.assign (fails 1) (.node newhead) ⟨none, some c⟩) <|
          .seq (.assign (fails 2) (.node newhead) ⟨bucketHeadNode, some c⟩)
            (.assign (fails 3) (.slot idx) (some newhead))

/-- The closure of a caller: puts, and then it may throw. -/
def batchProg (hashCode : C → UInt64) (m₀ : PmemHashMapTemplate C) (throws : Bool) :
    List (C × (Fin 4 → Bool)) → Prog (MapVal (Node2 C))
  | [] => if throws then .throw .other else .skip
  | (c, fails) :: calls => .seq (putProg hashCode m₀ fails c) (batchProg hashCode m₀ throws calls)

/-- **`put` does what it does**, up to the first call of the library that fails. -/
theorem does_putProg (fails : Fin 4 → Bool) (c : C) :
    Does (putProg hashCode m₀ fails c) v (putTrace hashCode (recovered m₀ (.ofValues v)) c) := by
  refine Does.read (Does.execTx ?_)
  exact (does_makePersistent (fails 0) rfl).seq <| (does_assign (fails 1) _ _).seq <|
    (does_assign (fails 2) _ _).seq (does_assign (fails 3) _ _)

/-- What a caller's puts do to the memory, one after the other. -/
def batchTrace (hashCode : C → UInt64) (m₀ : PmemHashMapTemplate C)
    (v : ∀ l, MapVal (Node2 C) l) (cs : List C) : List (Op (MapVal (Node2 C))) :=
  batchOps (putTx hashCode m₀) v cs

/-- **A caller does what its puts do**, up to where something throws. -/
theorem does_batchProg (throws : Bool) (calls : List (C × (Fin 4 → Bool))) :
    Does (batchProg hashCode m₀ throws calls) v
      (batchTrace hashCode m₀ v (calls.map Prod.fst)) := by
  induction calls generalizing v with
  | nil =>
    cases throws with
    | true => exact .inr ⟨[], _, .other, rfl, List.nil_prefix, rfl⟩
    | false => exact .inl rfl
  | cons call calls ih => exact (does_putProg call.2 call.1).seq ih

/-! ## Callers and crashes -/

/-- The runs of a program that opens the map `m₀`: callers one after the other, in transactions of
their own, each in a thread outside of transactions, and crashes. The contents are those of the puts
whose caller has returned. -/
inductive BatchRun (T : Type) [TxLibrary (MapVal (Node2 C)) T] (hashCode : C → UInt64)
    (m₀ : PmemHashMapTemplate C) (s₀ : State (MapVal (Node2 C))) :
    List C → State (MapVal (Node2 C)) → Prop where
  | start : BatchRun T hashCode m₀ s₀ [] s₀
  | returns {done : List C} {σ : State (MapVal (Node2 C))} {throws : Bool}
      {calls : List (C × (Fin 4 → Bool))} {t t' : T} : BatchRun T hashCode m₀ s₀ done σ →
      TxLibrary.session t = .idle σ →
      (Prog.execTx (batchProg hashCode m₀ throws calls)).perform t = .ok (.returned, t') →
      BatchRun T hashCode m₀ s₀ (done ++ calls.map Prod.fst) (TxLibrary.session t').memory
  | throws {done : List C} {σ : State (MapVal (Node2 C))} {throws : Bool} {e : Thrown}
      {calls : List (C × (Fin 4 → Bool))} {t t' : T} : BatchRun T hashCode m₀ s₀ done σ →
      TxLibrary.session t = .idle σ →
      (Prog.execTx (batchProg hashCode m₀ throws calls)).perform t = .ok (.thrown e, t') →
      BatchRun T hashCode m₀ s₀ done (TxLibrary.session t').memory
  /-- A crash within the transaction of a caller, or before its first operation. -/
  | crash {done : List C} {σ : State (MapVal (Node2 C))} {throws : Bool}
      {calls : List (C × (Fin 4 → Bool))} {before : List (Op (MapVal (Node2 C)))}
      {image : ∀ l, MapVal (Node2 C) l} : BatchRun T hashCode m₀ s₀ done σ →
      before <+: ((Prog.execTx (batchProg hashCode m₀ throws calls)).flat σ.view).1 →
      Crash (exec σ before) image → BatchRun T hashCode m₀ s₀ done (durable image)

/-- A program that calls so runs batches of puts. -/
theorem BatchRun.durableRun {T : Type} [TxLibrary (MapVal (Node2 C)) T] (hlib : StageRules T)
    {s₀ σ : State (MapVal (Node2 C))} {done : List C} (h : BatchRun T hashCode m₀ s₀ done σ) :
    ∃ batches, batches.flatten = done ∧
      DurableRun (fun v cs => some (batchTrace hashCode m₀ v cs)) s₀ batches σ := by
  induction h with
  | start => exact ⟨[], rfl, .start⟩
  | @returns done σ throws calls t t' _ ht hcall ih =>
    obtain ⟨batches, rfl, hrun⟩ := ih
    refine ⟨batches ++ [calls.map Prod.fst], by simp, ?_⟩
    rcases (does_batchProg throws calls).perform_idle hlib ht with
      hperform | ⟨before, e, -, hperform⟩
    · obtain ⟨-, hsession⟩ := Prod.mk.inj (Except.ok.inj ((shown_eq_ok hcall).symm.trans hperform))
      rw [hsession]
      exact hrun.commits rfl
    · rw [shown_eq_ok hcall] at hperform
      cases hperform
  | @throws done σ throws e calls t t' _ ht hcall ih =>
    obtain ⟨batches, rfl, hrun⟩ := ih
    refine ⟨batches, rfl, ?_⟩
    rcases (does_batchProg throws calls).perform_idle hlib ht with
      hperform | ⟨before, e, hbefore, hperform⟩
    · rw [shown_eq_ok hcall] at hperform
      cases hperform
    · obtain ⟨-, hsession⟩ := Prod.mk.inj (Except.ok.inj ((shown_eq_ok hcall).symm.trans hperform))
      rw [hsession]
      exact hrun.stopped (a := calls.map Prod.fst) rfl hbefore .throws
  | @crash done σ throws calls before image _ hbefore hcrash ih =>
    obtain ⟨batches, rfl, hrun⟩ := ih
    refine ⟨batches, rfl, hrun.stopped (a := calls.map Prod.fst) rfl ?_ (.crash hcrash)⟩
    exact hbefore.trans (does_batchProg throws calls).isPrefix

/-- A map with more nodes uses more. -/
theorem inUse_mono {m m' : PmemHashMapTemplate C} {c : C} (h : put hashCode m (some c) = .ok m') :
    inUse m ⊆ inUse m' := by
  obtain ⟨hash, -, h⟩ := bind_eq_ok.mp h
  obtain ⟨idx, -, h⟩ := bind_eq_ok.mp h
  obtain ⟨head, -, h⟩ := bind_eq_ok.mp h
  cases h
  intro l hl id hid
  rw [List.length_append]
  exact (hl id hid).trans_le (Nat.le_add_right _ _)

/-- **Callers put all of their contents or none.** However many callers there are, whatever fails in
their puts, whether they throw, and wherever crashes stop the program: the map that is found, at
once or after one more crash, is the one that the puts of the callers that have returned leave when
they are made outside of any transaction. So `getAll` lists their contents, and no other. -/
theorem batches_durable {T : Type} [TxLibrary (MapVal (Node2 C)) T] (hlib : StageRules T)
    (hashCode : C → UInt64) {tabLen : UInt64} (hpos : 0 < tabLen.toNat)
    (hlt : tabLen.toNat < 2 ^ 32) (pool : Pool) {done : List C} {σ : State (MapVal (Node2 C))}
    (hrun : BatchRun T hashCode (blank tabLen) (durable (imageOf pool (blank tabLen)).values) done
      σ) :
    ∃ m, putAll hashCode (blank tabLen) done = .ok m ∧ ∀ image, image = σ.view ∨ Crash σ image →
      recovered (blank tabLen) (.ofValues image) = m ∧ (MapImage.ofValues image).pool = pool ∧
      ∃ found, getAll (recovered (blank tabLen) (.ofValues image)) [] = .ok found ∧
        found.Perm (done.map some) := by
  obtain ⟨batches, rfl, hbatches⟩ := hrun.durableRun hlib
  obtain ⟨m, hm, hholds, hquiet⟩ :=
    ((transacts_put hashCode pool (blank tabLen)).batch inUse_mono).durableRun
      (holds_blank hashCode hpos hlt pool) hbatches
  rw [run_flatten, ← putAll_eq_run] at hm
  exact ⟨m, hm, fun image himage => hholds.found hpos hlt hm hquiet himage⟩

/-- A caller that puts two contents, one whose second put fails, and one that throws behind its
put. -/
theorem batches_durable_threeCallers :
    ∃ σ, BatchRun (Session (MapVal (Node2 UInt64))) id (blank 2)
        (durable (imageOf ⟨fun _ => 0, []⟩ (blank 2)).values) [7, 9] σ ∧
      ∃ m, putAll id (blank 2) [7, 9] = .ok m ∧ ∀ image, image = σ.view ∨ Crash σ image →
        recovered (blank 2) (.ofValues image) = m ∧
        (MapImage.ofValues image).pool = ⟨fun _ => 0, []⟩ ∧
        ∃ found, getAll (recovered (blank 2) (.ofValues image)) [] = .ok found ∧
          found.Perm ([7, 9].map some) := by
  have hstart : BatchRun (Session (MapVal (Node2 UInt64))) id (blank 2)
      (durable (imageOf ⟨fun _ => 0, []⟩ (blank 2)).values) [] _ := .start
  have hfirst := hstart.returns rfl (show (Prog.execTx (batchProg id (blank 2) false
    [(7, fun _ => false), (9, fun _ => false)])).perform (Session.idle _) = .ok (.returned, _)
    from rfl)
  have hsecond := hfirst.throws rfl (show (Prog.execTx (batchProg id (blank 2) false
    [(3, fun _ => false), (5, fun i => i = 2)])).perform (Session.idle _) = .ok (.thrown _, _)
    from rfl)
  have hthird := hsecond.throws rfl (show (Prog.execTx (batchProg id (blank 2) true
    [(3, fun _ => false)])).perform (Session.idle _) = .ok (.thrown _, _) from rfl)
  exact ⟨_, hthird, batches_durable stageRules_session id (by decide) (by decide) _ hthird⟩

end PmemHashMapTemplate

end RangeCache
