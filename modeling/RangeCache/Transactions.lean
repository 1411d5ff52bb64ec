import RangeCache.Lib.Session

/-!
# Programs in nested transactions

`exec_tx` runs a closure in a transaction: it commits when the closure returns, and aborts and
rethrows when it throws. The code of the cache calls it `run`. A closure may call it again, by
itself or in a constructor that `make_persistent` runs, as those of the range tabs and of the
template map do. The assignment of a `p<>` or a `persistent_ptr` registers the location if a
transaction is in progress, and only then.

A program here is what the code does with persistent memory: the calls of these functions, plain
stores, exceptions that are thrown and caught, and whatever is decided from what the memory holds.
The functions below are those of the C++ headers. What they call in `libpmemobj` is a parameter, a
library that keeps the stage rules; beginning a transaction succeeds, and no locks are passed to it.

## Main definitions

* `execTx`, `abort`, `conditionalAddToTx`, `assign`, `makePersistent` — the functions of the headers
* `Prog`, `Prog.perform` — programs, and what they do
* `Prog.flat` — what a program does to the memory when nested transactions are not looked at
* `Does` — what a program does that does not catch what it throws

## Main results

* `Prog.shown_perform` — a program does the same with every library that keeps the stage rules
* `Prog.perform_working` — a program inside of any number of transactions
* `execTx_flattens` — an outermost transaction and all in it are one
* `makePersistent_transactional` — a constructor with a transaction of its own
-/

namespace RangeCache

open TxMemory FallibleRun

namespace Transaction

variable {L : Type} {V : L → Type} {T : Type}

/-- What is thrown. -/
inductive Thrown where
  | manualTxAbort
  | transactionError
  | transactionScopeError
  | transactionAllocError
  /-- Anything that is not from a transaction. -/
  | other
  deriving DecidableEq, Repr

inductive Outcome where
  | returned
  | thrown (e : Thrown)
  deriving DecidableEq, Repr

/-! ## The functions of the headers -/

section Headers

variable [TxLibrary V T]

/-- What `exec_tx` does when the closure has returned or thrown. -/
def leaveTx : Outcome × T → Except Misuse (Outcome × T)
  | (.thrown .manualTxAbort, t) => return (.thrown .manualTxAbort, ← TxLibrary.txEnd t)
  | (.thrown e, t) => do
    -- first exception caught
    let t ← if TxLibrary.txStage t = .work then TxLibrary.txAbort t else .ok t
    -- waterfall tx_end for outer tx
    return (.thrown e, ← TxLibrary.txEnd t)
  | (.returned, t) =>
    match TxLibrary.txStage t with
    | .work => return (.returned, ← TxLibrary.txCommit t >>= TxLibrary.txEnd)
    | .onAbort => return (.thrown .transactionError, ← TxLibrary.txEnd t)
    | .none => return (.thrown .transactionError, t)
    | .onCommit => return (.returned, ← TxLibrary.txEnd t)

/-- `transaction::exec_tx`, without locks. -/
def execTx (tx : T → Except Misuse (Outcome × T)) (t : T) : Except Misuse (Outcome × T) :=
  TxLibrary.txBegin t >>= tx >>= leaveTx

/-- `transaction::abort` -/
def abort (t : T) : Except Misuse (Outcome × T) := do
  if TxLibrary.txStage t ≠ .work then
    return (.thrown .transactionError, t)
  else
    return (.thrown .manualTxAbort, ← TxLibrary.txAbort t)

/-- `conditional_add_to_tx`; `fails` says that the library has no room for a snapshot. -/
def conditionalAddToTx (fails : Bool) (l : L) (t : T) : Outcome × T :=
  if TxLibrary.txStage t ≠ .work then (.returned, t)
  else if fails then (.thrown .transactionError, TxLibrary.cancel t)
  else (.returned, TxLibrary.apply t [.snapshot l])

/-- The assignment of a `p<>` or a `persistent_ptr` in the pool. -/
def assign (fails : Bool) (l : L) (v : V l) (t : T) : Outcome × T :=
  match conditionalAddToTx fails l t with
  | (.returned, t) => (.returned, TxLibrary.apply t [.store l v])
  | (.thrown e, t) => (.thrown e, t)

/-- What `make_persistent` does when the constructor has returned or thrown. -/
def leaveCreate : Outcome × T → Except Misuse (Outcome × T)
  | (.returned, t) => .ok (.returned, t)
  | (.thrown e, t) => return (.thrown e, ← TxLibrary.txFree t)

/-- `make_persistent`; `alloc` are the operations of the allocation, if it succeeds. -/
def makePersistent (fails : Bool) (alloc : List (Op V)) (create : T → Except Misuse (Outcome × T))
    (t : T) : Except Misuse (Outcome × T) :=
  if TxLibrary.txStage t ≠ .work then .ok (.thrown .transactionScopeError, t)
  else if fails then .ok (.thrown .transactionAllocError, TxLibrary.cancel t)
  else create (TxLibrary.apply t alloc) >>= leaveCreate

end Headers

/-! ## Programs -/

/-- What the code does with persistent memory. -/
inductive Prog (V : L → Type) where
  | skip
  /-- What is done depends on the memory. -/
  | read (k : (∀ l, V l) → Prog V)
  /-- A store that is no assignment. -/
  | store (l : L) (v : V l)
  | assign (fails : Bool) (l : L) (v : V l)
  | makePersistent (fails : Bool) (alloc : List (Op V)) (create : Prog V)
  | throw (e : Thrown)
  | abort
  | seq (p q : Prog V)
  /-- `try { p } catch (...) { q }` -/
  | tryCatch (p q : Prog V)
  | execTx (tx : Prog V)

/-- `q` follows a program that returns. -/
def onReturn (q : T → Except Misuse (Outcome × T)) : Outcome × T → Except Misuse (Outcome × T)
  | (.returned, t) => q t
  | (.thrown e, t) => .ok (.thrown e, t)

/-- `q` follows a program that throws. -/
def onThrow (q : T → Except Misuse (Outcome × T)) : Outcome × T → Except Misuse (Outcome × T)
  | (.returned, t) => .ok (.returned, t)
  | (.thrown _, t) => q t

/-- What a program does in a thread, and how it ends. -/
def Prog.perform [TxLibrary V T] : Prog V → T → Except Misuse (Outcome × T)
  | .skip, t => .ok (.returned, t)
  | .read k, t => (k (TxLibrary.session t).memory.view).perform t
  | .store l v, t => .ok (.returned, TxLibrary.apply t [.store l v])
  | .assign fails l v, t => .ok (Transaction.assign fails l v t)
  | .makePersistent fails alloc create, t =>
    Transaction.makePersistent fails alloc create.perform t
  | .throw e, t => .ok (.thrown e, t)
  | .abort, t => Transaction.abort t
  | .seq p q, t => p.perform t >>= onReturn q.perform
  | .tryCatch p q, t => p.perform t >>= onThrow q.perform
  | .execTx tx, t => Transaction.execTx tx.perform t

/-! ### Every library that keeps the rules -/

section Library

variable [TxLibrary V T]

/-- How a call or a program has ended, and what there is to say of the thread. -/
def shown (r : Except Misuse (Outcome × T)) : Except Misuse (Outcome × Session V) :=
  r.map (Prod.map id TxLibrary.session)

theorem shown_eq_ok {r : Except Misuse (Outcome × T)} {outcome : Outcome} {t : T}
    (h : r = .ok (outcome, t)) : shown r = .ok (outcome, TxLibrary.session t) := by
  rw [h]
  rfl

theorem shown_pure (outcome : Outcome) (x : Except Misuse T) :
    shown (x >>= fun t => pure (outcome, t))
      = x.map TxLibrary.session >>= fun s => pure (outcome, s) := by
  cases x <;> rfl

/-- What follows a call of the library. -/
theorem shown_call {x : Except Misuse T} {k : T → Except Misuse (Outcome × T)}
    {k' : Session V → Except Misuse (Outcome × Session V)}
    (hk : ∀ t, shown (k t) = k' (TxLibrary.session t)) :
    shown (x >>= k) = x.map TxLibrary.session >>= k' := by
  cases x with
  | error e => rfl
  | ok t => exact hk t

/-- What follows a function of the headers. -/
theorem shown_bind {r : Except Misuse (Outcome × T)}
    {k : Outcome × T → Except Misuse (Outcome × T)}
    {k' : Outcome × Session V → Except Misuse (Outcome × Session V)}
    (hk : ∀ outcome t, shown (k (outcome, t)) = k' (outcome, TxLibrary.session t)) :
    shown (r >>= k) = shown r >>= k' := by
  cases r with
  | error e => rfl
  | ok r => exact hk r.1 r.2

variable [DecidableEq L] (hlib : StageRules T) {create : T → Except Misuse (Outcome × T)}
  {create' : Session V → Except Misuse (Outcome × Session V)}

include hlib

theorem shown_txEnd (outcome : Outcome) (t : T) :
    shown (TxLibrary.txEnd t >>= fun t => pure (outcome, t))
      = (TxLibrary.session t).txEnd >>= fun s => pure (outcome, s) := by
  rw [shown_pure, hlib.txEnd]

theorem shown_txAbort (outcome : Outcome) (t : T) :
    shown (TxLibrary.txAbort t >>= fun t => TxLibrary.txEnd t >>= fun t => pure (outcome, t))
      = (TxLibrary.session t).txAbort >>= fun s => s.txEnd >>= fun s => pure (outcome, s) := by
  rw [← hlib.txAbort]
  exact shown_call (shown_txEnd hlib outcome)

theorem shown_txCommit (outcome : Outcome) (t : T) :
    shown (TxLibrary.txCommit t >>= TxLibrary.txEnd >>= fun t => pure (outcome, t))
      = (TxLibrary.session t).txCommit >>= Session.txEnd >>= fun s => pure (outcome, s) := by
  rw [shown_pure, ← hlib.txCommit]
  cases TxLibrary.txCommit t with
  | error e => rfl
  | ok t => exact congrArg (· >>= _) (hlib.txEnd t)

theorem shown_leaveTx (outcome : Outcome) (t : T) :
    shown (leaveTx (outcome, t)) = leaveTx (outcome, TxLibrary.session t) := by
  have hstage := hlib.txStage t
  cases outcome with
  | returned =>
    cases hs : (TxLibrary.session t).stage with
    | work =>
      rw [hs] at hstage
      simp only [leaveTx, hstage, hs, txStage_session]
      exact shown_txCommit hlib _ t
    | onAbort | onCommit =>
      rw [hs] at hstage
      simp only [leaveTx, hstage, hs, txStage_session]
      exact shown_txEnd hlib _ t
    | none =>
      rw [hs] at hstage
      simp only [leaveTx, hstage, hs, txStage_session]
      rfl
  | thrown e =>
    cases e with
    | manualTxAbort => exact shown_txEnd hlib _ t
    | _ =>
      simp only [leaveTx, hstage, txStage_session]
      split
      · exact shown_txAbort hlib _ t
      · exact shown_txEnd hlib _ t

theorem shown_abort (t : T) :
    shown (abort t) = abort (TxLibrary.session t) := by
  rw [abort, abort, hlib.txStage, txStage_session]
  split
  · rfl
  · rw [shown_pure, hlib.txAbort]
    rfl

theorem shown_assign (fails : Bool) (l : L) (v : V l) (t : T) :
    shown (.ok (assign fails l v t)) = .ok (assign fails l v (TxLibrary.session t)) := by
  rw [assign, assign, conditionalAddToTx, conditionalAddToTx, hlib.txStage, txStage_session]
  by_cases hwork : (TxLibrary.session t).stage = .work
  · rw [if_neg (not_not.mpr hwork), if_neg (not_not.mpr hwork)]
    cases fails with
    | true =>
      exact congrArg (fun s => Except.ok (Outcome.thrown .transactionError, s))
        (hlib.cancel t hwork)
    | false =>
      have hstore := hlib.apply (TxLibrary.apply t [.snapshot l]) [.store l v]
      rw [hlib.apply t] at hstore
      exact congrArg (fun s => Except.ok (Outcome.returned, s)) hstore
  · rw [if_pos hwork, if_pos hwork]
    exact congrArg (fun s => Except.ok (Outcome.returned, s)) (hlib.apply t _)

theorem shown_leaveCreate (outcome : Outcome) (t : T) :
    shown (leaveCreate (outcome, t)) = leaveCreate (outcome, TxLibrary.session t) := by
  cases outcome with
  | returned => rfl
  | thrown e =>
    show shown (TxLibrary.txFree t >>= fun t => pure (.thrown e, t)) = _
    rw [shown_pure, hlib.txFree]
    rfl

theorem shown_makePersistent (fails : Bool) (alloc : List (Op V))
    (hcreate : ∀ t, shown (create t) = create' (TxLibrary.session t)) (t : T) :
    shown (makePersistent fails alloc create t)
      = makePersistent fails alloc create' (TxLibrary.session t) := by
  rw [makePersistent, makePersistent, hlib.txStage, txStage_session]
  split
  · rfl
  next hwork =>
    cases fails with
    | true =>
      exact congrArg (fun s => Except.ok (Outcome.thrown .transactionAllocError, s))
        (hlib.cancel t (not_not.mp hwork))
    | false =>
      rw [if_neg Bool.false_ne_true, if_neg Bool.false_ne_true, shown_bind (shown_leaveCreate hlib),
        hcreate, hlib.apply]
      rfl

/-- **A program does the same with every library that keeps the stage rules.** -/
theorem Prog.shown_perform (p : Prog V) (t : T) :
    shown (p.perform t) = p.perform (TxLibrary.session t) := by
  induction p generalizing t with
  | skip | throw e => rfl
  | read k ih => exact ih _ t
  | store l v => exact congrArg (fun s => Except.ok (Outcome.returned, s)) (hlib.apply t _)
  | assign fails l v => exact shown_assign hlib fails l v t
  | makePersistent fails alloc create ih => exact shown_makePersistent hlib fails alloc ih t
  | abort => exact shown_abort hlib t
  | seq p q ihp ihq =>
    have hq (outcome : Outcome) (t : T) : shown (onReturn q.perform (outcome, t))
        = onReturn q.perform (outcome, TxLibrary.session t) := by
      cases outcome with
      | returned => exact ihq t
      | thrown e => rfl
    exact (shown_bind hq).trans (congrArg (· >>= _) (ihp t))
  | tryCatch p q ihp ihq =>
    have hq (outcome : Outcome) (t : T) : shown (onThrow q.perform (outcome, t))
        = onThrow q.perform (outcome, TxLibrary.session t) := by
      cases outcome with
      | returned => rfl
      | thrown e => exact ihq t
    exact (shown_bind hq).trans (congrArg (· >>= _) (ihp t))
  | execTx tx ih =>
    refine (shown_bind (shown_leaveTx hlib)).trans (congrArg (· >>= leaveTx) ?_)
    rw [shown_call ih, hlib.txBegin]
    rfl

end Library

/-! ## Nested transactions, flattened -/

/-- How a program ends inside of a transaction. -/
inductive Ending where
  | returned
  /-- It throws, and the transaction is not aborted yet. -/
  | thrown (e : Thrown)
  /-- It throws, and the transaction is aborted. -/
  | aborted (e : Thrown)
  /-- It calls a function in a stage in which that is not allowed. -/
  | misused
  /-- It has caught what was thrown when the transaction was aborted. -/
  | rescued
  deriving DecidableEq, Repr

/-- A transaction ends whose closure ends so. -/
def Ending.leave : Ending → Ending
  -- taken for an abort, which it is not
  | .thrown .manualTxAbort => .misused
  | .thrown e => .aborted e
  | ending => ending

/-- An object is freed if its constructor ends so and throws. -/
def Ending.free : Ending → Ending
  | .aborted _ => .misused
  | ending => ending

/-- `k` goes on where `ops` have been done. -/
def continued (ops : List (Op V)) (k : List (Op V) × Ending) : List (Op V) × Ending :=
  (ops ++ k.1, k.2)

/-- `k` follows what a program does that returns. -/
def flatOnReturn (k : List (Op V) → List (Op V) × Ending) :
    List (Op V) × Ending → List (Op V) × Ending
  | (ops, .returned) => continued ops (k ops)
  | r => r

/-- `k` follows what a program does that throws. -/
def flatOnThrow (k : List (Op V) → List (Op V) × Ending) :
    List (Op V) × Ending → List (Op V) × Ending
  | (ops, .thrown _) => continued ops (k ops)
  | (ops, .aborted _) => (ops, .rescued)
  | r => r

/-- What a program does to the memory inside of a transaction, and how it ends. What it does after
it was rescued is left out. -/
def Prog.flat [DecidableEq L] : Prog V → (∀ l, V l) → List (Op V) × Ending
  | .skip, _ => ([], .returned)
  | .read k, m => (k m).flat m
  | .store l v, _ => ([.store l v], .returned)
  | .assign fails l v, _ =>
    if fails then ([], .aborted .transactionError) else (TxMemory.assign l v, .returned)
  | .makePersistent fails alloc create, m =>
    if fails then ([], .aborted .transactionAllocError)
    else continued alloc ((create.flat (exec (durable m) alloc).view).map id Ending.free)
  | .throw e, _ => ([], .thrown e)
  | .abort, _ => ([], .aborted .manualTxAbort)
  | .seq p q, m => flatOnReturn (fun ops => q.flat (exec (durable m) ops).view) (p.flat m)
  | .tryCatch p q, m => flatOnThrow (fun ops => q.flat (exec (durable m) ops).view) (p.flat m)
  | .execTx tx, m => (tx.flat m).map id Ending.leave

section Equations

variable [DecidableEq L] (p q : Prog V) (fails : Bool) (alloc : List (Op V)) (s : Session V)
  (m : ∀ l, V l)

theorem Prog.perform_makePersistent : (Prog.makePersistent fails alloc p).perform s
    = Transaction.makePersistent fails alloc p.perform s := rfl

theorem Prog.perform_seq : (Prog.seq p q).perform s = p.perform s >>= onReturn q.perform := rfl

theorem Prog.perform_tryCatch :
    (Prog.tryCatch p q).perform s = p.perform s >>= onThrow q.perform := rfl

theorem Prog.perform_execTx :
    (Prog.execTx p).perform s = s.txBegin >>= p.perform >>= leaveTx := rfl

theorem Prog.flat_makePersistent : (Prog.makePersistent fails alloc p).flat m
    = if fails then ([], .aborted .transactionAllocError)
      else continued alloc ((p.flat (exec (durable m) alloc).view).map id Ending.free) := rfl

theorem Prog.flat_seq : (Prog.seq p q).flat m
    = flatOnReturn (fun ops => q.flat (exec (durable m) ops).view) (p.flat m) := rfl

theorem Prog.flat_tryCatch : (Prog.tryCatch p q).flat m
    = flatOnThrow (fun ops => q.flat (exec (durable m) ops).view) (p.flat m) := rfl

theorem Prog.flat_execTx : (Prog.execTx p).flat m = (p.flat m).map id Ending.leave := rfl

end Equations

/-- The operations are stores, without a snapshot. -/
def OnlyStores (ops : List (Op V)) : Prop := ∀ op ∈ ops, ∃ l v, op = .store l v

theorem onlyStores_nil : OnlyStores ([] : List (Op V)) := nofun

theorem OnlyStores.append {ops ops' : List (Op V)} (h : OnlyStores ops) (h' : OnlyStores ops') :
    OnlyStores (ops ++ ops') :=
  List.forall_mem_append.mpr ⟨h, h'⟩

/-- What a program has left of the memory `σ` that had done `ops` in `n + 1` transactions when it
was rescued. It may have stored something before what was done is rolled back, and after that. -/
def Rescued [DecidableEq L] (σ : State V) (n : ℕ) (ops : List (Op V)) (σ' : State V) : Prop :=
  ∃ during after, OnlyStores during ∧ OnlyStores after ∧
    σ' = exec (Session.undo (exec σ (ops ++ during)) n) after

/-- In `n + 1` transactions and memory `σ`, a program has done what `r` says. -/
def Fits [DecidableEq L] (σ : State V) (n : ℕ) (result : Except Misuse (Outcome × Session V)) :
    List (Op V) × Ending → Prop
  | (ops, .returned) => result = .ok (.returned, .working (exec σ ops) n)
  | (ops, .thrown e) => result = .ok (.thrown e, .working (exec σ ops) n)
  | (ops, .aborted e) => result = .ok (.thrown e, .failed (Session.undo (exec σ ops) n) n)
  | (_, .misused) => result = .error .wrongStage
  | (ops, .rescued) => ∀ outcome s, result = .ok (outcome, s) →
      ∃ σ', Rescued σ n ops σ' ∧ s = .failed σ' n

/-- `k` goes on in `n + 1` transactions where a program has done what the second pair says, and both
have done what `r` says. -/
def GoesOn [DecidableEq L] (σ : State V) (n : ℕ)
    (k : Outcome × Session V → Except Misuse (Outcome × Session V)) (r : List (Op V) × Ending) :
    List (Op V) × Ending → Prop
  | (ops, .returned) => Fits σ n (k (.returned, .working (exec σ ops) n)) r
  | (ops, .thrown e) => Fits σ n (k (.thrown e, .working (exec σ ops) n)) r
  | (ops, .aborted e) => Fits σ n (k (.thrown e, .failed (Session.undo (exec σ ops) n) n)) r
  | (_, .misused) => r.2 = .misused
  | (ops, .rescued) => r = (ops, .rescued) ∧ ∀ σ' outcome outcome' s,
      k (outcome, .failed σ' n) = .ok (outcome', s) →
        ∃ more, OnlyStores more ∧ s = .failed (exec σ' more) n

section Flat

variable [DecidableEq L] {σ : State V} {n : ℕ} {result : Except Misuse (Outcome × Session V)}
  {p q tx : Prog V} {outcome : Outcome} {s : Session V} {e : Thrown} {ops ops' : List (Op V)}
  {ending : Ending}

/-! ### After an abort -/

/-- **An abort cannot be undone.** What a program does in an aborted transaction, it does not get
out of it; and all that it can do to the memory is to store. -/
theorem Prog.perform_failed (p : Prog V) (h : p.perform (.failed σ n) = .ok (outcome, s)) :
    ∃ ops, OnlyStores ops ∧ s = .failed (exec σ ops) n := by
  induction p generalizing σ outcome s with
  | skip | throw | abort | makePersistent =>
    cases h
    exact ⟨[], onlyStores_nil, rfl⟩
  | store l v | assign fails l v =>
    cases h
    exact ⟨[.store l v], fun op hop => ⟨l, v, List.mem_singleton.mp hop⟩, rfl⟩
  | read k ih => exact ih _ h
  | seq p q ihp ihq =>
    obtain ⟨⟨outcome', s'⟩, hp, hq⟩ := bind_eq_ok.mp h
    obtain ⟨ops, hops, rfl⟩ := ihp hp
    cases outcome' with
    | returned =>
      obtain ⟨ops', hops', rfl⟩ := ihq hq
      exact ⟨ops ++ ops', hops.append hops', by rw [exec_append]⟩
    | thrown e =>
      cases hq
      exact ⟨ops, hops, rfl⟩
  | tryCatch p q ihp ihq =>
    obtain ⟨⟨outcome', s'⟩, hp, hq⟩ := bind_eq_ok.mp h
    obtain ⟨ops, hops, rfl⟩ := ihp hp
    cases outcome' with
    | returned =>
      cases hq
      exact ⟨ops, hops, rfl⟩
    | thrown e =>
      obtain ⟨ops', hops', rfl⟩ := ihq hq
      exact ⟨ops ++ ops', hops.append hops', by rw [exec_append]⟩
  | execTx tx _ =>
    rw [Prog.perform_execTx, Session.txBegin_failed] at h
    cases h

/-- The program is rescued: it catches what was thrown. -/
theorem rescued_of_aborted (σ : State V) (n : ℕ) (ops : List (Op V)) {more : List (Op V)}
    (hmore : OnlyStores more) : Rescued σ n ops (exec (Session.undo (exec σ ops) n) more) :=
  ⟨[], more, onlyStores_nil, hmore, by rw [List.append_nil]⟩

/-- It goes on. -/
theorem Rescued.more {σ' : State V} (h : Rescued σ n ops σ') {more : List (Op V)}
    (hmore : OnlyStores more) : Rescued σ n ops (exec σ' more) := by
  obtain ⟨during, after, hduring, hafter, rfl⟩ := h
  exact ⟨during, after ++ more, hduring, hafter.append hmore, (exec_append ..).symm⟩

/-- What was done before. -/
theorem Rescued.continued {σ' : State V} (h : Rescued (exec σ ops) n ops' σ') :
    Rescued σ n (ops ++ ops') σ' := by
  obtain ⟨during, after, hduring, hafter, rfl⟩ := h
  refine ⟨during, after, hduring, hafter, ?_⟩
  rw [List.append_assoc, exec_append σ ops]

/-- An inner transaction rolls nothing back; what was stored in it is in front of the rollback. -/
theorem Rescued.leave {σ' : State V} (h : Rescued σ (n + 1) ops σ') :
    Rescued σ n ops (Session.undo σ' n) := by
  obtain ⟨during, after, hduring, hafter, rfl⟩ := h
  refine ⟨during ++ after, [], hduring.append hafter, onlyStores_nil, ?_⟩
  rw [← List.append_assoc, exec_append σ (ops ++ during)]
  rfl

/-! ### One lemma for each way to put programs together -/

/-- What was done before. -/
theorem Fits.continued {r : List (Op V) × Ending} (h : Fits (exec σ ops) n result r) :
    Fits σ n result (continued ops r) := by
  obtain ⟨ops', ending⟩ := r
  rw [Transaction.continued]
  cases ending with
  | returned | thrown e | aborted e =>
    simp only [Fits, exec_append]
    exact h
  | misused => exact h
  | rescued =>
    intro outcome s hs
    obtain ⟨σ', hrescued, rfl⟩ := h outcome s hs
    exact ⟨σ', hrescued.continued, rfl⟩

/-- A program, and what follows it. -/
theorem Fits.bind {k : Outcome × Session V → Except Misuse (Outcome × Session V)}
    {r r' : List (Op V) × Ending} (h : Fits σ n result r') (hk : GoesOn σ n k r r') :
    Fits σ n (result >>= k) r := by
  obtain ⟨ops, ending⟩ := r'
  cases ending with
  | returned | thrown e | aborted e =>
    rw [show result = _ from h]
    exact hk
  | misused =>
    obtain ⟨ops', ending'⟩ := r
    obtain rfl : ending' = .misused := hk
    rw [show result = _ from h]
    rfl
  | rescued =>
    obtain ⟨rfl, hfailed⟩ : r = (ops, .rescued) ∧ _ := hk
    intro outcome s hs
    obtain ⟨⟨outcome', s'⟩, hresult, hcont⟩ := bind_eq_ok.mp hs
    obtain ⟨σ', hrescued, rfl⟩ := h outcome' s' hresult
    obtain ⟨more, hmore, rfl⟩ := hfailed σ' outcome' outcome s hcont
    exact ⟨_, hrescued.more hmore, rfl⟩

/-- What a program does next is decided from what it has left in the memory. -/
theorem view_exec (σ : State V) (ops : List (Op V)) :
    (exec (durable σ.view) ops).view = (exec σ ops).view :=
  view_exec_congr (s := durable σ.view) (t := σ) rfl ops

theorem Fits.seq (hp : Fits σ n (p.perform (.working σ n)) (p.flat σ.view))
    (hq : ∀ σ, Fits σ n (q.perform (.working σ n)) (q.flat σ.view)) :
    Fits σ n ((Prog.seq p q).perform (.working σ n)) ((Prog.seq p q).flat σ.view) := by
  rw [Prog.perform_seq, Prog.flat_seq]
  generalize p.flat σ.view = r at hp
  obtain ⟨ops, ending⟩ := r
  refine hp.bind ?_
  cases ending with
  | returned =>
    rw [flatOnReturn, view_exec]
    exact (hq _).continued
  | thrown e => rfl
  | aborted e => rfl
  | misused => rfl
  | rescued =>
    refine ⟨rfl, fun σ' outcome outcome' s h => ?_⟩
    cases outcome with
    | returned => exact q.perform_failed h
    | thrown e =>
      cases h
      exact ⟨[], onlyStores_nil, rfl⟩

theorem Fits.tryCatch (hp : Fits σ n (p.perform (.working σ n)) (p.flat σ.view))
    (hq : ∀ σ, Fits σ n (q.perform (.working σ n)) (q.flat σ.view)) :
    Fits σ n ((Prog.tryCatch p q).perform (.working σ n))
      ((Prog.tryCatch p q).flat σ.view) := by
  rw [Prog.perform_tryCatch, Prog.flat_tryCatch]
  generalize p.flat σ.view = r at hp
  obtain ⟨ops, ending⟩ := r
  refine hp.bind ?_
  cases ending with
  | returned => rfl
  | thrown e =>
    rw [flatOnThrow, view_exec]
    exact (hq _).continued
  | aborted e =>
    intro outcome s h
    obtain ⟨more, hmore, rfl⟩ := q.perform_failed h
    exact ⟨_, rescued_of_aborted σ n ops hmore, rfl⟩
  | misused => rfl
  | rescued =>
    refine ⟨rfl, fun σ' outcome outcome' s h => ?_⟩
    cases outcome with
    | returned =>
      cases h
      exact ⟨[], onlyStores_nil, rfl⟩
    | thrown e => exact q.perform_failed h

theorem makePersistent_fails (alloc : List (Op V))
    (create : Session V → Except Misuse (Outcome × Session V)) :
    makePersistent true alloc create (.working σ n)
      = .ok (.thrown .transactionAllocError, .failed (Session.undo σ n) n) := by
  rw [← Session.cancel_working]
  rfl

theorem makePersistent_working (alloc : List (Op V))
    (create : Session V → Except Misuse (Outcome × Session V)) :
    makePersistent false alloc create (.working σ n)
      = create (.working (exec σ alloc) n) >>= leaveCreate := rfl

theorem Fits.makePersistent (fails : Bool) {alloc : List (Op V)}
    (hp : Fits (exec σ alloc) n (p.perform (.working (exec σ alloc) n))
      (p.flat (exec σ alloc).view)) :
    Fits σ n ((Prog.makePersistent fails alloc p).perform (.working σ n))
      ((Prog.makePersistent fails alloc p).flat σ.view) := by
  rw [Prog.perform_makePersistent, Prog.flat_makePersistent, view_exec]
  cases fails with
  | true =>
    rw [makePersistent_fails]
    rfl
  | false =>
    rw [makePersistent_working, if_neg Bool.false_ne_true]
    generalize p.flat (exec σ alloc).view = r at hp
    obtain ⟨ops, ending⟩ := r
    refine Fits.continued (hp.bind ?_)
    cases ending with
    | returned => rfl
    | thrown e => rfl
    | aborted e => rfl
    | misused => rfl
    | rescued =>
      refine ⟨rfl, fun σ' outcome outcome' s h => ?_⟩
      cases outcome with
      | returned =>
        cases h
        exact ⟨[], onlyStores_nil, rfl⟩
      | thrown e => cases h

/-- How the innermost of `n + 1` transactions ends when all that was done in it is what `r` says. -/
def Leaves (σ : State V) (n : ℕ) (result : Except Misuse (Outcome × Session V)) :
    List (Op V) × Ending → Prop
  | (ops, .returned) =>
    result = ((Session.working (exec σ ops) n).txCommit >>= Session.txEnd).map (.returned, ·)
  | (_, .thrown _) => False
  | (ops, .aborted e) =>
    result = (Session.failed (Session.undo (exec σ ops) n) n).txEnd.map (.thrown e, ·)
  | (_, .misused) => result = .error .wrongStage
  | (ops, .rescued) => ∀ outcome s, result = .ok (outcome, s) →
      (∃ e, outcome = .thrown e) ∧
        ∃ σ', Rescued σ n ops σ' ∧ (Session.failed σ' n).txEnd = .ok s

theorem leaveTx_thrown_failed (e : Thrown) :
    leaveTx (.thrown e, .failed σ n) = (Session.failed σ n).txEnd.map (.thrown e, ·) := by
  cases e <;> rfl

/-- An aborted transaction ends, and throws. -/
theorem leaveTx_failed (outcome : Outcome) :
    ∃ e, leaveTx (outcome, .failed σ n) = (Session.failed σ n).txEnd.map (.thrown e, ·) := by
  cases outcome with
  | returned => exact ⟨.transactionError, rfl⟩
  | thrown e => exact ⟨e, leaveTx_thrown_failed e⟩

/-- A transaction that throws is aborted, but for what looks as if it were. -/
theorem leaveTx_thrown (he : e ≠ .manualTxAbort) : leaveTx (.thrown e, .working σ n)
    = (Session.failed (Session.undo σ n) n).txEnd.map (.thrown e, ·) := by
  rw [← leaveTx_thrown_failed]
  cases e with
  | manualTxAbort => exact absurd rfl he
  | _ => exact congrArg (· >>= _) Session.txAbort_working

theorem Ending.leave_thrown (he : e ≠ .manualTxAbort) : (Ending.thrown e).leave = .aborted e := by
  cases e with
  | manualTxAbort => exact absurd rfl he
  | _ => rfl

theorem Ending.eq_returned_of_leave (h : ending.leave = .returned) : ending = .returned := by
  cases ending with
  | returned => rfl
  | thrown e => cases e <;> cases h
  | _ => cases h

/-- **The end of a transaction**, at any depth. -/
theorem Fits.leave {r : List (Op V) × Ending} (h : Fits σ n result r) :
    Leaves σ n (result >>= leaveTx) (r.map id Ending.leave) := by
  obtain ⟨ops, ending⟩ := r
  cases ending with
  | returned =>
    rw [show result = _ from h]
    rfl
  | thrown e =>
    rw [show result = _ from h, ok_bind]
    by_cases he : e = .manualTxAbort
    · subst he
      rfl
    · rw [leaveTx_thrown he, Prod.map_apply, Ending.leave_thrown he]
      rfl
  | aborted e =>
    rw [show result = _ from h, ok_bind, leaveTx_thrown_failed]
    rfl
  | misused =>
    rw [show result = _ from h]
    rfl
  | rescued =>
    intro outcome s hs
    obtain ⟨⟨outcome', s'⟩, hresult, hleave⟩ := bind_eq_ok.mp hs
    obtain ⟨σ', hrescued, rfl⟩ := h outcome' s' hresult
    obtain ⟨e, heq⟩ := leaveTx_failed (σ := σ') (n := n) outcome'
    rw [heq] at hleave
    cases hend : (Session.failed σ' n).txEnd with
    | error _ =>
      rw [hend] at hleave
      cases hleave
    | ok s'' =>
      rw [hend] at hleave
      cases hleave
      exact ⟨⟨e, rfl⟩, σ', hrescued, hend⟩

theorem Leaves.fits {r : List (Op V) × Ending} (h : Leaves σ (n + 1) result r) :
    Fits σ n result r := by
  obtain ⟨ops, ending⟩ := r
  cases ending with
  | returned => exact h
  | thrown e => exact h.elim
  | aborted e =>
    rw [show result = _ from h, Session.txEnd_failed]
    rfl
  | misused => exact h
  | rescued =>
    intro outcome s hs
    obtain ⟨-, σ', hrescued, hend⟩ := h outcome s hs
    rw [Session.txEnd_failed] at hend
    cases hend
    exact ⟨_, hrescued.leave, rfl⟩

/-- **A program inside of any number of transactions** does to the memory what it does when the
transactions in it are not looked at; and it ends with the innermost one aborted, or goes on. -/
theorem Prog.perform_working (p : Prog V) (σ : State V) (n : ℕ) :
    Fits σ n (p.perform (.working σ n)) (p.flat σ.view) := by
  induction p generalizing σ n with
  | skip => rfl
  | read k ih => exact ih σ.view σ n
  | store l v => rfl
  | assign fails l v =>
    cases fails with
    | true =>
      show Except.ok (Outcome.thrown .transactionError, (Session.working σ n).cancel) = _
      rw [Session.cancel_working]
      rfl
    | false => rfl
  | makePersistent fails alloc create ih => exact Fits.makePersistent fails (ih _ n)
  | throw e => rfl
  | abort => exact congrArg (· >>= _) Session.txAbort_working
  | seq p q ihp ihq => exact Fits.seq (ihp σ n) fun σ => ihq σ n
  | tryCatch p q ihp ihq => exact Fits.tryCatch (ihp σ n) fun σ => ihq σ n
  | execTx tx ih => exact (ih σ (n + 1)).leave.fits

/-- Outside of transactions, an outermost transaction has done to the memory `σ` what `r` says. -/
def IsOne (σ : State V) (result : Except Misuse (Outcome × Session V)) :
    List (Op V) × Ending → Prop
  | (ops, .returned) => result = .ok (.returned, .idle (exec σ (ops ++ [Op.commit])))
  | (ops, .thrown e) | (ops, .aborted e) =>
    result = .ok (.thrown e, .idle (TxMemory.abort (exec σ ops)))
  | (_, .misused) => result = .error .wrongStage
  | (ops, .rescued) => ∀ outcome s, result = .ok (outcome, s) →
      outcome ≠ .returned ∧ ∃ σ', Rescued σ 0 ops σ' ∧ s = .idle σ'

theorem Leaves.isOne {r : List (Op V) × Ending} (h : Leaves σ 0 result r) : IsOne σ result r := by
  obtain ⟨ops, ending⟩ := r
  cases ending with
  | returned =>
    show _ = Except.ok (Outcome.returned, Session.idle (exec σ (ops ++ [Op.commit])))
    rw [exec_append]
    exact h
  | thrown e => exact h.elim
  | aborted e => exact h
  | misused => exact h
  | rescued =>
    intro outcome s hs
    obtain ⟨⟨e, rfl⟩, σ', hrescued, hend⟩ := h outcome s hs
    cases hend
    exact ⟨nofun, σ', hrescued, rfl⟩

/-- An outermost transaction, in a session. -/
theorem Prog.execTx_idle (p : Prog V) (σ : State V) :
    IsOne σ ((Prog.execTx p).perform (Session.idle σ)) ((Prog.execTx p).flat σ.view) := by
  rw [Prog.perform_execTx, Prog.flat_execTx, Session.txBegin_idle, ok_bind]
  exact (p.perform_working σ 0).leave.isOne

/-- A transaction of a constructor leaves the object to be freed, unless it returns. -/
theorem execTx_returned_or_failed (h : (Prog.execTx p).perform (.working σ n) = .ok (outcome, s)) :
    outcome = .returned ∧ (p.flat σ.view).2 = .returned ∨
      (∃ e, outcome = .thrown e) ∧ ∃ σ', s = .failed σ' n := by
  have hleaves := (p.perform_working σ (n + 1)).leave
  rw [Prog.perform_execTx, Session.txBegin_working, ok_bind] at h
  rw [h] at hleaves
  generalize hr : (p.flat σ.view).map id Ending.leave = r at hleaves
  obtain ⟨ops, ending⟩ := r
  cases ending with
  | returned =>
    cases hleaves
    exact .inl ⟨rfl, Ending.eq_returned_of_leave (congrArg Prod.snd hr)⟩
  | thrown e => exact hleaves.elim
  | aborted e =>
    rw [Leaves, Session.txEnd_failed] at hleaves
    cases hleaves
    exact .inr ⟨⟨e, rfl⟩, _, rfl⟩
  | misused => cases hleaves
  | rescued =>
    obtain ⟨hthrown, σ', -, hend⟩ := hleaves _ _ rfl
    rw [Session.txEnd_failed] at hend
    cases hend
    exact .inr ⟨hthrown, _, rfl⟩

/-- **A constructor with a transaction of its own must not throw.** In any number of transactions,
`make_persistent` returns when the transaction of the constructor does. Otherwise it does not
rethrow: the transaction is aborted, and the object is freed in a stage in which that is not
allowed. -/
theorem makePersistent_transactional [TxLibrary V T] (hlib : StageRules T) (alloc : List (Op V))
    (p : Prog V) {t : T} {σ : State V} {n : ℕ} (ht : TxLibrary.session t = .working σ n) :
    shown ((Prog.makePersistent false alloc (.execTx p)).perform t) =
      if (p.flat (exec σ alloc).view).2 = .returned then
        .ok (.returned, .working (exec σ (alloc ++ (p.flat (exec σ alloc).view).1)) n)
      else
        .error .wrongStage := by
  rw [Prog.shown_perform hlib, ht]
  split
  next hreturned =>
    have hfits := (Prog.makePersistent false alloc (.execTx p)).perform_working σ n
    rw [Prog.flat_makePersistent, if_neg Bool.false_ne_true, view_exec, Prog.flat_execTx,
      continued, Prod.map_snd, Prod.map_snd, hreturned] at hfits
    exact hfits
  next hnot =>
    rw [Prog.perform_makePersistent, makePersistent_working]
    cases hcreate : (Prog.execTx p).perform (Session.working (exec σ alloc) n) with
    | error e =>
      cases e
      rfl
    | ok r =>
      obtain ⟨outcome, s⟩ := r
      rcases execTx_returned_or_failed hcreate with ⟨-, hreturned⟩ | ⟨⟨e, rfl⟩, σ', rfl⟩
      · exact absurd hreturned hnot
      · rfl

/-! ## Programs that do not catch -/

/-- Seeing the memory `m`, the program does `ops` and returns; or it throws after some of them, and
nothing in it takes that for an abort. -/
def Does (p : Prog V) (m : ∀ l, V l) (ops : List (Op V)) : Prop :=
  p.flat m = (ops, .returned) ∨
    ∃ before ending e, p.flat m = (before, ending) ∧ before <+: ops ∧ ending.leave = .aborted e

variable {m : ∀ l, V l}

theorem Does.read {k : (∀ l, V l) → Prog V} (h : Does (k m) m ops) : Does (.read k) m ops := h

theorem does_assign (fails : Bool) (l : L) (v : V l) :
    Does (.assign fails l v) m (TxMemory.assign l v) := by
  cases fails with
  | true => exact .inr ⟨[], _, .transactionError, rfl, List.nil_prefix, rfl⟩
  | false => exact .inl rfl

/-- The constructor does not throw. -/
theorem does_makePersistent (fails : Bool) {alloc : List (Op V)}
    (h : p.flat (exec (durable m) alloc).view = (ops, .returned)) :
    Does (.makePersistent fails alloc p) m (alloc ++ ops) := by
  cases fails with
  | true => exact .inr ⟨[], _, .transactionAllocError, rfl, List.nil_prefix, rfl⟩
  | false =>
    refine .inl ?_
    rw [Prog.flat_makePersistent, if_neg Bool.false_ne_true, h]
    rfl

theorem Does.seq (hp : Does p m ops) (hq : Does q (exec (durable m) ops).view ops') :
    Does (.seq p q) m (ops ++ ops') := by
  rcases hp with hp | ⟨before, ending, e, hp, hbefore, hleave⟩
  · rcases hq with hq | ⟨before, ending, e, hq, hbefore, hleave⟩
    · refine .inl ?_
      rw [Prog.flat_seq, hp, flatOnReturn, hq]
      rfl
    · refine .inr ⟨ops ++ before, ending, e, ?_, ?_, hleave⟩
      · rw [Prog.flat_seq, hp, flatOnReturn, hq]
        rfl
      · exact (List.prefix_append_right_inj ops).mpr hbefore
  · refine .inr ⟨before, ending, e, ?_, hbefore.trans (List.prefix_append ..), hleave⟩
    rw [Prog.flat_seq, hp]
    cases ending with
    | returned => cases hleave
    | _ => rfl

theorem Does.execTx (h : Does p m ops) : Does (.execTx p) m ops := by
  rcases h with h | ⟨before, ending, e, h, hbefore, hleave⟩
  · refine .inl ?_
    rw [Prog.flat_execTx, h]
    rfl
  · refine .inr ⟨before, .aborted e, e, ?_, hbefore, rfl⟩
    rw [Prog.flat_execTx, h, ← hleave]
    rfl

theorem Does.isPrefix (h : Does p m ops) : (p.flat m).1 <+: ops := by
  rcases h with h | ⟨before, ending, e, h, hbefore, -⟩
  · have hops : (p.flat m).1 = ops := congrArg Prod.fst h
    exact hops ▸ List.prefix_rfl
  · have hops : (p.flat m).1 = before := congrArg Prod.fst h
    exact hops ▸ hbefore

/-- **All is committed, or what was done is rolled back.** -/
theorem Does.perform_idle [TxLibrary V T] (hlib : StageRules T) (h : Does p σ.view ops) {t : T}
    (ht : TxLibrary.session t = .idle σ) :
    shown ((Prog.execTx p).perform t) = .ok (.returned, .idle (exec σ (ops ++ [Op.commit]))) ∨
      ∃ (before : List (Op V)) (e : Thrown), before <+: ops ∧ shown ((Prog.execTx p).perform t)
        = .ok (.thrown e, .idle (TxMemory.abort (exec σ before))) := by
  have hone := p.execTx_idle σ
  rw [Prog.shown_perform hlib, ht]
  rw [Prog.flat_execTx] at hone
  rcases h with h | ⟨before, ending, e, h, hbefore, hleave⟩
  · rw [h] at hone
    exact .inl hone
  · rw [h, Prod.map_apply, hleave] at hone
    exact .inr ⟨before, e, hbefore, hone⟩

end Flat

/-! ### Small programs -/

/-- Two locations that hold `0`. -/
def twoZeros : State fun _ : Fin 2 => ℕ := durable fun _ => 0

/-- In two transactions, a constructor whose transaction returns, and one whose transaction
throws. -/
theorem makePersistent_transactional_nested :
    shown ((Prog.makePersistent false [] (.execTx (.assign false 0 1))).perform
        (Session.working twoZeros 1))
      = .ok (.returned, .working (exec twoZeros (TxMemory.assign 0 1)) 1) ∧
    shown ((Prog.makePersistent false [] (.execTx (.throw .other))).perform
        (Session.working twoZeros 1)) = .error .wrongStage :=
  ⟨makePersistent_transactional stageRules_session [] (.assign false 0 1) rfl,
    makePersistent_transactional stageRules_session [] (.throw .other) rfl⟩

end Transaction

end RangeCache
