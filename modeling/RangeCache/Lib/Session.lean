import RangeCache.Lib.DurableRun

/-!
# Nested transactions

The transactions of one thread, as a transactional memory with undo log has them. A transaction may
be begun within another one. Then its commit makes nothing durable: the outermost transaction does.
An abort cannot be undone either: when an aborted transaction ends, the one around it is aborted
with it, and the snapshots are written back when that has reached the outermost one.

Each call is allowed in some stages only. What it does in the others is not said.

A library that offers the calls is a parameter: what is known of it is what its calls do to the
stage, the open transactions and the memory.

## Main definitions

* `TxMemory.Stage`, `Session` — the stage a thread is in, and its open transactions
* `Session.txBegin`, `txAbort`, `txCommit`, `txEnd`, `txFree` — what the calls do
* `Session.working`, `Session.failed` — a thread inside of transactions
* `TxLibrary`, `StageRules` — the calls of a library, and what it promises

## Main results

* `Session.txCommit_txEnd`, `Session.txEnd_failed` — how a transaction ends, by its depth
* `stageRules_session` — a session is a library that keeps the promises
-/

namespace TxMemory

variable {L : Type*} {V : L → Type*}

inductive Stage where
  /-- No transaction in this thread. -/
  | none
  /-- A transaction is in progress. -/
  | work
  | onCommit
  | onAbort
  deriving DecidableEq, Repr

/-- A call in a stage in which it is not allowed. -/
inductive Misuse where
  | wrongStage
  deriving DecidableEq, Repr

/-- The memory, and the transactions of a thread. -/
structure Session (V : L → Type*) where
  memory : State V
  stage : Stage
  /-- Whether each of the transactions that were begun and have not ended is aborted, the innermost
  first. -/
  aborted : List Bool

namespace Session

/-- No transaction is open. -/
def idle (σ : State V) : Session V := ⟨σ, .none, []⟩

/-- In `n + 1` transactions, the memory being `σ`. -/
def working (σ : State V) (n : ℕ) : Session V := ⟨σ, .work, List.replicate (n + 1) false⟩

/-- In `n + 1` transactions, of which the innermost one is aborted. -/
def failed (σ : State V) (n : ℕ) : Session V := ⟨σ, .onAbort, true :: List.replicate n false⟩

def txBegin (s : Session V) : Except Misuse (Session V) :=
  if s.stage = .none ∨ s.stage = .work then
    .ok { s with stage := .work, aborted := false :: s.aborted }
  else
    .error .wrongStage

/-- The innermost transaction fails. If it is the outermost one, the snapshots are written back. -/
def cancel (s : Session V) : Session V :=
  { memory := if s.aborted.length ≤ 1 then abort s.memory else s.memory, stage := .onAbort,
    aborted := true :: s.aborted.tail }

def txAbort (s : Session V) : Except Misuse (Session V) :=
  if s.stage = .work then .ok s.cancel else .error .wrongStage

/-- The end of a transaction, which has been committed or aborted before. -/
def txEnd (s : Session V) : Except Misuse (Session V) :=
  if s.stage = .work then .error .wrongStage
  else match s.aborted with
    | [] => .ok s
    | [_] => .ok { s with stage := .none, aborted := [] }
    | true :: rest => .ok (cancel { s with stage := .work, aborted := rest })
    | false :: rest => .ok { s with stage := .work, aborted := rest }

/-- An object of the transaction is freed. What was in it has no meaning any more. -/
def txFree (s : Session V) : Except Misuse (Session V) :=
  if s.stage = .work then .ok s else .error .wrongStage

section Memory

variable [DecidableEq L]

def txCommit (s : Session V) : Except Misuse (Session V) :=
  if s.stage = .work then
    .ok { s with
      memory := if s.aborted.length ≤ 1 then step s.memory .commit else s.memory,
      stage := .onCommit }
  else
    .error .wrongStage

/-- Operations on the memory, in any stage. -/
def apply (s : Session V) (ops : List (Op V)) : Session V := { s with memory := exec s.memory ops }

end Memory

/-! ## The calls, by depth -/

/-- What an abort does to the memory in `n + 1` transactions. -/
def undo (σ : State V) : ℕ → State V
  | 0 => abort σ
  | _ + 1 => σ

section Depth

variable {σ : State V} {n : ℕ}

@[simp] theorem txBegin_idle : (idle σ).txBegin = .ok (working σ 0) := rfl

@[simp] theorem txBegin_working : (working σ n).txBegin = .ok (working σ (n + 1)) := rfl

@[simp] theorem txBegin_failed : (failed σ n).txBegin = .error .wrongStage := rfl

@[simp] theorem cancel_working : (working σ n).cancel = failed (undo σ n) n := by
  cases n <;> rfl

@[simp] theorem txAbort_working : (working σ n).txAbort = .ok (failed (undo σ n) n) :=
  congrArg Except.ok cancel_working

@[simp] theorem txFree_working : (working σ n).txFree = .ok (working σ n) := rfl

@[simp] theorem txFree_failed : (failed σ n).txFree = .error .wrongStage := rfl

/-- The outermost transaction was aborted. -/
@[simp] theorem txEnd_failed_zero : (failed σ 0).txEnd = .ok (idle σ) := rfl

/-- **An abort reaches the transactions around it.** -/
@[simp] theorem txEnd_failed : (failed σ (n + 1)).txEnd = .ok (failed (undo σ n) n) :=
  congrArg Except.ok cancel_working

variable [DecidableEq L]

@[simp] theorem apply_working (ops : List (Op V)) :
    (working σ n).apply ops = working (exec σ ops) n := rfl

@[simp] theorem apply_failed (ops : List (Op V)) :
    (failed σ n).apply ops = failed (exec σ ops) n := rfl

/-- An inner transaction leaves the commit to the outermost one. -/
theorem txCommit_txEnd : (working σ (n + 1)).txCommit >>= txEnd = .ok (working σ n) := rfl

end Depth

end Session

/-! ## Libraries -/

/-- The calls of a library of nested transactions, in a thread whose state is a `T`. -/
class TxLibrary {L : outParam (Type*)} (V : outParam (L → Type*)) (T : Type*) where
  /-- What there is to say of the state of a thread. -/
  session : T → Session V
  txStage : T → Stage
  txBegin : T → Except Misuse T
  txAbort : T → Except Misuse T
  txCommit : T → Except Misuse T
  txEnd : T → Except Misuse T
  txFree : T → Except Misuse T
  /-- A call that has failed. -/
  cancel : T → T
  /-- Operations on the memory. -/
  apply : T → List (Op V) → T

/-- **The stage rules**: in each stage, a call of the library does what it is documented to do. A
call that fails does so in a transaction. -/
structure StageRules {L : Type*} [DecidableEq L] {V : L → Type*} (T : Type*) [TxLibrary V T] :
    Prop where
  txStage : ∀ t : T, TxLibrary.txStage t = (TxLibrary.session t).stage
  txBegin : ∀ t : T,
    (TxLibrary.txBegin t).map TxLibrary.session = (TxLibrary.session t).txBegin
  txAbort : ∀ t : T,
    (TxLibrary.txAbort t).map TxLibrary.session = (TxLibrary.session t).txAbort
  txCommit : ∀ t : T,
    (TxLibrary.txCommit t).map TxLibrary.session = (TxLibrary.session t).txCommit
  txEnd : ∀ t : T, (TxLibrary.txEnd t).map TxLibrary.session = (TxLibrary.session t).txEnd
  txFree : ∀ t : T, (TxLibrary.txFree t).map TxLibrary.session = (TxLibrary.session t).txFree
  cancel : ∀ t : T, (TxLibrary.session t).stage = .work →
    TxLibrary.session (TxLibrary.cancel t) = (TxLibrary.session t).cancel
  apply : ∀ (t : T) (ops : List (Op V)),
    TxLibrary.session (TxLibrary.apply t ops) = (TxLibrary.session t).apply ops

instance [DecidableEq L] : TxLibrary V (Session V) where
  session := id
  txStage := Session.stage
  txBegin := Session.txBegin
  txAbort := Session.txAbort
  txCommit := Session.txCommit
  txEnd := Session.txEnd
  txFree := Session.txFree
  cancel := Session.cancel
  apply := Session.apply

@[simp] theorem txStage_session [DecidableEq L] (s : Session V) :
    TxLibrary.txStage s = s.stage := rfl

theorem stageRules_session [DecidableEq L] : StageRules (Session V) where
  txStage _ := rfl
  txBegin _ := congrFun Except.map_id _
  txAbort _ := congrFun Except.map_id _
  txCommit _ := congrFun Except.map_id _
  txEnd _ := congrFun Except.map_id _
  txFree _ := congrFun Except.map_id _
  cancel _ _ := rfl
  apply _ _ := rfl

end TxMemory
