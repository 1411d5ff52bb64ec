import RangeCache.Lib.FallibleRun
import RangeCache.Lib.UndoLog

/-!
# Runs with crashes

A program keeps its data in transactional memory. Each of its actions reads the memory, and then
runs one transaction or none. The program can be stopped at any operation: by an exception, and
then it goes on with what the abort leaves, or by a crash, and then it goes on with what the medium
kept. It can be stopped any number of times.

Nothing is said about memory that is not in use. A transaction that was stopped may have stored
to what it allocated, and that stays.

## Main definitions

* `TxMemory.abort`, `Stopped` — the state in which the program goes on
* `TxMemory.Quiet` — no transaction runs, and all that is in use is on the medium
* `TxMemory.Untouched` — no operation is on a location
* `TxMemory.DurableRun` — the runs: actions that are completed, and stops
* `TxMemory.Transacts` — the data in the memory, and what the transactions do to it
* `TxMemory.batchOps` — the transactions of several actions, within one

## Main results

* `Quiet.stopped`, `Quiet.commit` — one transaction, stopped or committed
* `Transacts.durableRun` — the memory holds what the completed actions alone lead to
* `Transacts.batch` — a batch is a transaction
-/

namespace TxMemory

open FallibleRun

variable {L : Type*} {V : L → Type*}

/-- The state after an exception: each snapshot is written back, and nothing is tracked. -/
def abort (s : State V) : State V where
  view := rollback s
  media l := match s.mark l with
    | .snapshot v => {v}
    | _ => s.media l
  mark _ := .untracked

/-- The program is stopped in state `s`, and goes on in another. -/
inductive Stopped (s : State V) : State V → Prop where
  | throws : Stopped s (abort s)
  | crash {image : ∀ l, V l} : Crash s image → Stopped s (durable image)

/-- No transaction runs, and all that is in use is on the medium. -/
structure Quiet (uses : Set L) (s : State V) : Prop where
  mark : ∀ l, s.mark l = .untracked
  media : ∀ l ∈ uses, s.media l = {s.view l}

theorem quiet_durable (uses : Set L) (m : ∀ l, V l) : Quiet uses (durable m) :=
  ⟨fun _ => rfl, fun _ _ => rfl⟩

section Transaction

variable {s s' : State V} {l : L} {uses uses' : Set L} {ops before : List (Op V)}
  {image : ∀ l, V l}

/-- What is kept is there again after a stop, and durable. -/
theorem Keeps.stopped {v : V l} (h : Keeps l v s) (hstop : Stopped s s') :
    s'.view l = v ∧ s'.media l = {v} := by
  cases hstop with
  | throws =>
    refine ⟨h.recovered (.inl rfl), ?_⟩
    rcases h with hmark | ⟨hmark, -, hmedia⟩
    · simp only [abort, hmark]
    · simpa only [abort, hmark] using hmedia
  | @crash image hcrash =>
    have hv : image l = v := h.recovered (.inr hcrash)
    exact ⟨hv, congrArg (fun v => ({v} : Set (V l))) hv⟩

theorem Stopped.mark (hstop : Stopped s s') (l : L) : s'.mark l = .untracked := by
  cases hstop with
  | throws => rfl
  | crash _ => rfl

theorem Quiet.keeps (h : Quiet uses s) (hl : l ∈ uses) : Keeps l (s.view l) s :=
  .inr ⟨h.mark l, rfl, h.media l hl⟩

/-- What a crash finds when no transaction runs. -/
theorem Quiet.crash (h : Quiet uses s) (hcrash : Crash s image) :
    ∀ l ∈ uses, image l = s.view l :=
  fun _ hl => (h.keeps hl).recovered (.inr hcrash)

/-- An exception leaves what is not tracked. -/
theorem view_abort_of_untracked (hmark : s.mark l = .untracked) :
    (abort s).view l = s.view l := by
  show rollback s l = s.view l
  rw [rollback, hmark]

/-- No operation is on `l`. -/
def Untouched (l : L) (ops : List (Op V)) : Prop :=
  ∀ op ∈ ops, (∀ v, op ≠ .store l v) ∧ op ≠ .snapshot l ∧ op ≠ .allocate l

variable [DecidableEq L]

/-- What is not tracked, and not touched, stays as it is. -/
theorem Untouched.exec (h : Untouched l ops) (hmark : s.mark l = .untracked) :
    (exec s ops).mark l = .untracked ∧ (exec s ops).view l = s.view l ∧
      (exec s ops).media l = s.media l := by
  induction ops generalizing s with
  | nil => exact ⟨hmark, rfl, rfl⟩
  | cons op ops ih =>
    obtain ⟨⟨hstore, hsnapshot, hallocate⟩, hops⟩ := List.forall_mem_cons.mp h
    have hstep : (step s op).mark l = .untracked ∧ (step s op).view l = s.view l ∧
        (step s op).media l = s.media l := by
      cases op with
      | store l' v =>
        have hl : l ≠ l' := by
          rintro rfl
          exact hstore v rfl
        exact ⟨hmark, Function.update_of_ne hl _ _, Function.update_of_ne hl _ _⟩
      | snapshot l' =>
        have hl : l ≠ l' := fun hl => hsnapshot (by rw [hl])
        simp only [step]
        split
        · exact ⟨by simpa [Function.update_of_ne hl] using hmark, rfl, rfl⟩
        · exact ⟨hmark, rfl, rfl⟩
      | allocate l' =>
        have hl : l ≠ l' := fun hl => hallocate (by rw [hl])
        exact ⟨by simpa [step, Function.update_of_ne hl] using hmark, rfl, rfl⟩
      | commit => exact ⟨rfl, rfl, by simp [step, hmark]⟩
    obtain ⟨hmark', hview, hmedia⟩ := hstep
    obtain ⟨hmark'', hview', hmedia'⟩ := ih hops hmark'
    exact ⟨hmark'', hview'.trans hview, hmedia'.trans hmedia⟩

/-- **A transaction that is stopped** leaves what is in use as it was. -/
theorem Quiet.stopped (h : Quiet uses s) (hreg : ∀ l ∈ uses, Registers l ops)
    (hfresh : ∀ l ∈ uses, .allocate l ∉ ops) (hbefore : before <+: ops)
    (hstop : Stopped (exec s before) s') :
    Quiet uses s' ∧ ∀ l ∈ uses, s'.view l = s.view l := by
  have hkeeps : ∀ l ∈ uses, Keeps l (s.view l) (exec s before) := by
    intro l hl
    exact (h.keeps hl).exec ((hreg l hl).of_isPrefix hbefore) fun hmem =>
      hfresh l hl (hbefore.subset hmem)
  refine ⟨⟨hstop.mark, fun l hl => ?_⟩, fun l hl => ((hkeeps l hl).stopped hstop).1⟩
  obtain ⟨hview, hmedia⟩ := (hkeeps l hl).stopped hstop
  rw [hmedia, hview]

/-- What the transaction has allocated is tracked until the commit. -/
theorem mark_exec_of_allocate (hmem : .allocate l ∈ ops) (hcommit : .commit ∉ ops) :
    (exec s ops).mark l ≠ .untracked := by
  obtain ⟨pre, post, rfl⟩ := List.append_of_mem hmem
  rw [exec_append, exec_cons]
  refine mark_exec_ne ?_ fun hc => hcommit (List.mem_append_right _ (List.mem_cons_of_mem _ hc))
  simp [step]

/-- The commit makes what is settled durable. -/
theorem Settles.media_commit (h : Settles l s) : (step s .commit).media l = {s.view l} := by
  simp only [step]
  cases hmark : s.mark l with
  | untracked => exact h.resolve_left fun hn => hn hmark
  | snapshot v => rfl
  | allocated => rfl

/-- **A transaction that commits** makes durable what was in use and what it has allocated. -/
theorem Quiet.commit (h : Quiet uses s) (hreg : ∀ l, Registers l ops)
    (hgrows : ∀ l ∈ uses', l ∈ uses ∨ .allocate l ∈ ops) :
    Quiet uses' (exec s (ops ++ [Op.commit])) := by
  rw [exec_append]
  refine ⟨mark_step_commit _, fun l hl => Settles.media_commit ?_⟩
  rcases hgrows l hl with hl | hmem
  · exact Settles.exec (.inr (h.media l hl)) (hreg l)
  · exact .inl (mark_exec_of_allocate hmem (hreg l).commit_not_mem)

/-- What the program sees depends on what it saw only. -/
theorem view_exec_congr {t : State V} (h : s.view = t.view) (ops : List (Op V)) :
    (exec s ops).view = (exec t ops).view := by
  induction ops generalizing s t with
  | nil => exact h
  | cons op ops ih =>
    refine ih ?_
    cases op with
    | store l v => rw [view_step_store, view_step_store, h]
    | snapshot l => rw [view_step_snapshot, view_step_snapshot, h]
    | allocate l => exact h
    | commit => exact h

end Transaction

/-! ## Runs -/

section Runs

variable [DecidableEq L] {A X ε : Type*}

/-- The runs of a program from `s₀`, with the actions that were completed. On the action `a` a
program that sees `m` runs the transaction `tx m a`, if any. -/
inductive DurableRun (tx : (∀ l, V l) → A → Option (List (Op V))) (s₀ : State V) :
    List A → State V → Prop where
  | start : DurableRun tx s₀ [] s₀
  /-- An action without a transaction. -/
  | reads {done : List A} {s : State V} {a : A} : DurableRun tx s₀ done s →
      tx s.view a = none → DurableRun tx s₀ (done ++ [a]) s
  | commits {done : List A} {s : State V} {a : A} {ops : List (Op V)} : DurableRun tx s₀ done s →
      tx s.view a = some ops → DurableRun tx s₀ (done ++ [a]) (exec s (ops ++ [Op.commit]))
  /-- A stop within a transaction. -/
  | stopped {done : List A} {s s' : State V} {a : A} {ops before : List (Op V)} :
      DurableRun tx s₀ done s → tx s.view a = some ops → before <+: ops →
      Stopped (exec s before) s' → DurableRun tx s₀ done s'
  /-- A stop between two actions. -/
  | idle {done : List A} {s s' : State V} : DurableRun tx s₀ done s → Stopped s s' →
      DurableRun tx s₀ done s'

/-- The memory holds data `x`, for which the locations `uses x` are in use, and the transaction of
the action `a` turns it into `next x a`. -/
structure Transacts (tx : (∀ l, V l) → A → Option (List (Op V))) (holds : X → (∀ l, V l) → Prop)
    (uses : X → Set L) (next : X → A → Except ε X) : Prop where
  frame : ∀ {x m m'}, holds x m → (∀ l ∈ uses x, m' l = m l) → holds x m'
  reads : ∀ {x m a}, holds x m → tx m a = none → next x a = .ok x
  registers : ∀ {x m a ops}, holds x m → tx m a = some ops → ∀ l, Registers l ops
  /-- What is allocated was not in use. -/
  fresh : ∀ {x m a ops}, holds x m → tx m a = some ops → ∀ l ∈ uses x, .allocate l ∉ ops
  commits : ∀ {x m a ops}, holds x m → tx m a = some ops → ∃ x', next x a = .ok x' ∧
    holds x' (exec (durable m) ops).view ∧ ∀ l ∈ uses x', l ∈ uses x ∨ .allocate l ∈ ops

variable {tx : (∀ l, V l) → A → Option (List (Op V))} {holds : X → (∀ l, V l) → Prop}
  {uses : X → Set L} {next : X → A → Except ε X}

/-- **Whatever stops a run, the memory holds what the completed actions alone lead to.** -/
theorem Transacts.durableRun (h : Transacts tx holds uses next) {x₀ : X} {m₀ : ∀ l, V l}
    (hx₀ : holds x₀ m₀) {done : List A} {s : State V} (hrun : DurableRun tx (durable m₀) done s) :
    ∃ x, run next x₀ done = .ok x ∧ holds x s.view ∧ Quiet (uses x) s := by
  induction hrun with
  | start => exact ⟨x₀, rfl, hx₀, quiet_durable _ m₀⟩
  | reads _ htx ih =>
    obtain ⟨x, hx, hholds, hquiet⟩ := ih
    exact ⟨x, run_append_ok.mpr ⟨x, hx, run_singleton.mpr (h.reads hholds htx)⟩, hholds, hquiet⟩
  | @commits done s a ops _ htx ih =>
    obtain ⟨x, hx, hholds, hquiet⟩ := ih
    obtain ⟨x', hnext, hholds', hgrows⟩ := h.commits hholds htx
    refine ⟨x', run_append_ok.mpr ⟨x, hx, run_singleton.mpr hnext⟩, ?_,
      hquiet.commit (h.registers hholds htx) hgrows⟩
    have hview : (exec s (ops ++ [Op.commit])).view = (exec (durable s.view) ops).view := by
      rw [exec_append, exec_cons, exec_nil, view_step_commit]
      exact view_exec_congr (s := s) (t := durable s.view) rfl ops
    rwa [hview]
  | stopped _ htx hbefore hstop ih =>
    obtain ⟨x, hx, hholds, hquiet⟩ := ih
    obtain ⟨hquiet', hview⟩ := hquiet.stopped (fun l _ => h.registers hholds htx l)
      (h.fresh hholds htx) hbefore hstop
    exact ⟨x, hx, h.frame hholds hview, hquiet'⟩
  | idle _ hstop ih =>
    obtain ⟨x, hx, hholds, hquiet⟩ := ih
    have hreg : ∀ l ∈ uses x, Registers l ([] : List (Op V)) := fun _ _ => .nil
    obtain ⟨hquiet', hview⟩ := hquiet.stopped hreg (by simp) List.prefix_rfl hstop
    exact ⟨x, hx, h.frame hholds hview, hquiet'⟩

/-! ## Batches -/

/-- The transactions of several actions, one after the other and within one transaction. -/
def batchOps (tx : (∀ l, V l) → A → Option (List (Op V))) (m : ∀ l, V l) : List A → List (Op V)
  | [] => []
  | a :: as =>
    let ops := (tx m a).getD []
    ops ++ batchOps tx (exec (durable m) ops).view as

/-- What a program sees behind several operations. -/
theorem view_exec_append (m : ∀ l, V l) (ops ops' : List (Op V)) :
    (exec (durable m) (ops ++ ops')).view
      = (exec (durable (exec (durable m) ops).view) ops').view := by
  rw [exec_append]
  exact view_exec_congr (s := exec (durable m) ops) (t := durable (exec (durable m) ops).view)
    rfl ops'

/-- One action, with a transaction or without. -/
theorem Transacts.action (h : Transacts tx holds uses next) {x : X} {m : ∀ l, V l}
    (hx : holds x m) (a : A) :
    let ops := (tx m a).getD []
    (∀ l, Registers l ops) ∧ (∀ l ∈ uses x, .allocate l ∉ ops) ∧ ∃ x', next x a = .ok x' ∧
      holds x' (exec (durable m) ops).view ∧ ∀ l ∈ uses x', l ∈ uses x ∨ .allocate l ∈ ops := by
  cases htx : tx m a with
  | none =>
    refine ⟨fun _ => .nil, fun _ _ => by simp, x, h.reads hx htx, ?_, fun l hl => .inl hl⟩
    exact hx
  | some ops => exact ⟨h.registers hx htx, h.fresh hx htx, h.commits hx htx⟩

/-- **Batches.** What single transactions do, several of them do within one. -/
theorem Transacts.batch (h : Transacts tx holds uses next)
    (hmono : ∀ {x a x'}, next x a = .ok x' → uses x ⊆ uses x') :
    Transacts (fun m as => some (batchOps tx m as)) holds uses (run next) := by
  have hall : ∀ (as : List A) {x : X} {m : ∀ l, V l}, holds x m →
      (∀ l, Registers l (batchOps tx m as)) ∧ (∀ l ∈ uses x, .allocate l ∉ batchOps tx m as) ∧
      ∃ x', run next x as = .ok x' ∧ holds x' (exec (durable m) (batchOps tx m as)).view ∧
        ∀ l ∈ uses x', l ∈ uses x ∨ .allocate l ∈ batchOps tx m as := by
    intro as
    induction as with
    | nil =>
      intro x m hx
      exact ⟨fun _ => .nil, fun _ _ => List.not_mem_nil, x, rfl, hx, fun l hl => .inl hl⟩
    | cons a as ih =>
      intro x m hx
      obtain ⟨hreg, hfresh, x₁, hnext, hx₁, hgrows⟩ := h.action hx a
      obtain ⟨hreg', hfresh', x₂, hrun, hx₂, hgrows'⟩ := ih hx₁
      refine ⟨fun l => (hreg l).append (hreg' l), fun l hl hmem => ?_, x₂,
        run_cons_ok.mpr ⟨x₁, hnext, hrun⟩, ?_, fun l hl => ?_⟩
      · rcases List.mem_append.mp hmem with hmem | hmem
        · exact hfresh l hl hmem
        · exact hfresh' l (hmono hnext hl) hmem
      · rw [batchOps, view_exec_append]
        exact hx₂
      · rcases hgrows' l hl with hl | hmem
        · exact (hgrows l hl).imp_right (List.mem_append_left _)
        · exact .inr (List.mem_append_right _ hmem)
  refine ⟨h.frame, nofun, fun hx htx => ?_, fun hx htx => ?_, fun hx htx => ?_⟩
  all_goals cases htx
  · exact (hall _ hx).1
  · exact (hall _ hx).2.1
  · exact (hall _ hx).2.2

end Runs

end TxMemory
