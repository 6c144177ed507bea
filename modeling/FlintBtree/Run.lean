import FlintBtree.Api
import FlintBtree.Logic

/-!
# Runs of a table

A run is a sequence of calls of the table's interface on one `FlintTable` object.  `Op` names the
calls and `Op.call` makes each one; `run` makes them in order and stops at the first that throws,
so `run env ops t = .ok () t'` says that every call returned and left `t'`.  Two tables on the same
files, a reader and a writer, make an interleaving of calls (`Shared.run`), each call seeing the
files as the calls before it left them.

## Design Notes

The values the calls return are dropped here: a statement about them calls the function itself
after a run.
-/

namespace FlintBtree

/-- A call of the table's interface. -/
inductive Op
  | add (key tag : List UInt8) (alreadyCompressed : Bool)
  | del (key : List UInt8)
  | getExactEntry (key : List UInt8)
  | keyExists (key : List UInt8)
  | flushDb
  | commit (revision : Nat) (fault : Option CommitFault)
  | cancel
  | «open»
  | openAt (revision : Nat)
  | createAndOpen (blockSize : Nat)
  | close

variable (env : Env)

/-- Make the call. -/
def Op.call : Op → M Unit
  | .add key tag alreadyCompressed => FlintBtree.add env key tag alreadyCompressed
  | .del key => do let _ ← FlintBtree.del key
  | .getExactEntry key => do let _ ← FlintBtree.getExactEntry env key
  | .keyExists key => do let _ ← FlintBtree.keyExists key
  | .flushDb => FlintBtree.flushDb
  | .commit revision fault => FlintBtree.commit revision fault
  | .cancel => FlintBtree.cancel
  | .open => FlintBtree.open env
  | .openAt revision => do let _ ← FlintBtree.openAt env revision
  | .createAndOpen blockSize => FlintBtree.createAndOpen env blockSize
  | .close => FlintBtree.close

/-- The calls that change a table within a transaction: `add`, `del` and `flush_db`. -/
def Op.isUpdate : Op → Bool
  | .add .. | .del _ | .flushDb => true
  | _ => false

/-- Make the calls in order, up to the first that throws. -/
def run : List Op → M Unit
  | [] => pure ()
  | op :: ops => do op.call env; run ops

theorem run_nil (t : Table) : run env [] t = .ok () t := rfl

theorem run_cons_ok {op : Op} {ops : List Op} {t t' : Table} (h : op.call env t = .ok () t') :
    run env (op :: ops) t = run env ops t' := by
  simp only [run, bind, EStateM.bind, h]

theorem run_append (ops ops' : List Op) :
    run env (ops ++ ops') = (do run env ops; run env ops') := by
  induction ops with
  | nil => simp [run]
  | cons op ops ih => simp [run, ih]

/-! ## A reader and a writer on the same files -/

/-- A reader and a writer working on one set of files, as two processes on one database do. -/
structure Shared where
  reader : Table
  writer : Table

/-- Which of the two tables makes a call. -/
inductive Party
  | reader
  | writer

/-- One call by one of the tables, on the files as the calls before it left them; `none` when the
call throws. -/
def Shared.step (env : Env) (s : Shared) : Party × Op → Option Shared
  | (.reader, op) =>
    match op.call env s.reader with
    | .ok () r => some ⟨r, { s.writer with files := r.files }⟩
    | .error _ _ => none
  | (.writer, op) =>
    match op.call env s.writer with
    | .ok () w => some ⟨{ s.reader with files := w.files }, w⟩
    | .error _ _ => none

/-- An interleaving of the two tables' calls, up to the first that throws. -/
def Shared.run (env : Env) : List (Party × Op) → Shared → Option Shared
  | [], s => some s
  | c :: cs, s => (s.step env c).bind (Shared.run env cs)

theorem Shared.run_cons {env : Env} {c : Party × Op} {cs : List (Party × Op)} {s u : Shared}
    (h : s.step env c = some u) : Shared.run env (c :: cs) s = Shared.run env cs u := by
  simp only [Shared.run, h, Option.some_bind]

/-- The pair after `party` made `op`, whether or not the call returned. -/
def Shared.after (env : Env) (s : Shared) : Party × Op → Shared
  | (.reader, op) =>
    let r := FlintBtree.after (op.call env s.reader)
    ⟨r, { s.writer with files := r.files }⟩
  | (.writer, op) =>
    let w := FlintBtree.after (op.call env s.writer)
    ⟨{ s.reader with files := w.files }, w⟩

theorem Shared.step_of_returned {env : Env} {s : Shared} (party : Party) {op : Op}
    (h : returned (op.call env (match party with | .reader => s.reader | .writer => s.writer)) =
      true) :
    s.step env (party, op) = some (s.after env (party, op)) := by
  cases party <;> simp only [Shared.step, Shared.after] <;> rw [eq_ok_of_returned h] <;> rfl

/-! ## Sample runs -/

/-- Files with nothing in them. -/
def emptyFiles : Files := ⟨fun _ => none, none, none, none⟩

/-- The environment the sample runs use: `max_item_size` as `set_max_item_size(BLOCK_CAPACITY)`
sets it (a quarter of the space after the header and four directory entries), the default block
size 8192, and no compression (the runs use `DONT_COMPRESS`). -/
def sampleEnv : Env where
  maxItemSizeFor b := (b - dirStart - 4 * D2) / 4
  defaultBlockSize := 8192
  deflate _ _ _ := none
  inflate := .ok

/-- A table just created with block size 2048. -/
def createdSample : Table :=
  after (createAndOpen sampleEnv 2048 (Table.new emptyFiles false .dontCompress))

end FlintBtree
