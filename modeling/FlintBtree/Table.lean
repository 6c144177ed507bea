import FlintBtree.Base

/-!
# The table

`FlintTable` as a state record: the files it works on, the fields of the C++ object that the
B-tree code reads and writes, and its built-in cursor.  Every member function becomes a
computation in `M`, a state monad with exceptions in which, as with C++ exceptions, a thrown
error leaves behind whatever the function had changed before it threw.

## Main Definitions

* `Files` — the data file `DB` (block number to block) and the files `baseA`, `baseB` and `tmp`.
* `Cursor` — one level `C[j]` of a cursor: buffer `p`, slot `c`, block number `n`, `rewrite`.
* `Table` — the `FlintTable` fields, the built-in cursor `C`, a `FlintCursor`'s own cursor
  `userC`, and two records kept for the specification only: every call of `write_block` with the
  values it was made with, and the file system after every change to it (the points at which the
  process may stop).
* `readBlock`, `writeBlock`, `setOverwritten`, `blockToCursor`, `readRoot`, `alter`, `find` —
  the functions of `flint_table.cc` under their own names.

## Design Notes

`block_to_cursor`, `find` and the traversals take a cursor `C_` that may or may not be the
built-in cursor `C`; `CursorRef` names which, so that a write through `C_` is visible through
`C` exactly when they are the same array.  A buffer that `delete_item` or `close` deleted is
`none`; using one is the error `nullBuffer`, where the process would dereference a null or freed
pointer.  Block I/O is one `pread`/`pwrite` of the whole block, as the retry loops of
`read_block` and `write_block` make it, and the model takes every `pread` and `pwrite` to succeed:
the I/O faults the code turns into `DatabaseError` ("Error reading block", "Error writing block")
are not modelled, so what is proved about a write holds of a run on which the disk did not fail.
Reading a block that was never written is the "got end of file" error.  `io_unlink` always removes the file: the code ignores what it returns.
`BLK_UNUSED` is kept apart from block numbers, as `Cursor.n = none`, as the spec's note on sentinels
suggests (§9): the code compares a block number with a level's `n` to ask whether the level holds
that block, and a real block would meet the sentinel only in a data file of `2 ^ 32 - 1` blocks.
Where the code passes `C[j].n` on as a number, `Cursor.block` gives the sentinel back.
-/

namespace FlintBtree

/-- `BLK_UNUSED`: the all-ones block number of an unused cursor level (spec §9). -/
def blkUnused : Nat := 2 ^ 32 - 1

/-- `BTREE_CURSOR_LEVELS`: the cursor's length, which bounds the tree's height (spec §4.2). -/
def btreeCursorLevels : Nat := 10

/-- `SEQ_START_POINT`: the `seq_count` of a table not in sequential mode. -/
def seqStartPoint : Int := -10

/-- The files of a table: the block file `DB` and the base files. -/
structure Files where
  db : Nat → Option Block
  baseA : Option BaseFile
  baseB : Option BaseFile
  tmp : Option BaseFile

/-- The base file of a letter. -/
def Files.base (f : Files) : Letter → Option BaseFile
  | .A => f.baseA
  | .B => f.baseB

/-- The files with the base file of a letter replaced. -/
def Files.setBase (f : Files) : Letter → Option BaseFile → Files
  | .A, b => { f with baseA := b }
  | .B, b => { f with baseB := b }

/-- One level of a cursor; `n = none` is `BLK_UNUSED`. -/
structure Cursor where
  p : Option Block
  c : Int
  n : Option Nat
  rewrite : Bool

/-- Modelled from the spec: a fresh cursor level, with no buffer and no block (§4.2). -/
def Cursor.init : Cursor := ⟨none, -1, none, false⟩

/-- `C[j].n` as a number, as the code passes it on: `BLK_UNUSED` for no block. -/
def Cursor.block (x : Cursor) : Nat := x.n.getD blkUnused

/-- Which cursor array a call works on: the table's own `C` or a `FlintCursor`'s. -/
inductive CursorRef
  | builtIn
  | user
deriving DecidableEq

/-- The state of a file descriptor: open, not open (`-1`), or closed for good (`-2`). -/
inductive Handle
  | opened
  | unopened
  | closed
deriving DecidableEq

/-- `compress_strategy`: `DONT_COMPRESS`, or a zlib strategy. -/
inductive CompressStrategy
  | dontCompress
  | zlib (strategy : Nat)
deriving DecidableEq

/-- What a call of `write_block(n, p)` was made with: the block number, `REVISION(p)`,
`latest_revision_number`, and whether `n` was free at the start of the transaction. -/
structure WriteCall where
  n : Nat
  revision : Nat
  latest : Nat
  freeAtStart : Bool

/-- The exceptions the table raises, with their messages. -/
inductive Error
  | databaseError (msg : String)
  | databaseCorruptError (msg : String)
  | databaseModifiedError (msg : String)
  | databaseOpeningError (msg : String)
  | unimplementedError (msg : String)
  | invalidArgumentError (msg : String)
  | badAlloc
  /-- The process dereferences a buffer the table has deleted. -/
  | nullBuffer
deriving DecidableEq

/-- The fields of `FlintTable` the B-tree code uses, with its files. -/
structure Table where
  files : Files
  revisionNumber : Nat
  itemCount : Nat
  blockSize : Nat
  latestRevisionNumber : Nat
  bothBases : Bool
  baseLetter : Letter
  fakedRootBlock : Bool
  sequential : Bool
  handle : Handle
  level : Nat
  root : Nat
  kt : Item
  base : Base
  seqCount : Int
  changedN : Nat
  changedC : Int
  maxItemSize : Nat
  btreeModified : Bool
  fullCompaction : Bool
  writable : Bool
  C : Nat → Cursor
  userC : Nat → Cursor
  compressStrategy : CompressStrategy
  /-- Every call of `write_block`, latest first. -/
  writes : List WriteCall
  /-- The files after every change to them, latest first. -/
  crashPoints : List Files

/-- The constructor `FlintTable(tablename, path, readonly, compress_strategy, lazy)`. -/
def Table.new (files : Files) (readonly : Bool) (strategy : CompressStrategy) : Table where
  files := files
  revisionNumber := 0
  itemCount := 0
  blockSize := 0
  latestRevisionNumber := 0
  bothBases := false
  baseLetter := .A
  fakedRootBlock := true
  sequential := true
  handle := .unopened
  level := 0
  root := 0
  kt := ⟨none, .chunk 0 false []⟩
  base := .empty
  seqCount := 0
  changedN := 0
  changedC := 0
  maxItemSize := 0
  btreeModified := false
  fullCompaction := false
  writable := !readonly
  C := fun _ => .init
  userC := fun _ => .init
  compressStrategy := strategy
  writes := []
  crashPoints := []

/-- The cursor array a `CursorRef` names. -/
def Table.cur (t : Table) : CursorRef → Nat → Cursor
  | .builtIn => t.C
  | .user => t.userC

/-- The table with level `j` of a cursor array changed by `f`. -/
def Table.modifyCur (t : Table) (r : CursorRef) (j : Nat) (f : Cursor → Cursor) : Table :=
  match r with
  | .builtIn => { t with C := Function.update t.C j (f (t.C j)) }
  | .user => { t with userC := Function.update t.userC j (f (t.userC j)) }

@[simp] theorem Table.cur_modifyCur (t : Table) (r : CursorRef) (j : Nat) (f : Cursor → Cursor) :
    (t.modifyCur r j f).cur r = Function.update (t.cur r) j (f (t.cur r j)) := by
  cases r <;> rfl

@[simp] theorem Table.modifyCur_level (t : Table) (r : CursorRef) (j : Nat) (f : Cursor → Cursor) :
    (t.modifyCur r j f).level = t.level := by
  cases r <;> rfl

@[simp] theorem Table.modifyCur_writable (t : Table) (r : CursorRef) (j : Nat) (f : Cursor → Cursor) :
    (t.modifyCur r j f).writable = t.writable := by
  cases r <;> rfl

@[simp] theorem Table.modifyCur_files (t : Table) (r : CursorRef) (j : Nat) (f : Cursor → Cursor) :
    (t.modifyCur r j f).files = t.files := by
  cases r <;> rfl

/-- The table computations: state with exceptions that keep the state reached. -/
abbrev M := EStateM Error Table

/-! ## State helpers -/

/-- Change level `j` of a cursor array. -/
def modifyCur (r : CursorRef) (j : Nat) (f : Cursor → Cursor) : M Unit :=
  modify fun t => t.modifyCur r j f

/-- The buffer of level `j` of a cursor array. -/
def bufferOf (r : CursorRef) (j : Nat) : M Block := do
  match ((← get).cur r j).p with
  | some b => pure b
  | none => throw .nullBuffer

/-- Change the files, recording the new files as a point where the process may stop. -/
def setFiles (f : Files → Files) : M Unit :=
  modify fun t => { t with files := f t.files, crashPoints := f t.files :: t.crashPoints }

/-- `base.next_free_block()`. -/
def nextFreeBlock : M Nat :=
  modifyGet fun t => (t.base.nextFreeBlock.1, { t with base := t.base.nextFreeBlock.2 })

/-- `base.free_block(n)`. -/
def freeBlock (n : Nat) : M Unit :=
  modify fun t => { t with base := t.base.freeBlock n }

/-! ## Block I/O -/

/-- `read_block(n, p)`: block `n` of the data file, read without an I/O fault. -/
def readBlock (n : Nat) : M Block := do
  match (← get).files.db n with
  | some b => pure b
  | none => throw (.databaseError ("Error reading block " ++ toString n ++ ": got end of file"))

/-- `write_block(n, p)`, whose `pwrite` is taken to succeed.  On the first write of a table whose two bases both exist, the older
base is deleted first, so that it cannot later be opened over blocks that no longer hold it. -/
def writeBlock (n : Nat) (p : Block) : M Unit := do
  let t ← get
  set { t with writes := ⟨n, p.revision, t.latestRevisionNumber, t.base.blockFreeAtStart n⟩ ::
    t.writes }
  if t.bothBases then
    setFiles fun f => f.setBase t.baseLetter.other none
    modify fun t => { t with bothBases := false, latestRevisionNumber := t.revisionNumber }
  setFiles fun f => { f with db := Function.update f.db n (some p) }

/-- `set_overwritten()`: a block newer than its parent was met. -/
def setOverwritten : M Unit := do
  if (← get).writable then
    throw (.databaseCorruptError "Db block overwritten - are there multiple writers?")
  throw (.databaseModifiedError ("The revision being read has been discarded - " ++
    "you should call Xapian::Database::reopen() and retry the operation"))

/-! ## Cursors -/

/-- `block_to_cursor(C_, j, n)`: put block `n` at level `j` of `C_`, writing back the block it
replaces if that one was modified.  The built-in cursor's copy of `n` stands in for the disk's
in a writable table.  A block newer than its parent in `C_` raises `set_overwritten`. -/
def blockToCursor (r : CursorRef) (j n : Nat) : M Unit := do
  let cj := (← get).cur r j
  if some n = cj.n then return
  if cj.rewrite then
    writeBlock cj.block (← bufferOf r j)
    modifyCur r j fun x => { x with rewrite := false }
  let t ← get
  let p ← if t.writable ∧ some n = (t.C j).n then bufferOf .builtIn j
    else do
      if cj.p.isNone then
        throw (.databaseError ("Error reading block " ++ toString n ++ ": Bad address"))
      readBlock n
  modifyCur r j fun x => { x with p := some p, n := some n }
  let t ← get
  if j < t.level then
    if (← bufferOf r (j + 1)).revision < p.revision then setOverwritten

/-- `read_root()`: the root into the top level of the built-in cursor, or a faked empty leaf root
when the base says the table has none yet. -/
def readRoot : M Unit := do
  let t ← get
  if t.fakedRootBlock then
    let _ ← bufferOf .builtIn 0
    if !t.writable then
      modifyCur .builtIn 0 fun x => { x with p := some (fakeRoot t.blockSize 0), n := some 0 }
    else
      let n ← nextFreeBlock
      modifyCur .builtIn 0 fun x =>
        { x with p := some (fakeRoot t.blockSize (uint4 (t.latestRevisionNumber + 1))), n := some n }
  else
    blockToCursor .builtIn t.level t.root
    let t ← get
    if t.revisionNumber < (← bufferOf .builtIn t.level).revision then setOverwritten

/-- The loop of `alter()` from level `j`, with a bound on the levels left. -/
def alterLoop : Nat → Nat → M Unit
  | 0, _ => pure ()
  | fuel + 1, j => do
    let t ← get
    let cj := t.C j
    if cj.rewrite then return
    modifyCur .builtIn j fun x => { x with rewrite := true }
    if t.base.blockFreeAtStart cj.block then return
    freeBlock cj.block
    let n ← nextFreeBlock
    let p ← bufferOf .builtIn j
    modifyCur .builtIn j fun x =>
      { x with n := some n, p := some { p with revision := uint4 (t.latestRevisionNumber + 1) } }
    if j = t.level then return
    let q ← bufferOf .builtIn (j + 1)
    let c := (t.C (j + 1)).c
    modifyCur .builtIn (j + 1) fun x =>
      { x with p := some (q.setSlot c ((q.dir.getD (slotIndex c) (0, default)).1,
        (q.itemAt c).setBlockGivenBy n)) }
    alterLoop fuel (j + 1)

/-- `alter()`: make every block on the built-in cursor's path writable in place, giving a new
number to each block that is not free at the start of the transaction and repointing its parent
at it.  It stops at the first level already marked for rewriting or free at the start. -/
def alter : M Unit := do
  alterLoop ((← get).level + 1) 0

/-- The descent of `find(C_)` from level `j` down to level 1. -/
def findLoop (r : CursorRef) (key : Key) : Nat → M Unit
  | 0 => pure ()
  | j + 1 => do
    let p ← bufferOf r (j + 1)
    let c := findInBlock p key false ((← get).cur r (j + 1)).c
    modifyCur r (j + 1) fun x => { x with c := c }
    blockToCursor r j (p.itemAt c).blockGivenBy
    findLoop r key j

/-- `find(C_)`: descend to the leaf slot of the last key `≤` the key in `kt`; true when that
key is the one sought. -/
def find (r : CursorRef) : M Bool := do
  let t ← get
  let key := t.kt.keyOf
  findLoop r key t.level
  let p ← bufferOf r 0
  let c := findInBlock p key true ((← get).cur r 0).c
  modifyCur r 0 fun x => { x with c := c }
  if c < dirStart then return false
  return (p.itemAt c).keyOf.eq key

end FlintBtree
