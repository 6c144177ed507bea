import FlintBtree.Mutate
import FlintBtree.Navigate

/-!
# The table's public operations

`add`, `del`, `get_exact_entry`, `key_exists`, `flush_db`, `commit`, `cancel`, and opening and
closing, as `flint_table.cc` writes them.

## Design Notes

Three things the table calls are not in `flint_table.cc` and come in through `Env`: the value
`set_max_item_size (BLOCK_CAPACITY)` gives `max_item_size` for a block size and
`FLINT_DEFAULT_BLOCK_SIZE` (both in `flint_table.h`), and zlib's raw `deflate` and `inflate`.
The I/O steps of `commit` that can fail — the `fsync` of the data file, writing the new base to
the temporary file, renaming it into place — fail where a `CommitFault` says; a rename that reports
failure after the file was in fact renamed (the NFS case the code allows for) is `renameLost`.
`size_t` arithmetic is `sizeT`, the value modulo `2 ^ 64`.
-/

namespace FlintBtree

/-- What the table calls that `flint_table.cc` does not define. -/
structure Env where
  /-- `max_item_size` as `set_max_item_size (BLOCK_CAPACITY)` sets it for a block size. -/
  maxItemSizeFor : Nat → Nat
  /-- `FLINT_DEFAULT_BLOCK_SIZE`. -/
  defaultBlockSize : Nat
  /-- zlib's raw `deflate` with a strategy: the compressed bytes when they fit in the given
  number of bytes (`Z_STREAM_END`), else `none`. -/
  deflate : Nat → List UInt8 → Nat → Option (List UInt8)
  /-- zlib's raw `inflate`: the bytes, or zlib's message. -/
  inflate : List UInt8 → Except String (List UInt8)

/-- Where an I/O step of `commit` fails. -/
inductive CommitFault
  /-- `io_sync` of the data file fails. -/
  | fsyncFails
  /-- Writing the new base to the temporary file fails. -/
  | baseWriteFails
  /-- `rename` fails and the temporary file is still there. -/
  | renameFails
  /-- `rename` reports failure but the file was renamed. -/
  | renameLost
deriving DecidableEq

/-- `COMPRESS_MIN`: only tags longer than this are compressed. -/
def compressMin : Nat := 4

/-- `BYTE_PAIR_RANGE`: the smallest count that does not fit in two bytes. -/
def bytePairRange : Nat := 2 ^ 16

/-- `size_t` arithmetic. -/
def sizeT (x : Int) : Nat := (x % 2 ^ 64).toNat

/-- The conversion of a value to `int`: its low 32 bits, read as two's complement. -/
def int32 (x : Int) : Int := x.bmod (2 ^ 32)

/-- What a two-byte field keeps of an `int`: its low 16 bits. -/
def int2 (x : Int) : Nat := (x % 2 ^ 16).toNat

variable (env : Env)

/-- `throw_database_closed()`. -/
def throwDatabaseClosed : M Unit := throw (.databaseError "Database has been closed")

/-- `close(permanent)`: close the data file; unless `permanent`, delete the cursor's buffers. -/
def close (permanent : Bool := false) : M Unit := do
  modify fun t => { t with handle := if t.handle = .opened then .unopened else t.handle }
  if permanent then
    modify fun t => { t with handle := .closed }
    return
  modify fun t => { t with C := fun j => if j ≤ t.level then { t.C j with p := none } else t.C j }

/-- `set_block_size(n)`: a power of two in `[2048, 65536]`, or the default. -/
def setBlockSize (n : Nat) : M Unit :=
  modify fun t => { t with blockSize :=
    if n < 2048 ∨ 65536 < n ∨ n &&& (n - 1) ≠ 0 then env.defaultBlockSize else n }

/-- `set_full_compaction(parity)`. -/
def setFullCompaction (parity : Bool) : M Unit :=
  modify fun t => { t with seqCount := if parity then 0 else t.seqCount, fullCompaction := parity }

/-- `basic_open(revision_supplied, revision)`: choose a base — the one with the requested
revision, or else the valid one with the highest revision — and load the table's fields from it.
`latest_revision_number` becomes the higher of the two bases' revisions. -/
def basicOpen (revisionSupplied : Bool) (revision : Nat) : M Bool := do
  let t ← get
  modify fun t => { t with bothBases := t.files.baseA.isSome && t.files.baseB.isSome }
  if t.files.baseA.isNone ∧ t.files.baseB.isNone then
    if t.handle = .opened then modify fun t => { t with handle := .unopened }
    throw (.databaseOpeningError "Error opening table")
  let pick : Option Letter :=
    if revisionSupplied then
      if (t.files.baseA.map (·.revision)) = some revision then some .A
      else if (t.files.baseB.map (·.revision)) = some revision then some .B else none
    else
      match t.files.baseA, t.files.baseB with
      | some a, some b => if a.revision ≤ b.revision then some .B else some .A
      | some _, none => some .A
      | _, _ => some .B
  match pick with
  | none => return false
  | some ch =>
    match t.files.base ch with
    | none => return false
    | some f =>
      let latest := match t.files.base ch.other with
        | some o => max o.revision f.revision
        | none => f.revision
      modify fun t => { t with
        base := Base.ofFile f, revisionNumber := f.revision, blockSize := f.blockSize,
        root := f.root, level := f.level, itemCount := f.itemCount,
        fakedRootBlock := f.haveFakeroot, sequential := f.sequential,
        latestRevisionNumber := latest, kt := ⟨none, .chunk 0 false []⟩,
        maxItemSize := env.maxItemSizeFor f.blockSize, baseLetter := ch }
      return true

/-- The buffers `do_open_to_write` and `do_open_to_read` allocate: level `j ≤ level` gets a new
buffer and no block. -/
def allocateCursor : M Unit :=
  modify fun t => { t with C := fun j =>
    if j ≤ t.level then { t.C j with n := none, p := some default } else t.C j }

/-- `do_open_to_write(revision_supplied, revision, create_db)`. -/
def doOpenToWrite (revisionSupplied : Bool) (revision : Nat) (createDb : Bool) : M Bool := do
  if (← get).handle = .closed then throwDatabaseClosed
  if createDb then setFiles fun f => { f with db := fun _ => none }
  modify fun t => { t with handle := .opened }
  if !(← basicOpen env revisionSupplied revision) then
    modify fun t => { t with handle := .unopened }
    if !revisionSupplied then throw (.databaseOpeningError "Failed to open for writing")
    return false
  modify fun t => { t with writable := true }
  allocateCursor
  readRoot
  modify fun t => { t with changedN := 0, changedC := dirStart, seqCount := seqStartPoint }
  return true

/-- `do_open_to_read(revision_supplied, revision)`. -/
def doOpenToRead (revisionSupplied : Bool) (revision : Nat) : M Bool := do
  if (← get).handle = .closed then throwDatabaseClosed
  modify fun t => { t with handle := .opened }
  if !(← basicOpen env revisionSupplied revision) then
    modify fun t => { t with handle := .unopened }
    if revisionSupplied then return false
    throw (.databaseOpeningError "Failed to open table for reading")
  allocateCursor
  readRoot
  return true

/-- `open()`: the newest revision. -/
def «open» : M Unit := do
  close
  if !(← get).writable then
    let _ ← doOpenToRead env false 0
    return
  let _ ← doOpenToWrite env false 0 false

/-- `open(revision)`: a given revision, if a base holds it. -/
def openAt (revision : Nat) : M Bool := do
  close
  if !(← get).writable then
    if ← doOpenToRead env true revision then return true
    close
    return false
  if !(← doOpenToWrite env true revision false) then
    close
    return false
  return true

/-- `create_and_open(block_size)`: a new base `A` with a faked root, no base `B`, an empty data
file. -/
def createAndOpen (blockSize : Nat) : M Unit := do
  if (← get).handle = .closed then throwDatabaseClosed
  close
  if blockSize = 0 then throw .nullBuffer
  setBlockSize env blockSize
  let t ← get
  setFiles fun f => f.setBase .A (some
    { revision := t.revisionNumber, blockSize := blockSize, root := 0, level := 0, itemCount := 0,
      haveFakeroot := true, sequential := true, lastBlock := 0, bitMap := .empty })
  setFiles fun f => f.setBase .B none
  let _ ← doOpenToWrite env false 0 true

/-- Modelled from the spec: `form_key(key)`; a key over `FLINT_BTREE_MAX_KEY_LEN` bytes is
refused with an "unimplemented" fault (§6, "Constraints"). -/
def formKey (key : List UInt8) : M Unit := do
  if flintBtreeMaxKeyLen < key.length then throw (.unimplementedError "Key too long")
  modify fun t => { t with kt := t.kt.formKey key }

/-- The chunk length `add` gives the first component: `L`, or the free-space residue of the
leaf when filling it does not cost an extra item. -/
def firstChunk (t : Table) (found : Bool) (p : Block) (keyLen tagLen cd l : Nat) : Nat :=
  if found then l
  else
    let n := p.totalFree % (t.maxItemSize + D2)
    if D2 + cd < n then
      let n := n - (D2 + cd)
      if tagLen % l ≤ n ∨ (t.fullCompaction ∧ keyLen + 34 ≤ n) then n else l
    else l

/-- `int m = tag.empty() ? 1 : (tag.length() - first_L + L - 1) / L + 1`: the component count of
a tag of `tagLen` bytes, computed in `size_t` and stored in an `int`. -/
def chunkCount (tagLen firstL l : Nat) : Int :=
  if tagLen = 0 then 1 else int32 (sizeT (sizeT ((tagLen : Int) - firstL + l - 1) / l + 1))

/-- What the loop of `add` hands `set_tag` for components `i .. m`: the counter, the offset `o`
and the length `l` of each.  `l` is `first_L` for the first component, `L` for the middle ones
and the residue for the last; `o += l` goes through `size_t` back to the `int` `o`, and
`residue -= l` is in `size_t`. -/
def chunkSpans (l firstL : Nat) (m : Int) : Nat → Nat → Int → Nat → List (Nat × Int × Nat)
  | 0, _, _, _ => []
  | fuel + 1, i, o, residue =>
    if m < i then []
    else
      let len := if i = m then residue else if i = 1 then firstL else l
      (i, o, len) :: chunkSpans l firstL m fuel (i + 1) (int32 (sizeT (o + len)))
        (sizeT (residue - len))

/-- How `add` cuts a tag: `L`, `first_L`, the component count `m` and the spans of the loop. -/
structure Cut where
  l : Nat
  firstL : Nat
  m : Int
  spans : List (Nat × Int × Nat)

/-- The cut `add` makes of a tag of `tagLen` bytes under a key of `keyLen` bytes, `found` telling
whether the key is there and `p` being the leaf `find` left the cursor on: `cd` is the bytes of an
item before its chunk, and `L = max_item_size - cd` the most any chunk holds. -/
def addCut (t : Table) (found : Bool) (p : Block) (keyLen tagLen : Nat) : Cut :=
  let cd := keyLen + K1 + I2 + C2 + C2
  let l := sizeT ((t.maxItemSize : Int) - cd)
  let firstL := firstChunk t found p keyLen tagLen cd l
  let m := chunkCount tagLen firstL l
  ⟨l, firstL, m, chunkSpans l firstL m m.toNat 1 0 tagLen⟩

/-- The bytes `set_tag(cd, tag.data() + o, l, compressed)` copies: `l` bytes of the tag from
offset `o`.  (A negative offset, which only a tag of `2 ^ 31` bytes reaches, is read from the
start of the tag.) -/
def tagPiece (tag : List UInt8) (o : Int) (len : Nat) : List UInt8 := (tag.drop o.toNat).take len

/-- The loop of `add` over the spans: component `i` takes its piece of the tag and goes in with
`add_kt`, after a `find` for every component but the first.  Returns the component count of the
last item replaced, 0 if the loop made no pass, and whether any item was replaced. -/
def addChunks (tag : List UInt8) (compressed : Bool) :
    List (Nat × Int × Nat) → Nat → Bool → Bool → M (Nat × Bool)
  | [], n, _, replacement => pure (n, replacement)
  | (i, o, len) :: spans, _, found, replacement => do
    modify fun t => { t with kt := (t.kt.setTag (tagPiece tag o len) compressed).setComponentOf i }
    let found ← if 1 < i then find .builtIn else pure found
    let n ← addKt found
    addChunks tag compressed spans n found (replacement || decide (0 < n))

/-- The loop deleting components `i .. n` of a key, `i` an `int`. -/
def deleteComponents : Nat → Int → Nat → M Unit
  | 0, _, _ => pure ()
  | fuel + 1, i, n => do
    if (n : Int) < i then return
    modify fun t => { t with kt := t.kt.setComponentOf (int2 i) }
    let _ ← deleteKt
    deleteComponents fuel (i + 1) n

/-- `add(key, tag, already_compressed)`: store `tag` under `key`, replacing what was there.  A tag
is cut into `m` components that share the key, with counters `1 .. m`; components of an older
value past `m` are deleted. -/
def add (key tag : List UInt8) (alreadyCompressed : Bool) : M Unit := do
  if (← get).handle ≠ .opened then createAndOpen env (← get).blockSize
  formKey key
  let t ← get
  let (tag, compressed) : List UInt8 × Bool :=
    if alreadyCompressed then (tag, true)
    else match t.compressStrategy with
      | .zlib s =>
        if compressMin < tag.length then
          match env.deflate s tag (tag.length - 1) with
          | some out => (out, true)
          | none => (tag, false)
        else (tag, false)
      | .dontCompress => (tag, false)
  let found ← find .builtIn
  let cut := addCut t found (← bufferOf .builtIn 0) key.length tag.length
  if (bytePairRange : Int) ≤ cut.m then throw (.unimplementedError "Can't handle insanely large tags")
  modify fun t => { t with kt := t.kt.setComponentsOf (int2 cut.m) }
  let (n, replacement) ← addChunks tag compressed cut.spans 0 found false
  deleteComponents (n - cut.m).toNat (cut.m + 1) n
  modify fun t => { t with
    itemCount := (if replacement then t.itemCount else t.itemCount + 1), btreeModified := true }

/-- `del(key)`: delete `key` and all its components; false when it is not there. -/
def del (key : List UInt8) : M Bool := do
  let t ← get
  if t.handle ≠ .opened then
    if t.handle = .closed then throwDatabaseClosed
    return false
  if flintBtreeMaxKeyLen < key.length then return false
  if key.isEmpty then return false
  formKey key
  let n ← deleteKt
  if n = 0 then return false
  deleteComponents n 2 n
  modify fun t => { t with itemCount := t.itemCount - 1, btreeModified := true }
  return true

/-- The loop of `read_tag` appending components `i .. n`. -/
def readChunks (r : CursorRef) : Nat → Nat → Nat → List UInt8 → M (List UInt8)
  | 0, _, _, tag => pure tag
  | fuel + 1, i, n, tag => do
    if n < i then return tag
    if !(← next r 0) then
      throw (.databaseCorruptError "Unexpected end of table when reading continuation of tag")
    let tag := tag ++ ((← bufferOf r 0).itemAt ((← get).cur r 0).c).chunk
    readChunks r fuel (i + 1) n tag

/-- `read_tag(C_, tag, keep_compressed)`: join the components from the cursor's item on,
inflating a compressed tag unless asked not to.  Returns the tag and whether it is still
compressed. -/
def readTag (r : CursorRef) (keepCompressed : Bool) : M (List UInt8 × Bool) := do
  let item := (← bufferOf r 0).itemAt ((← get).cur r 0).c
  let n := item.componentsOf
  let tag ← readChunks r n 2 n item.chunk
  let compressed := item.getCompressed
  if !compressed || keepCompressed then return (tag, compressed)
  match env.inflate tag with
  | .ok u => return (u, false)
  | .error msg => throw (.databaseError ("inflate failed (" ++ msg ++ ")"))

/-- `get_exact_entry(key, tag)`: the value stored under `key`, if any. -/
def getExactEntry (key : List UInt8) : M (Option (List UInt8)) := do
  let t ← get
  if t.handle ≠ .opened then
    if t.handle = .closed then throwDatabaseClosed
    return none
  if flintBtreeMaxKeyLen < key.length then return none
  formKey key
  if !(← find .builtIn) then return none
  return some (← readTag env .builtIn false).1

/-- `key_exists(key)`. -/
def keyExists (key : List UInt8) : M Bool := do
  if flintBtreeMaxKeyLen < key.length then return false
  formKey key
  find .builtIn

/-- The loop of `flush_db` from level `j` down to the leaves. -/
def flushFrom : Nat → M Unit
  | 0 => flushLevel 0
  | j + 1 => do flushLevel (j + 1); flushFrom j
where
  /-- Write level `j` of the built-in cursor back if it was modified. -/
  flushLevel (j : Nat) : M Unit := do
    let cj := (← get).C j
    if cj.rewrite then writeBlock cj.block (← bufferOf .builtIn j)

/-- `flush_db()`: write back every modified block of the built-in cursor. -/
def flushDb : M Unit := do
  let t ← get
  if t.handle ≠ .opened then
    if t.handle = .closed then throwDatabaseClosed
    return
  flushFrom t.level
  if (← get).btreeModified then modify fun t => { t with fakedRootBlock := false }

/-- The body of `commit` inside its `try`. -/
def commitBody (revision : Nat) (fault : Option CommitFault) : M Unit := do
  let t ← get
  if t.fakedRootBlock then modify fun t => { t with base := t.base.clearBitMap }
  modify fun t => { t with base := { t.base with
    revision := revision, root := (t.C t.level).block, level := t.level, itemCount := t.itemCount,
    haveFakeroot := t.fakedRootBlock, sequential := t.sequential } }
  modify fun t => { t with
    baseLetter := t.baseLetter.other, bothBases := true, latestRevisionNumber := revision,
    revisionNumber := revision, root := (t.C t.level).block, btreeModified := false,
    C := fun j => if j < btreeCursorLevels then
      { t.C j with n := none, c := -1, rewrite := false } else t.C j }
  if fault = some .fsyncFails then
    modify fun t => { t with handle := .unopened }
    throw (.databaseError "Can't commit new revision - failed to flush DB to disk")
  if fault = some .baseWriteFails then throw (.databaseError "Error writing to file")
  let t ← get
  setFiles fun f => { f with tmp := some t.base.toBaseFile }
  if fault = some .renameFails then
    setFiles fun f => { f with tmp := none }
    throw (.databaseError "Couldn't update base file")
  setFiles fun f => { f.setBase t.baseLetter f.tmp with tmp := none }
  modify fun t => { t with base := t.base.commit }
  readRoot
  modify fun t => { t with changedN := 0, changedC := dirStart, seqCount := seqStartPoint }

/-- `commit(revision)`: install the table's state as a new revision in the other base file,
after syncing the data file.  On any failure the table is closed. -/
def commit (revision : Nat) (fault : Option CommitFault) : M Unit := do
  let t ← get
  if revision ≤ t.revisionNumber then throw (.databaseError "New revision too low")
  if t.handle ≠ .opened then
    if t.handle = .closed then throwDatabaseClosed
    modify fun t => { t with latestRevisionNumber := revision, revisionNumber := revision }
    return
  tryCatch (commitBody revision fault) fun e => do close; throw e

/-- `cancel()`: reload the current base and drop the cursor's changes. -/
def cancel : M Unit := do
  let t ← get
  if t.handle ≠ .opened then
    if t.handle = .closed then throwDatabaseClosed
    modify fun t => { t with latestRevisionNumber := t.revisionNumber }
    return
  match t.files.base t.baseLetter with
  | none => throw (.databaseCorruptError "Couldn't reread base")
  | some f =>
    modify fun t => { t with
      base := Base.ofFile f, revisionNumber := f.revision, blockSize := f.blockSize,
      root := f.root, level := f.level, itemCount := f.itemCount,
      fakedRootBlock := f.haveFakeroot, sequential := f.sequential,
      latestRevisionNumber := f.revision, btreeModified := false }
    modify fun t => { t with C := fun j =>
      if j ≤ t.level then { t.C j with n := none, rewrite := false } else t.C j }
    readRoot
    modify fun t => { t with changedN := 0, changedC := dirStart, seqCount := seqStartPoint }

end FlintBtree
