import FlintBtree.Table

/-!
# Moving a cursor

`next_default` and `prev_default` step a cursor one slot along the leaves: at the end of a block
they step the level above and descend into the new child.  `next_for_sequential` and
`prev_for_sequential` are the fast paths of a table built by ascending insertion, which scan the
data file block by block for the next leaf instead of going through the level above.  `next`
and `prev` pick one of the two by the table's `sequential` flag.

## Design Notes

The recursion of `next_default` climbs at most to the root, and the block scans of the
sequential paths stop past `last_block`; both are written with a fuel argument of that size.
A scan reads every block it looks at into the cursor's leaf buffer, as `read_block(n, p)` does, so
a scan that runs off the end leaves that buffer holding the last block it read.
-/

namespace FlintBtree

/-- `read_block(n, C_[j].p)`: block `n` read into the buffer of level `j`, which must exist. -/
def readInto (r : CursorRef) (j n : Nat) : M Block := do
  if ((← get).cur r j).p.isNone then
    throw (.databaseError ("Error reading block " ++ toString n ++ ": Bad address"))
  let p ← readBlock n
  modifyCur r j fun x => { x with p := some p }
  return p

/-- `next_default(C_, j)` with a bound on the levels it may climb. -/
def nextDefault (r : CursorRef) : Nat → Nat → M Bool
  | 0, _ => pure false
  | fuel + 1, j => do
    let t ← get
    let p ← bufferOf r j
    let c := (t.cur r j).c + D2
    let c ← if (p.dirEnd : Int) ≤ c then do
        if j = t.level then return false
        if !(← nextDefault r fuel (j + 1)) then return false
        pure (dirStart : Int)
      else pure c
    modifyCur r j fun x => { x with c := c }
    if 0 < j then
      blockToCursor r (j - 1) ((← bufferOf r j).itemAt c).blockGivenBy
    return true

/-- `prev_default(C_, j)` with a bound on the levels it may climb. -/
def prevDefault (r : CursorRef) : Nat → Nat → M Bool
  | 0, _ => pure false
  | fuel + 1, j => do
    let t ← get
    let c := (t.cur r j).c
    let c ← if c = dirStart then do
        if j = t.level then return false
        if !(← prevDefault r fuel (j + 1)) then return false
        pure ((← bufferOf r j).dirEnd : Int)
      else pure c
    let c := c - D2
    modifyCur r j fun x => { x with c := c }
    if 0 < j then
      blockToCursor r (j - 1) ((← bufferOf r j).itemAt c).blockGivenBy
    return true

/-- The block a sequential scan looks at next: `none` when it is a block of the built-in cursor
above the leaves, whose copy on disk may be stale; otherwise the block, loaded into `C_[0].p`
(from the built-in cursor when it is the writer's current leaf). -/
def seqLoad (r : CursorRef) (n : Nat) : M (Option Block) := do
  let t ← get
  if t.writable then
    if some n = (t.C 0).n then
      let b ← bufferOf .builtIn 0
      modifyCur r 0 fun x => { x with p := some b }
      return some b
    if (List.range t.level).any fun j => some n = (t.C (j + 1)).n then return none
  return some (← readInto r 0 n)

/-- The check of both scans: a block newer than the revision being read raises
`set_overwritten`. -/
def seqCheck (p : Block) : M Unit := do
  let t ← get
  if uint4 (t.revisionNumber + if t.writable then 1 else 0) < p.revision then setOverwritten

/-- The scan of `next_for_sequential`: the first leaf numbered after `n`, up to `last_block`. -/
def nextSeqScan (r : CursorRef) : Nat → Nat → M (Option (Nat × Block))
  | 0, _ => pure none
  | fuel + 1, n => do
    if (← get).base.lastBlock < n + 1 then return none
    match ← seqLoad r (n + 1) with
    | none => nextSeqScan r fuel (n + 1)
    | some p =>
      seqCheck p
      if p.level = 0 then return some (n + 1, p)
      nextSeqScan r fuel (n + 1)

/-- The scan of `prev_for_sequential`: the last leaf numbered before `n`. -/
def prevSeqScan (r : CursorRef) : Nat → Nat → M (Option (Nat × Block))
  | 0, _ => pure none
  | fuel + 1, n => do
    if n = 0 then return none
    match ← seqLoad r (n - 1) with
    | none => prevSeqScan r fuel (n - 1)
    | some p =>
      seqCheck p
      if p.level = 0 then return some (n - 1, p)
      prevSeqScan r fuel (n - 1)

/-- `next_for_sequential(C_, 0)`: the next slot of the leaf, or the first slot of the next leaf
in block order. -/
def nextForSequential (r : CursorRef) : M Bool := do
  let t ← get
  let p ← bufferOf r 0
  let c := (t.cur r 0).c + D2
  if c = p.dirEnd then
    match ← nextSeqScan r (t.base.lastBlock + 1) (t.cur r 0).block with
    | none => return false
    | some (n, _) => modifyCur r 0 fun x => { x with c := dirStart, n := some n }
  else
    modifyCur r 0 fun x => { x with c := c }
  return true

/-- `prev_for_sequential(C_, 0)`: the previous slot of the leaf, or the last slot of the
previous leaf in block order. -/
def prevForSequential (r : CursorRef) : M Bool := do
  let t ← get
  let c := (t.cur r 0).c
  if c = dirStart then
    match ← prevSeqScan r ((t.cur r 0).block + 1) (t.cur r 0).block with
    | none => return false
    | some (n, p) => modifyCur r 0 fun x => { x with c := (p.dirEnd : Int) - D2, n := some n }
  else
    modifyCur r 0 fun x => { x with c := c - D2 }
  return true

/-- Modelled from the spec: `next(C_, j)`, the sequential fast path while the table is in
sequential mode (§4.9). -/
def next (r : CursorRef) (j : Nat) : M Bool := do
  let t ← get
  if t.sequential then nextForSequential r else nextDefault r (t.level + 1) j

/-- Modelled from the spec: `prev(C_, j)`, as `next`. -/
def prev (r : CursorRef) (j : Nat) : M Bool := do
  let t ← get
  if t.sequential then prevForSequential r else prevDefault r (t.level + 1) j

end FlintBtree
