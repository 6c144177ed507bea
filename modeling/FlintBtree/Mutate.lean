import FlintBtree.Table

/-!
# Insertion and deletion of items

`add_item` puts an item into the block at level `j` of the built-in cursor, splitting the block
when it is full: the lower half goes to the block's old number, the upper half to a new block,
and `enter_key` adds a separator for the new block one level up — which may split in turn, up
to `split_root`, which grows the tree by a level.  `delete_item` is its converse: a block left
empty is freed and its entry removed one level up, and a root left with a single child gives way
to that child.

## Design Notes

`add_item`, `enter_key` and `split_root` call one another.  `splitRoot` and `enterKey` take the
`add_item` they call as an argument, and `addItem` recurses through them on a fuel argument that
counts the levels it may still climb; each recursive call is one level up and the tree has at
most `btreeCursorLevels` levels, so `btreeCursorLevels + 1` is enough (`split_root` throws at
that height).  `deleteItem` and the root-collapse loop `collapse` likewise count levels.
-/

namespace FlintBtree

/-- The number of leading bytes two key bodies share: the loop of `enter_key` that finds the
first point of difference. -/
def matchLen : List UInt8 → List UInt8 → Nat
  | a :: as, b :: bs => if a = b then matchLen as bs + 1 else 0
  | _, _ => 0

/-- The length `enter_key` gives the body of the separator it builds from `newkey`: at level 1
the shortest prefix that differs from `prevkey` (one byte past the common part), above level 1
all of it, since the separators there must stay comparable with those below. -/
def separatorLength (j : Nat) (prevkey newkey : Key) : Nat :=
  if j = 1 then
    let i := matchLen prevkey.body newkey.body
    if i < newkey.body.length then i + 1 else i
  else newkey.body.length

/-- `split_root(split_n)`: the tree gains a level; the new root holds a null key pointing at
block `splitN`. -/
def splitRoot (addItem : Item → Nat → M Unit) (splitN : Nat) : M Unit := do
  modify fun t => { t with level := t.level + 1 }
  let t ← get
  if t.level = btreeCursorLevels then
    throw (.databaseCorruptError "Btree has grown impossibly large (10 levels)")
  let n ← nextFreeBlock
  modifyCur .builtIn t.level fun _ =>
    { p := some (emptyRoot t.blockSize (uint4 (t.latestRevisionNumber + 1)) t.level),
      c := dirStart, n := some n, rewrite := true }
  addItem (Item.formNullKey splitN) t.level

/-- The item `enter_key` enters at level `j` for the block `n` split off below: the first
`separatorLength j prevkey newkey` bytes of `newkey`, its counter, and child `n`. -/
def separatorItem (j : Nat) (prevkey newkey : Key) (n : Nat) : Item :=
  Item.setKeyAndBlock newkey (separatorLength j prevkey newkey) n

/-- `enter_key(j, prevkey, newkey)`: after a split at level `j - 1`, enter in the block at level
`j` a separator for the new block `C[j - 1].n`.  Above level 1 the first key of that new block is
made null, since the separator now stands in for it. -/
def enterKey (addItem : Item → Nat → M Unit) (j : Nat) (prevkey newkey : Key) : M Unit := do
  let t ← get
  let item := separatorItem j prevkey newkey (t.C (j - 1)).block
  if 1 < j then
    let p ← bufferOf .builtIn (j - 1)
    modifyCur .builtIn (j - 1) fun x => { x with p := some (nullFirstKey p) }
  let q ← bufferOf .builtIn j
  modifyCur .builtIn j fun x =>
    { x with c := findInBlock q item.keyOf false 0 + D2, rewrite := true }
  addItem item j

/-- `add_item(kt, j)` with a bound on the levels it may climb. -/
def addItem : Nat → Item → Nat → M Unit
  | 0, _, _ => throw (.databaseCorruptError "Btree has grown impossibly large (10 levels)")
  | fuel + 1, kt, j => do
    let t ← get
    let p ← bufferOf .builtIn j
    let c := (t.C j).c
    let needed : Int := kt.size + D2
    if (p.totalFree : Int) < needed then
      let m := if t.seqCount < 0 then midPoint t.blockSize p else c
      let splitN := (t.C j).block
      let newN ← nextFreeBlock
      modifyCur .builtIn j fun x => { x with n := some newN }
      let lower := lowerHalf t.blockSize p m
      let upper := upperHalf t.blockSize p m
      let addToUpperHalf :=
        if t.seqCount < 0 then decide (m ≤ c) else decide ((lower.totalFree : Int) < needed)
      let c' := if addToUpperHalf then c - (m - dirStart) else c
      let lower := if addToUpperHalf then lower else addItemToBlock t.blockSize lower kt c
      let upper := if addToUpperHalf then addItemToBlock t.blockSize upper kt c' else upper
      modifyCur .builtIn j fun x => { x with p := some upper }
      writeBlock splitN lower
      if j = (← get).level then splitRoot (addItem fuel) splitN
      enterKey (addItem fuel) (j + 1) (lower.itemAt (lower.dirEnd - D2)).keyOf
        (upper.itemAt dirStart).keyOf
      if j = 0 then
        modify fun t => { t with changedN := if addToUpperHalf then newN else splitN, changedC := c' }
    else
      modifyCur .builtIn j fun x => { x with p := some (addItemToBlock t.blockSize p kt c) }
      if j = 0 then modify fun t => { t with changedN := (t.C 0).block, changedC := c }

/-- The `while` loop of `delete_item` at the root: while the root of a tree of height above one
holds a single item, free it and make its only child the root. -/
def collapse : Nat → M Unit
  | 0 => pure ()
  | fuel + 1 => do
    let t ← get
    let p ← bufferOf .builtIn t.level
    if p.dirEnd = dirStart + D2 ∧ 0 < t.level then
      let newRoot := (p.itemAt dirStart).blockGivenBy
      freeBlock (t.C t.level).block
      modifyCur .builtIn t.level fun x => { x with p := none, rewrite := false, n := none }
      modify fun t => { t with level := t.level - 1 }
      blockToCursor .builtIn (t.level - 1) newRoot
      collapse fuel

/-- `delete_item(j, repeatedly)` with a bound on the levels it may climb. -/
def deleteItem : Nat → Nat → Bool → M Unit
  | 0, _, _ => pure ()
  | fuel + 1, j, repeatedly => do
    let t ← get
    let p := deleteSlot (← bufferOf .builtIn j) (t.C j).c
    modifyCur .builtIn j fun x => { x with p := some p }
    if !repeatedly then return
    if j < t.level then
      if p.dirEnd = dirStart then
        freeBlock (t.C j).block
        modifyCur .builtIn j fun x => { x with rewrite := false, n := none }
        modifyCur .builtIn (j + 1) fun x => { x with rewrite := true }
        deleteItem fuel (j + 1) true
    else collapse t.level

/-- `add_kt(found)`: put `kt` at the slot `find` left the built-in cursor on, replacing the item
there when `found`; returns the component count of the item replaced, or 0. -/
def addKt (found : Bool) : M Nat := do
  alter
  let t ← get
  if found then
    modify fun t => { t with seqCount := seqStartPoint, sequential := false }
    let p ← bufferOf .builtIn 0
    let c := (t.C 0).c
    let item := p.itemAt c
    let needed : Int := (t.kt.size : Int) - item.size
    if needed ≤ 0 then
      modifyCur .builtIn 0 fun x => { x with p := some (replaceInPlace p c t.kt) }
    else if 0 ≤ (p.maxFree : Int) - t.kt.size then
      modifyCur .builtIn 0 fun x => { x with p := some (replaceIntoMaxFree p c t.kt) }
    else
      deleteItem (t.level + 1) 0 false
      addItem (btreeCursorLevels + 1) t.kt 0
    return item.componentsOf
  else
    if t.changedN = (t.C 0).block ∧ t.changedC = (t.C 0).c then
      if t.seqCount < 0 then modify fun t => { t with seqCount := t.seqCount + 1 }
    else
      modify fun t => { t with seqCount := seqStartPoint, sequential := false }
    modifyCur .builtIn 0 fun x => { x with c := x.c + D2 }
    addItem (btreeCursorLevels + 1) t.kt 0
    return 0

/-- `delete_kt()`: delete the item with the key in `kt`, if there is one; returns its component
count, or 0. -/
def deleteKt : M Nat := do
  let found ← find .builtIn
  modify fun t => { t with seqCount := seqStartPoint, sequential := false }
  if found then
    let t ← get
    let components := ((← bufferOf .builtIn 0).itemAt (t.C 0).c).componentsOf
    alter
    deleteItem ((← get).level + 1) 0 true
    return components
  return 0

end FlintBtree
