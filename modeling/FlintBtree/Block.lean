import FlintBtree.Item

/-!
# Blocks

A block of the data file, as `flint_table.cc` lays it out:

    R L M T D o1 o2 o3 ... oN <gap> [item] .. [item] .. [item] ...
    <---------- D ----------> <-M->

`R` is the revision the block was written at, `L` its level, `M = MAX_FREE` the gap between the
end of the directory and the first item, `T = TOTAL_FREE` all its free bytes and `D = DIR_END`
the end of the directory of 2-byte item offsets `o1 .. oN`, which starts at `DIR_START = 11`.

## Main Definitions

* `Block` — the header fields and the directory, each slot an offset with the item stored there.
* `compact`, `addItemToBlock`, `midPoint`, `findInBlock` — the block-local functions of
  `flint_table.cc` under their own names.
* `lowerHalf`, `upperHalf`, `deleteSlot`, `replaceInPlace`, `replaceIntoMaxFree`, `nullFirstKey`,
  `fakeRoot`, `emptyRoot` — the block-local parts of `add_item`'s split, `delete_item`, the two
  short replacements of `add_kt`, `enter_key`'s null-key rewrite, `read_root` and `split_root`.

## Design Notes

A directory slot is addressed, as in the source, by its byte offset `c` in the block
(`DIR_START + 2 i` for the `i`-th slot); `Block.itemAt` reads the item a slot names.  `DIR_END` is
not stored apart from the directory: the directory *is* the slots below it, so every
`SET_DIR_END` of the source is a change of the directory list.  Two-byte stores go through
`setint2`, which keeps the low 16 bits of an `int`, so a value that does not fit its field wraps
here as it does on disk.  Items are kept with their offsets rather than as bytes; the space
invariant of `FlintBtree.Space` (items pairwise disjoint, all above the gap) is what makes that
faithful.
-/

namespace FlintBtree

/-- `DIR_START`: the first directory slot, just past the 11-byte header. -/
def dirStart : Nat := 11

/-- `setint2`: the low 16 bits of an `int`, as a 2-byte field stores it. -/
def setint2 (x : Int) : Nat := (x % 65536).toNat

/-- `uint4` arithmetic: the low 32 bits, as the 4-byte revision field stores them. -/
def uint4 (x : Nat) : Nat := x % 2 ^ 32

/-- A block: `REVISION`, `GET_LEVEL`, `MAX_FREE`, `TOTAL_FREE`, and the directory, each slot the
item offset `setD` stored there and the item at that offset. -/
structure Block where
  revision : Nat
  level : Nat
  maxFree : Nat
  totalFree : Nat
  dir : List (Nat × Item)
deriving DecidableEq, Repr

instance : Inhabited Block := ⟨⟨0, 0, 0, 0, []⟩⟩

/-- The index in the directory of the slot at byte offset `c`. -/
def slotIndex (c : Int) : Nat := ((c - dirStart) / D2).toNat

/-- The byte offset of the `i`-th directory slot. -/
def slotOf (i : Nat) : Int := dirStart + D2 * i

@[simp] theorem slotIndex_slotOf (i : Nat) : slotIndex (slotOf i) = i := by
  simp only [slotIndex, slotOf, D2, dirStart]
  omega

namespace Block

/-- `DIR_END(b)`. -/
def dirEnd (b : Block) : Nat := dirStart + D2 * b.dir.length

/-- `Item_(b, c)`: the item the slot at offset `c` names. -/
def itemAt (b : Block) (c : Int) : Item := (b.dir.getD (slotIndex c) (0, default)).2

/-- The items of the block in directory order. -/
def items (b : Block) : List Item := b.dir.map (·.2)

/-- Bytes taken by the items. -/
def used (b : Block) : Nat := (b.items.map Item.size).sum

/-- `memmove(p + c + D2, p + c, dir_end - c)` and `setD(p, c, o)`: a new slot at `c`. -/
def insertSlot (b : Block) (c : Int) (e : Nat × Item) : Block :=
  { b with dir := b.dir.take (slotIndex c) ++ e :: b.dir.drop (slotIndex c) }

/-- `memmove(p + c, p + c + D2, dir_end - c)`: the slot at `c` closes up. -/
def removeSlot (b : Block) (c : Int) : Block :=
  { b with dir := b.dir.take (slotIndex c) ++ b.dir.drop (slotIndex c + 1) }

/-- The slot at `c` names the item `e.2` stored at offset `e.1`. -/
def setSlot (b : Block) (c : Int) (e : Nat × Item) : Block :=
  { b with dir := b.dir.set (slotIndex c) e }

@[simp] theorem items_insertSlot (b : Block) (c : Int) (e : Nat × Item) :
    (b.insertSlot c e).items = b.items.take (slotIndex c) ++ e.2 :: b.items.drop (slotIndex c) := by
  simp [insertSlot, items, List.map_take, List.map_drop]

@[simp] theorem items_removeSlot (b : Block) (c : Int) :
    (b.removeSlot c).items = b.items.take (slotIndex c) ++ b.items.drop (slotIndex c + 1) := by
  simp [removeSlot, items, List.map_take, List.map_drop]

@[simp] theorem items_setSlot (b : Block) (c : Int) (e : Nat × Item) :
    (b.setSlot c e).items = b.items.set (slotIndex c) e.2 := by
  simp [setSlot, items, List.map_set]

end Block

/-! ## Compaction -/

/-- The loop of `compact`: lay the items out downwards from `e`, in directory order, and return
where the last one starts. -/
def compactDir : Int → List (Nat × Item) → Int × List (Nat × Item)
  | e, [] => (e, [])
  | e, (_, it) :: rest =>
      let r := compactDir (e - it.size) rest
      (r.1, (setint2 (e - it.size), it) :: r.2)

/-- `compact(p)`: move every item to the end of the block, then `MAX_FREE = TOTAL_FREE`. -/
def compact (blockSize : Nat) (p : Block) : Block :=
  let r := compactDir blockSize p.dir
  { p with dir := r.2, totalFree := setint2 (r.1 - p.dirEnd), maxFree := setint2 (r.1 - p.dirEnd) }

/-! ## Adding and removing items -/

/-- The first step of `add_item_to_block`: `compact` when the `MAX_FREE` gap is shorter than
`needed`. -/
def makeRoom (blockSize : Nat) (p : Block) (needed : Int) : Block :=
  if (p.maxFree : Int) - needed < 0 then compact blockSize p else p

/-- `add_item_to_block(p, kt, c)`: open slot `c` and put `kt` at the top of the gap, compacting
first when the gap is too small. -/
def addItemToBlock (blockSize : Nat) (p : Block) (kt : Item) (c : Int) : Block :=
  let needed : Int := kt.size + D2
  let newTotal : Int := p.totalFree - needed
  let q := makeRoom blockSize p needed
  let newMax : Int := q.maxFree - needed
  { q.insertSlot c (setint2 (q.dirEnd + D2 + newMax), kt) with
    maxFree := setint2 newMax, totalFree := setint2 newTotal }

/-- The block-local part of `delete_item(j, repeatedly)`: close the slot at `c` and return its
bytes and its directory entry to `TOTAL_FREE`, the entry to `MAX_FREE`. -/
def deleteSlot (p : Block) (c : Int) : Block :=
  { p.removeSlot c with
    maxFree := setint2 (p.maxFree + D2),
    totalFree := setint2 (p.totalFree + (p.itemAt c).size + D2) }

/-- `add_kt`'s simple replacement: `kt` is no longer than the item at `c` and overwrites it. -/
def replaceInPlace (p : Block) (c : Int) (kt : Item) : Block :=
  { p.setSlot c (((p.dir.getD (slotIndex c) (0, default)).1), kt) with
    totalFree := setint2 (p.totalFree - ((kt.size : Int) - (p.itemAt c).size)) }

/-- `add_kt`'s second replacement: `kt` goes to the top of the `MAX_FREE` gap and slot `c` is
repointed at it. -/
def replaceIntoMaxFree (p : Block) (c : Int) (kt : Item) : Block :=
  let newMax : Int := p.maxFree - kt.size
  { p.setSlot c (setint2 (p.dirEnd + newMax), kt) with
    maxFree := setint2 newMax,
    totalFree := setint2 (p.totalFree - ((kt.size : Int) - (p.itemAt c).size)) }

/-- `enter_key`'s rewrite of the first item of a branch block to a null key pointing at the same
child, crediting `newkey_len + C2` bytes to `TOTAL_FREE`. -/
def nullFirstKey (p : Block) : Block :=
  let it := p.itemAt dirStart
  { p.setSlot dirStart ((p.dir.getD 0 (0, default)).1, Item.formNullKey it.blockGivenBy) with
    totalFree := setint2 (p.totalFree + (it.keyOf.body.length + C2)) }

/-! ## Splitting -/

/-- `mid_point`'s loop: accumulate twice each item's size until it passes the bytes in use. -/
def midPointLoop (size : Int) : Int → Int → List (Nat × Item) → Int
  | _, _, [] => 0
  | n, c, (_, it) :: rest =>
      if size ≤ n + 2 * it.size then
        (if (it.size : Int) < n + 2 * it.size - size then c else c + D2)
      else midPointLoop size (n + 2 * it.size) (c + D2) rest

/-- `mid_point(p)`: the slot that splits the block's item bytes about in half. -/
def midPoint (blockSize : Nat) (p : Block) : Int :=
  midPointLoop ((blockSize : Int) - p.totalFree - p.dirEnd) 0 dirStart p.dir

/-- The lower half of `add_item`'s split: `split_p` cut at slot `m`, compacted. -/
def lowerHalf (blockSize : Nat) (p : Block) (m : Int) : Block :=
  compact blockSize { p with dir := p.dir.take (slotIndex m) }

/-- The upper half of `add_item`'s split: `p` with the slots from `m` on moved down to
`DIR_START`, compacted. -/
def upperHalf (blockSize : Nat) (p : Block) (m : Int) : Block :=
  compact blockSize { p with dir := p.dir.drop (slotIndex m) }

/-! ## New blocks -/

/-- `read_root`'s faked root: a leaf holding only the fake root item, at the end of the block,
with the given revision. -/
def fakeRoot (blockSize : Nat) (rev : Nat) : Block :=
  let o : Int := (blockSize : Int) - I2 - K1 - C2 - C2
  { revision := rev, level := 0, dir := [(setint2 o, Item.fakeRootItem)],
    maxFree := setint2 (o - (dirStart + D2)), totalFree := setint2 (o - (dirStart + D2)) }

/-- `split_root`'s new root before its first item: zeroed, then revision and level set, an empty
directory and `compact` to set `TOTAL_FREE` and `MAX_FREE`. -/
def emptyRoot (blockSize : Nat) (rev level : Nat) : Block :=
  compact blockSize ⟨rev, level, 0, 0, []⟩

/-! ## Searching -/

/-- The binary chop of `find_in_block` on `[i, j)`, with a fuel bound on the steps. -/
def chop (p : Block) (key : Key) : Nat → Int → Int → Int
  | 0, i, _ => i
  | fuel + 1, i, j =>
      if (D2 : Int) < j - i then
        let k := i + ((j - i) / (D2 * 2)) * D2
        if key.lt (p.itemAt k).keyOf then chop p key fuel i k else chop p key fuel k j
      else i

/-- `find_in_block(p, key, leaf, c)`: the slot of the last key `≤ key`.  A leaf search may
return `DIR_START - 2`; a branch search never tests the first slot.  A hint `c ≠ -1` narrows the
bracket to `[c, c + 2)` when the keys there allow it. -/
def findInBlock (p : Block) (key : Key) (leaf : Bool) (c : Int) : Int :=
  let i₀ : Int := if leaf then (dirStart : Int) - D2 else dirStart
  let j₀ : Int := p.dirEnd
  let i₁ := if c ≠ -1 ∧ c < j₀ ∧ i₀ < c ∧ (p.itemAt c).keyOf.le key then c else i₀
  let j₁ := if c ≠ -1 ∧ c + D2 < j₀ ∧ i₁ < c + D2 ∧ key.lt (p.itemAt (c + D2)).keyOf then c + D2
    else j₀
  chop p key p.dirEnd i₁ j₁

end FlintBtree
