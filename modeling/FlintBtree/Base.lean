import FlintBtree.Block

/-!
# Base files and the block allocator

A table keeps two *base files*, `baseA` and `baseB`, each recording a committed revision: its
root block, tree level, item count, the faked-root and sequential flags, and the bitmap of the
blocks in use.  In memory, `FlintTable_base` holds the base it was read from and two bitmaps:
`bit_map0`, the blocks in use at the start of the transaction, and `bit_map`, the blocks in use
now.

## Design Notes

`FlintTable_base` lives in `flint_btreebase.cc`, which is not part of the source tree, so every
definition here is modelled from the spec (§3 "Base file", §4.1).  The spec says `next_free_block`
returns the lowest block free in `bitmap_current`, and then that "freed blocks are reusable within
the same transaction only if they were already free at its start"; the second sentence, and the
contract that writes go only to blocks free at the start, fix the choice: the block returned is the
lowest one free in *both* bitmaps.  A bitmap is a function from block numbers to bits that is
clear past some bound.
-/

namespace FlintBtree

/-! ## Bitmaps -/

/-- A bitmap of the blocks in use.  Every block from `size` on is free, which is what extending
the bitmap on demand amounts to. -/
structure Bitmap where
  bit : Nat → Bool
  size : Nat
  free_past : ∀ n, size ≤ n → bit n = false

namespace Bitmap

/-- The bitmap with every block free. -/
def empty : Bitmap := ⟨fun _ => false, 0, fun _ _ => rfl⟩

/-- The bitmap with block `n` marked `v`. -/
def set (b : Bitmap) (n : Nat) (v : Bool) : Bitmap where
  bit m := if m = n then v else b.bit m
  size := max b.size (n + 1)
  free_past m h := by simp only [if_neg (show m ≠ n by omega)]; exact b.free_past m (by omega)

@[simp] theorem bit_set (b : Bitmap) (n m : Nat) (v : Bool) :
    (b.set n v).bit m = if m = n then v else b.bit m := rfl

@[simp] theorem bit_empty (n : Nat) : empty.bit n = false := rfl

end Bitmap

/-- The loop of `next_free_block`: from block `i`, the first block free in both bitmaps, within
`k` more steps. -/
def firstFree (b0 b : Bitmap) : Nat → Nat → Nat
  | i, 0 => i
  | i, k + 1 => if !b0.bit i && !b.bit i then i else firstFree b0 b (i + 1) k

/-- The lowest block free in both bitmaps. -/
def nextFree (b0 b : Bitmap) : Nat := firstFree b0 b 0 (max b0.size b.size)

theorem firstFree_free (b0 b : Bitmap) :
    ∀ k i, max b0.size b.size ≤ i + k →
      b0.bit (firstFree b0 b i k) = false ∧ b.bit (firstFree b0 b i k) = false
  | 0, i, h => ⟨b0.free_past _ (by simp only [firstFree]; omega),
      b.free_past _ (by simp only [firstFree]; omega)⟩
  | k + 1, i, h => by
    simp only [firstFree]
    split
    · simp_all
    · exact firstFree_free b0 b k (i + 1) (by omega)

/-- `next_free_block` hands out a block free in both bitmaps. -/
theorem nextFree_free (b0 b : Bitmap) :
    b0.bit (nextFree b0 b) = false ∧ b.bit (nextFree b0 b) = false :=
  firstFree_free b0 b _ 0 (by omega)

/-! ## Base files -/

/-- The two base file names, `A` and `B`. -/
inductive Letter
  | A
  | B
deriving DecidableEq, Repr

/-- `other_base_letter()`. -/
def Letter.other : Letter → Letter
  | .A => .B
  | .B => .A

/-- Modelled from the spec: what a valid base file records (§6, "Base file layout"). -/
structure BaseFile where
  revision : Nat
  blockSize : Nat
  root : Nat
  level : Nat
  itemCount : Nat
  haveFakeroot : Bool
  sequential : Bool
  lastBlock : Nat
  bitMap : Bitmap

/-- Modelled from the spec: `FlintTable_base` in memory, the base last read or written together
with `bit_map0`, the bitmap at the start of the transaction; `bitMap` is the bitmap now. -/
structure Base extends BaseFile where
  bitMap0 : Bitmap

namespace Base

/-- Modelled from the spec: `FlintTable_base::read`, both bitmaps set from the file. -/
def ofFile (f : BaseFile) : Base := { f with bitMap0 := f.bitMap }

/-- The empty base a default-constructed `FlintTable_base` holds. -/
def empty : Base := ⟨⟨0, 0, 0, 0, 0, false, false, 0, .empty⟩, .empty⟩

/-- Modelled from the spec: `block_free_at_start(n)`, bit `n` of `bit_map0` clear. -/
def blockFreeAtStart (b : Base) (n : Nat) : Bool := !b.bitMap0.bit n

/-- Modelled from the spec: `free_block(n)` clears bit `n` of the current bitmap only. -/
def freeBlock (b : Base) (n : Nat) : Base := { b with bitMap := b.bitMap.set n false }

/-- Modelled from the spec: `next_free_block()`, the lowest block free in both bitmaps, marked in
use; `last_block` follows the highest block handed out. -/
def nextFreeBlock (b : Base) : Nat × Base :=
  let n := nextFree b.bitMap0 b.bitMap
  (n, { b with bitMap := b.bitMap.set n true, lastBlock := max b.lastBlock n })

/-- Modelled from the spec: `commit()` makes the current bitmap the transaction-initial one. -/
def commit (b : Base) : Base := { b with bitMap0 := b.bitMap }

/-- Modelled from the spec: `clear_bit_map()`, the dummy bitmap of a faked root. -/
def clearBitMap (b : Base) : Base := { b with bitMap := .empty }

theorem nextFreeBlock_free (b : Base) :
    b.blockFreeAtStart b.nextFreeBlock.1 = true ∧ b.bitMap.bit b.nextFreeBlock.1 = false := by
  have := nextFree_free b.bitMap0 b.bitMap
  simp [blockFreeAtStart, nextFreeBlock, this.1, this.2]

@[simp] theorem nextFreeBlock_bitMap0 (b : Base) : b.nextFreeBlock.2.bitMap0 = b.bitMap0 := rfl

@[simp] theorem freeBlock_bitMap0 (b : Base) (n : Nat) : (b.freeBlock n).bitMap0 = b.bitMap0 := rfl

end Base

end FlintBtree
