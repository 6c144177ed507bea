import Mathlib

/-!
# Keys and items

The B-tree of `flint_table.cc` stores *items* in fixed-size blocks.  An item has the form

    I K key x C tag

where `I` is the item's total length, `K` the length of the key field, `x` a component counter
and `C` the number of components of a long tag that `add` cut into pieces.  In a leaf the tag is
a chunk of the value; in a branch block it is the 4-byte number of a child block, and the key may
be a truncated separator or, at the first slot, the *null key* that `form_null_key` writes.

## Main Definitions

* `Key` — a key body and its component counter; `Key.lt` is `Key_::operator<` and `Key.eq` is
  `Key_::operator==`, both over the bytes `memcmp` sees.
* `Tag`, `Item` — what an item holds, with `Item.size` the length field `I`.

## Design Notes

The accessors of `Item_` and `Item_wr_` live in `flint_table.h`, which is not part of the source
tree.  They are modelled from the spec's item format (§3, §6): an item is kept as the values its
bytes encode rather than as the bytes, and `Item.size` is the length those bytes take, as
`flint_table.cc` itself computes it (`cd` in `add` for a leaf item, `fake_root_item`'s offset in
`read_root`, the 7-byte null item of `split_root`, the `newkey_len + C2` that `enter_key` credits
when it nulls a key).  The compressed flag that `set_tag` stores in the top bit of `I` is a field
of the chunk.
-/

namespace FlintBtree

/-! ## Field widths -/

/-- Bytes of the item length field `I`. -/
def I2 : Nat := 2

/-- Bytes of the key length field `K`. -/
def K1 : Nat := 1

/-- Bytes of a component counter. -/
def C2 : Nat := 2

/-- Bytes of a directory slot. -/
def D2 : Nat := 2

/-- Bytes of the child block number a branch item carries. -/
def bytesPerBlockNumber : Nat := 4

/-- `FLINT_BTREE_MAX_KEY_LEN`: the longest key body a table stores (spec §4.5). -/
def flintBtreeMaxKeyLen : Nat := 252

/-! ## Keys -/

/-- A key as `Key_` reads it: the key body and the component counter stored after it. -/
structure Key where
  body : List UInt8
  counter : Nat
deriving DecidableEq, Repr, Inhabited

/-- The two bytes `setint2` stores for `x`, high byte first. -/
def be2 (x : Nat) : List UInt8 := [UInt8.ofNat (x / 256), UInt8.ofNat x]

/-- The bytes after `K`: the body followed by the big-endian counter. -/
def Key.bytes (k : Key) : List UInt8 := k.body ++ be2 k.counter

/-- `memcmp` over two byte strings: the first differing byte decides, unsigned. -/
def memcmp : List UInt8 → List UInt8 → Ordering
  | a :: as, b :: bs =>
      if a.toNat < b.toNat then .lt else if b.toNat < a.toNat then .gt else memcmp as bs
  | _, _ => .eq

/-- `Key_::operator<`.  Keys of one length are compared in one `memcmp` over body and
counter; otherwise the common part of the bodies decides, and then the shorter body. -/
def Key.lt (a b : Key) : Bool :=
  if a.body.length = b.body.length then memcmp a.bytes b.bytes == .lt
  else
    let k := min a.body.length b.body.length
    match memcmp (a.body.take k) (b.body.take k) with
    | .eq => decide (a.body.length < b.body.length)
    | d => d == .lt

/-- `Key_::operator==`: equal lengths and equal bytes, counter included. -/
def Key.eq (a b : Key) : Bool :=
  a.body.length == b.body.length && memcmp a.bytes b.bytes == .eq

/-- `Key_::operator<=`, which `flint_table.h` defines as `!(key2 < *this)`. -/
def Key.le (a b : Key) : Bool := !b.lt a

/-! ## Items -/

/-- What follows the key in an item: in a leaf, the component count, the compressed flag and a
chunk of the value; in a branch block, a child block number. -/
inductive Tag
  | chunk (components : Nat) (compressed : Bool) (data : List UInt8)
  | child (n : Nat)
deriving DecidableEq, Repr

/-- Modelled from the spec: an item `I K key x C tag`.  `key = none` is the null key that
`form_null_key` writes into the first slot of a branch block (`K = K1`, no body, no counter). -/
structure Item where
  key : Option Key
  tag : Tag
deriving DecidableEq, Repr

instance : Inhabited Item := ⟨⟨none, .child 0⟩⟩

namespace Item

/-- `Item_::size()`: the length field `I`. -/
def size (it : Item) : Nat :=
  I2 + K1 + (match it.key with | none => 0 | some k => k.body.length + C2) +
    (match it.tag with | .chunk _ _ d => C2 + d.length | .child _ => bytesPerBlockNumber)

/-- `Item_::key()` as the comparisons see it.  The null key is never compared (branch searches
start past the first slot); it reads as the empty body with counter 0. -/
def keyOf (it : Item) : Key := it.key.getD ⟨[], 0⟩

/-- `Item_::components_of()`. -/
def componentsOf (it : Item) : Nat :=
  match it.tag with | .chunk m _ _ => m | .child _ => 0

/-- `Item_::block_given_by()`. -/
def blockGivenBy (it : Item) : Nat :=
  match it.tag with | .child n => n | .chunk _ _ _ => 0

/-- The bytes `Item_::append_chunk` appends. -/
def chunk (it : Item) : List UInt8 :=
  match it.tag with | .chunk _ _ d => d | .child _ => []

/-- `Item_::get_compressed()`. -/
def getCompressed (it : Item) : Bool :=
  match it.tag with | .chunk _ c _ => c | .child _ => false

/-- `Item_wr_::set_block_given_by(n)`. -/
def setBlockGivenBy (it : Item) (n : Nat) : Item := { it with tag := .child n }

/-- `Item_wr_::form_null_key(n)`: a null key pointing at block `n`. -/
def formNullKey (n : Nat) : Item := ⟨none, .child n⟩

/-- `Item_wr_::set_key_and_block(newkey, i, n)`: the first `i` bytes of the body of `newkey`,
its counter, and child `n`. -/
def setKeyAndBlock (newkey : Key) (i : Nat) (n : Nat) : Item :=
  ⟨some ⟨newkey.body.take i, newkey.counter⟩, .child n⟩

/-- `Item_wr_::set_component_of(i)`: the counter after the key body. -/
def setComponentOf (it : Item) (i : Nat) : Item :=
  { it with key := it.key.map fun k => { k with counter := i } }

/-- `Item_wr_::set_components_of(m)`. -/
def setComponentsOf (it : Item) (m : Nat) : Item :=
  match it.tag with
  | .chunk _ c d => { it with tag := .chunk m c d }
  | .child _ => { it with tag := .chunk m false [] }

/-- `Item_wr_::set_tag`: the chunk bytes and the compressed flag, keeping the component count. -/
def setTag (it : Item) (data : List UInt8) (compressed : Bool) : Item :=
  { it with tag := .chunk it.componentsOf compressed data }

/-- `Item_wr_::form_key`: the key body, with counter 1; the tag is left as it was. -/
def formKey (it : Item) (key : List UInt8) : Item := { it with key := some ⟨key, 1⟩ }

/-- `Item_wr_::fake_root_item()`: the empty key, counter 1, one component, no chunk. -/
def fakeRootItem : Item := ⟨some ⟨[], 1⟩, .chunk 1 false []⟩

@[simp] theorem size_formNullKey (n : Nat) : (formNullKey n).size = 7 := rfl

@[simp] theorem size_fakeRootItem : fakeRootItem.size = 7 := rfl

theorem size_setKeyAndBlock (newkey : Key) (i n : Nat) :
    (setKeyAndBlock newkey i n).size = min i newkey.body.length + 9 := by
  simp [setKeyAndBlock, size, I2, K1, C2, bytesPerBlockNumber]
  omega

/-- A leaf item is `cd + l` bytes long, `cd = key_len + K1 + I2 + C2 + C2` as `add` computes it. -/
theorem size_chunk (k : Key) (m : Nat) (c : Bool) (d : List UInt8) :
    (⟨some k, .chunk m c d⟩ : Item).size = k.body.length + K1 + I2 + C2 + C2 + d.length := by
  simp [size, I2, K1, C2]
  omega

/-- The fixed fields `I` and `K` alone take three bytes. -/
theorem three_le_size (it : Item) : 3 ≤ it.size := by
  unfold size I2 K1
  omega

/-- With the two-byte count of a chunk or the four-byte block number of a child, every item
takes at least five bytes. -/
theorem five_le_size (it : Item) : 5 ≤ it.size := by
  obtain ⟨_, _ | _⟩ := it <;> simp only [size, I2, K1, C2, bytesPerBlockNumber] <;> omega

end Item

end FlintBtree
