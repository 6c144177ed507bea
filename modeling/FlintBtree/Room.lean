import FlintBtree.Split
import FlintBtree.Search
import FlintBtree.Logic
import FlintBtree.Mutate
import FlintBtree.Run

/-!
# Room at every level

`add_item(kt, j)` adds an item to the block at level `j` of the built-in cursor with
`add_item_to_block`, which relies on the caller for room (`Assert(new_total >= 0)`).  When the
block is full it splits it, and `enter_key` then adds a separator one level up, which may split
in turn, up to `split_root`.  This module shows that every block `add_item` fills has room, at
every level it climbs to.

## Main Results

* `addItem_fits` — from a cursor whose blocks fit (`CursorFits`), an `add_item` of an item that
  fits its level leaves a cursor whose blocks fit, and every block it writes fits.

## Design Notes

`BlockFits` is what a block needs for `Split.lean`'s room argument to apply, together with what it
needs to stay so: its items are at most `max_item_size` bytes with keys of at most 252 bytes, and
above the leaves they are child items, each with a key but possibly the first (`enter_key` nulls
the first key of the upper half of a split, and `form_null_key` on a null key would add two bytes
to `TOTAL_FREE` that no key gave back).  For the last part, `add_item` must not be asked to put a
keyed item before a branch block's first slot: `enter_key` puts its separator after the slot
`find_in_block` finds, which is at least `DIR_START`.
-/

namespace FlintBtree

open Block

/-! ## Blocks that fit -/

/-- What `add_item` needs of a block at level `j` of the built-in cursor: the space invariant,
items of at most `max_item_size` bytes whose keys have at most 252 bytes, and above the leaves
child items, each with a key but possibly the first. -/
structure BlockFits (B mis j : Nat) (b : Block) : Prop where
  space : SpaceInv B b
  size_le : ∀ it ∈ b.items, it.size ≤ mis
  key_le : ∀ it ∈ b.items, it.keyOf.body.length ≤ 252
  child : 0 < j → ∀ it ∈ b.items, ∃ n, it.tag = .child n
  keyed : 0 < j → ∀ it ∈ b.items.drop 1, it.key.isSome

theorem items_addItemToBlock (p : Block) (kt : Item) (c : Int) :
    (addItemToBlock B p kt c).items =
      p.items.take (slotIndex c) ++ kt :: p.items.drop (slotIndex c) := by
  have hq : (makeRoom B p (kt.size + D2)).items = p.items := by
    unfold makeRoom; split <;> simp
  simp only [addItemToBlock]
  exact (items_insertSlot _ _ _).trans (by rw [hq])

theorem mem_of_mem_insert {l : List Item} {x it : Item} {i : Nat}
    (h : it ∈ l.take i ++ x :: l.drop i) : it = x ∨ it ∈ l := by
  simp only [List.mem_append, List.mem_cons] at h
  rcases h with h | h | h
  · exact .inr (List.mem_of_mem_take h)
  · exact .inl h
  · exact .inr (List.mem_of_mem_drop h)

/-- Past the first slot, an insertion after the first slot holds the new item and what the
list held past its first. -/
theorem mem_drop_one_of_mem_insert {l : List Item} {x it : Item} {i : Nat} (hi : 0 < i ∨ l = [])
    (h : it ∈ (l.take i ++ x :: l.drop i).drop 1) : it = x ∨ it ∈ l.drop 1 := by
  rcases l with _ | ⟨a, l⟩
  · simp at h
  · obtain ⟨i, rfl⟩ : ∃ i', i = i' + 1 := ⟨i - 1, by simp at hi; omega⟩
    simp only [List.take_succ_cons, List.drop_succ_cons, List.cons_append, List.drop_one,
      List.tail_cons] at h ⊢
    exact mem_of_mem_insert h

variable {B mis j : Nat} {p : Block} {kt : Item}

/-- An item that fits, put into a block that fits and has room for it, after the first slot
above the leaves. -/
theorem BlockFits.addItemToBlock (hb : BlockFits B mis j p) (hB : B ≤ 65536)
    (hroom : kt.size + D2 ≤ p.totalFree) (hkt : kt.size ≤ mis)
    (hkey : kt.keyOf.body.length ≤ 252) (hchild : 0 < j → ∃ n, kt.tag = .child n)
    (hslot : 0 < j → p.dir = [] ∨
      kt.key.isSome ∧ (0 < slotIndex c ∨ ∀ it ∈ p.items, it.key.isSome)) :
    BlockFits B mis j (addItemToBlock B p kt c) where
  space := spaceInv_addItemToBlock hb.space hB hroom
  size_le it h := by
    rw [items_addItemToBlock] at h
    rcases mem_of_mem_insert h with rfl | h
    exacts [hkt, hb.size_le it h]
  key_le it h := by
    rw [items_addItemToBlock] at h
    rcases mem_of_mem_insert h with rfl | h
    exacts [hkey, hb.key_le it h]
  child hj it h := by
    rw [items_addItemToBlock] at h
    rcases mem_of_mem_insert h with rfl | h
    exacts [hchild hj, hb.child hj it h]
  keyed hj it h := by
    rw [items_addItemToBlock] at h
    rcases hslot hj with he | ⟨hk, hi | hall⟩
    · simp [Block.items, he] at h
    · rcases mem_drop_one_of_mem_insert (.inl hi) h with rfl | h
      exacts [hk, hb.keyed hj it h]
    · rcases mem_of_mem_insert (List.mem_of_mem_drop h) with rfl | h
      exacts [hk, hall it h]

theorem length_addItemToBlock (p : Block) (kt : Item) (c : Int) :
    (addItemToBlock B p kt c).dir.length = p.dir.length + 1 := by
  have := congrArg List.length (items_addItemToBlock (B := B) p kt c)
  simp only [Block.items, List.length_map, List.length_append, List.length_take,
    List.length_cons, List.length_drop] at this
  omega

theorem BlockFits.lowerHalf (hb : BlockFits B mis j p) (hB : B ≤ 65536) (m : Int) :
    BlockFits B mis j (lowerHalf B p m) where
  space := spaceInv_lowerHalf hb.space hB m
  size_le it h := hb.size_le it (List.mem_of_mem_take (by simpa using h))
  key_le it h := hb.key_le it (List.mem_of_mem_take (by simpa using h))
  child hj it h := hb.child hj it (List.mem_of_mem_take (by simpa using h))
  keyed hj it h := by
    rw [lowerHalf_items, List.drop_take] at h
    exact hb.keyed hj it (List.mem_of_mem_take h)

/-- Past a first slot, the upper half of a split holds only what the block held past its
first. -/
theorem mem_drop_one_of_mem_upperHalf (hm : 0 < slotIndex m) {it : Item}
    (h : it ∈ (upperHalf B p m).items) : it ∈ p.items.drop 1 := by
  rw [upperHalf_items, show slotIndex m = 1 + (slotIndex m - 1) by omega, ← List.drop_drop] at h
  exact List.mem_of_mem_drop h

theorem BlockFits.upperHalf (hb : BlockFits B mis j p) (hB : B ≤ 65536) (m : Int) :
    BlockFits B mis j (upperHalf B p m) where
  space := spaceInv_upperHalf hb.space hB m
  size_le it h := hb.size_le it (List.mem_of_mem_drop (by simpa using h))
  key_le it h := hb.key_le it (List.mem_of_mem_drop (by simpa using h))
  child hj it h := hb.child hj it (List.mem_of_mem_drop (by simpa using h))
  keyed hj it h := by
    rw [upperHalf_items, List.drop_drop] at h
    have : it ∈ (p.items.drop 1).drop (slotIndex m) := by rwa [List.drop_drop, Nat.add_comm]
    exact hb.keyed hj it (List.mem_of_mem_drop this)

theorem items_nullFirstKey (p : Block) :
    (nullFirstKey p).items = p.items.set 0 (Item.formNullKey (p.itemAt dirStart).blockGivenBy) := by
  simp only [nullFirstKey]
  exact (items_setSlot _ _ _).trans (by simp [slotIndex, dirStart])

/-- `enter_key` nulls the first key of a block above the leaves that starts with a keyed child
item. -/
theorem BlockFits.nullFirstKey (hb : BlockFits B mis j p) (hB : B ≤ 65536) (hmis : 7 ≤ mis)
    (hne : 0 < p.dir.length) {k : Key} {n : Nat} (hk : p.dir[0].2 = ⟨some k, .child n⟩) :
    BlockFits B mis j (nullFirstKey p) where
  space := spaceInv_nullFirstKey hb.space hB hne hk
  size_le it h := by
    rcases List.mem_or_eq_of_mem_set (items_nullFirstKey p ▸ h) with h | rfl
    exacts [hb.size_le it h, hmis]
  key_le it h := by
    rcases List.mem_or_eq_of_mem_set (items_nullFirstKey p ▸ h) with h | rfl
    exacts [hb.key_le it h, Nat.zero_le _]
  child hj it h := by
    rcases List.mem_or_eq_of_mem_set (items_nullFirstKey p ▸ h) with h | rfl
    exacts [hb.child hj it h, ⟨_, rfl⟩]
  keyed hj it h := by
    rw [items_nullFirstKey] at h
    obtain ⟨a, l, he⟩ := List.exists_cons_of_length_pos (l := p.items) (by simpa [Block.items])
    rw [he] at h
    exact hb.keyed hj it (by simpa [he] using h)

theorem blockFits_emptyRoot (rev level : Nat) (h11 : 11 ≤ B) (hB : B ≤ 65536) :
    BlockFits B mis j (emptyRoot B rev level) where
  space := spaceInv_emptyRoot rev level h11 hB
  size_le it h := by simp [emptyRoot, compact, compactDir, Block.items] at h
  key_le it h := by simp [emptyRoot, compact, compactDir, Block.items] at h
  child _ it h := by simp [emptyRoot, compact, compactDir, Block.items] at h
  keyed _ it h := by simp [emptyRoot, compact, compactDir, Block.items] at h

/-- The faked root that opening a new table puts in the cursor: one 7-byte leaf item. -/
theorem blockFits_fakeRoot (rev : Nat) (h20 : 20 ≤ B) (hB : B ≤ 65536) (hmis : 7 ≤ mis) :
    BlockFits B mis 0 (fakeRoot B rev) where
  space := spaceInv_fakeRoot rev h20 hB
  size_le it h := by simp only [fakeRoot, Block.items, List.map, List.mem_singleton] at h; simpa [h]
  key_le it h := by
    simp only [fakeRoot, Block.items, List.map, List.mem_singleton] at h
    simp [h, Item.fakeRootItem, Item.keyOf]
  child h := absurd h (Nat.lt_irrefl 0)
  keyed h := absurd h (Nat.lt_irrefl 0)

/-! ## One split -/

/-- **One split of `add_item`**, at level `j`, of a block that fits and has no room for an item
that fits: the half the item goes to has room for it (`split_half_room`), and both halves end
non-empty and fitting; above the leaves the upper half holds only keyed child items, ready for
`enter_key` to null its first key. -/
theorem split_fits (hB : B ≤ 65536) (hmis : dirStart + 4 * D2 + 4 * mis ≤ B)
    (hb : BlockFits B mis j p) (hkt : kt.size ≤ mis) (hkey : kt.keyOf.body.length ≤ 252)
    (hchild : 0 < j → ∃ n, kt.tag = .child n)
    (hslot : 0 < j → p.dir = [] ∨ kt.key.isSome ∧ 0 < slotIndex c)
    (hfull : (p.totalFree : Int) < kt.size + D2) (seqCount m : Int)
    (hm : m = if seqCount < 0 then midPoint B p else c) (up : Bool)
    (hup : up = if seqCount < 0 then decide (m ≤ c)
      else decide (((lowerHalf B p m).totalFree : Int) < kt.size + D2))
    (c' : Int) (hc' : c' = if up = true then c - (m - dirStart) else c) :
    kt.size + D2 ≤ (if up then upperHalf B p m else lowerHalf B p m).totalFree ∧
      BlockFits B mis j
        (if up = true then lowerHalf B p m else addItemToBlock B (lowerHalf B p m) kt c) ∧
      BlockFits B mis j
        (if up = true then addItemToBlock B (upperHalf B p m) kt c' else upperHalf B p m) ∧
      0 < (if up = true then lowerHalf B p m else addItemToBlock B (lowerHalf B p m) kt c).dir.length ∧
      0 < (if up = true then addItemToBlock B (upperHalf B p m) kt c' else upperHalf B p m).dir.length ∧
      (0 < j → ∀ it ∈ (if up = true then addItemToBlock B (upperHalf B p m) kt c'
        else upperHalf B p m).items, it.key.isSome ∧ ∃ n, it.tag = .child n) := by
  obtain ⟨hroom, hlo, hhi⟩ :=
    split_half_room hB hmis hb.space hb.size_le hkt hfull seqCount c m hm up hup
  have h2 := two_le_length_of_full hmis hb.space hb.size_le hkt hfull
  -- above the leaves the item has a key and the split leaves the first slot below
  have hkeyed : 0 < j → kt.key.isSome ∧ 0 < slotIndex c := fun hj =>
    (hslot hj).resolve_left fun he => by simp [he] at h2
  have hm1 : 0 < j → 0 < slotIndex m := fun hj => by
    by_cases hs : seqCount < 0
    · obtain ⟨i, hi0, -, hmi, -, -⟩ := midPoint_splits_evenly hb.space h2 mis hb.size_le
      rw [hm, if_pos hs, hmi, slotIndex_slotOf]
      exact hi0
    · rw [hm, if_neg hs]
      exact (hkeyed hj).2
  have hupper : 0 < j → ∀ it ∈ (upperHalf B p m).items, it.key.isSome ∧ ∃ n, it.tag = .child n :=
    fun hj it h => ⟨hb.keyed hj it (mem_drop_one_of_mem_upperHalf (hm1 hj) h),
      hb.child hj it (List.mem_of_mem_drop (by simpa using h))⟩
  cases up
  · simp only [Bool.false_eq_true, if_false] at hroom hhi ⊢
    refine ⟨hroom, (hb.lowerHalf hB m).addItemToBlock hB hroom hkt hkey hchild
      (fun hj => .inr ⟨(hkeyed hj).1, .inl (hkeyed hj).2⟩), hb.upperHalf hB m,
      by rw [length_addItemToBlock]; omega, hhi trivial, hupper⟩
  · simp only [if_true] at hroom hlo ⊢
    refine ⟨hroom, hb.lowerHalf hB m, (hb.upperHalf hB m).addItemToBlock hB hroom hkt hkey hchild
      (fun hj => .inr ⟨(hkeyed hj).1, .inr fun it h => (hupper hj it h).1⟩), hlo trivial,
      by rw [length_addItemToBlock]; omega, fun hj it h => ?_⟩
    rw [items_addItemToBlock] at h
    rcases mem_of_mem_insert h with rfl | h
    exacts [⟨(hkeyed hj).1, hchild hj⟩, hupper hj it h]

/-! ## Cursors that fit -/

/-- The built-in cursor's blocks fit from the leaves to the root, in a table whose block size
and `max_item_size` leave room: `set_block_size` allows 2048 to 65536 bytes, and
`max_item_size = (block_size - DIR_START - 4 * D2) / 4` is at least the 261 bytes of the longest
separator. -/
structure CursorFits (t : Table) : Prop where
  blockSize_le : t.blockSize ≤ 65536
  maxItemSize_le : dirStart + 4 * D2 + 4 * t.maxItemSize ≤ t.blockSize
  separator_le : 261 ≤ t.maxItemSize
  block : ∀ j ≤ t.level, ∀ b, (t.C j).p = some b → BlockFits t.blockSize t.maxItemSize j b

/-- What `add_item(kt, j)` needs of its arguments: a level of the tree, an item that fits, and
above the leaves a child item that goes into an empty block or, with a key, after the first
slot. -/
structure ItemFits (t : Table) (kt : Item) (j : Nat) : Prop where
  level_le : j ≤ t.level
  size_le : kt.size ≤ t.maxItemSize
  key_le : kt.keyOf.body.length ≤ 252
  child : 0 < j → ∃ n, kt.tag = .child n
  slot : 0 < j → ∀ b, (t.C j).p = some b → b.dir = [] ∨ kt.key.isSome ∧ 0 < slotIndex (t.C j).c

/-- What an `add_item` at level `j` leaves from `t`: a cursor that fits, the same block size and
`max_item_size`, no fewer levels, the cursor below level `j` as it was, and only blocks that fit
written. -/
structure Grown (j : Nat) (t t' : Table) : Prop where
  fits : CursorFits t'
  blockSize : t'.blockSize = t.blockSize
  maxItemSize : t'.maxItemSize = t.maxItemSize
  level_le : t.level ≤ t'.level
  below : ∀ i < j, t'.C i = t.C i
  written : ∀ n b, t'.files.db n = some b →
    t.files.db n = some b ∨ ∃ i, BlockFits t.blockSize t.maxItemSize i b

theorem Grown.trans {t₁ t₂ t₃ : Table} (h₁ : Grown j t₁ t₂) (h₂ : Grown j t₂ t₃) :
    Grown j t₁ t₃ where
  fits := h₂.fits
  blockSize := h₂.blockSize.trans h₁.blockSize
  maxItemSize := h₂.maxItemSize.trans h₁.maxItemSize
  level_le := h₁.level_le.trans h₂.level_le
  below i hi := (h₂.below i hi).trans (h₁.below i hi)
  written n b hb := by
    rcases h₂.written n b hb with hb | hb
    · exact h₁.written n b hb
    · rw [h₁.blockSize, h₁.maxItemSize] at hb
      exact .inr hb

theorem Grown.mono {i : Nat} {t t' : Table} (h : Grown j t t') (hij : i ≤ j) : Grown i t t' :=
  { h with below := fun k hk => h.below k (by omega) }

/-- A step that changes no block of the files and keeps the levels up to `j`. -/
theorem Grown.of_step {t t' : Table} (h : CursorFits t') (hB : t'.blockSize = t.blockSize)
    (hm : t'.maxItemSize = t.maxItemSize) (hl : t.level ≤ t'.level)
    (hC : ∀ i < j, t'.C i = t.C i) (hdb : t'.files.db = t.files.db) : Grown j t t' :=
  ⟨h, hB, hm, hl, hC, fun _ _ hb => .inl (hdb ▸ hb)⟩

/-- What `write_block(n, b)` leaves, as far as the cursor and the files' blocks go. -/
theorem wp_writeBlock_of {Q : Unit → Table → Prop} {t : Table} (n : Nat) (b : Block)
    (h : ∀ t', t'.files.db = Function.update t.files.db n (some b) → t'.C = t.C →
      t'.level = t.level → t'.blockSize = t.blockSize → t'.maxItemSize = t.maxItemSize →
      Q () t') : Wp (writeBlock n b) Q t := by
  rw [Wp, writeBlock_spec]
  exact h _ rfl rfl rfl rfl rfl

theorem modifyCur_builtIn_C (t : Table) (j : Nat) (f : Cursor → Cursor) :
    (t.modifyCur .builtIn j f).C = Function.update t.C j (f (t.C j)) := rfl

/-- A table whose cursor blocks up to its root are old blocks of a fitting table at no higher
level, or fit. -/
theorem CursorFits.of_blocks {t t' : Table} (ht : CursorFits t)
    (hB : t'.blockSize = t.blockSize) (hm : t'.maxItemSize = t.maxItemSize)
    (hblock : ∀ i ≤ t'.level, ∀ b, (t'.C i).p = some b →
      (i ≤ t.level ∧ (t.C i).p = some b) ∨ BlockFits t.blockSize t.maxItemSize i b) :
    CursorFits t' where
  blockSize_le := hB ▸ ht.blockSize_le
  maxItemSize_le := hB ▸ hm ▸ ht.maxItemSize_le
  separator_le := hm ▸ ht.separator_le
  block i hi b hb := by
    rw [hB, hm]
    rcases hblock i hi b hb with ⟨hi', hb'⟩ | h
    exacts [ht.block i hi' b hb', h]

theorem Grown.setChanged {t t' : Table} (h : Grown j t t') (n : Nat) (c : Int) :
    Grown j t { t' with changedN := n, changedC := c } :=
  ⟨⟨h.fits.1, h.fits.2, h.fits.3, h.fits.4⟩, h.blockSize, h.maxItemSize, h.level_le, h.below,
    h.written⟩

/-- `write_block` of a block that fits. -/
theorem Grown.of_writeBlock {t t' : Table} {n i : Nat} {b : Block} (ht : CursorFits t)
    (hb : BlockFits t.blockSize t.maxItemSize i b)
    (hdb : t'.files.db = Function.update t.files.db n (some b)) (hC : t'.C = t.C)
    (hl : t'.level = t.level) (hB : t'.blockSize = t.blockSize)
    (hm : t'.maxItemSize = t.maxItemSize) : Grown j t t' where
  fits := ht.of_blocks hB hm fun i hi b hb => .inl ⟨hl ▸ hi, hC ▸ hb⟩
  blockSize := hB
  maxItemSize := hm
  level_le := hl.ge
  below i _ := by rw [hC]
  written n' b' h := by
    rw [hdb, Function.update_apply] at h
    split_ifs at h
    · cases h; exact .inr ⟨i, hb⟩
    · exact .inl h

/-- The key of any slot of a block whose keys have at most 252 bytes. -/
theorem keyOf_itemAt_le {b : Block} (h : ∀ it ∈ b.items, it.keyOf.body.length ≤ 252) (c : Int) :
    (b.itemAt c).keyOf.body.length ≤ 252 := by
  unfold Block.itemAt
  rw [List.getD_eq_getElem?_getD]
  cases he : b.dir[slotIndex c]? with
  | none => decide
  | some e => exact h e.2 (List.mem_map_of_mem _ (List.getElem?_mem he))

/-! ## Every level -/

section Levels

/-- What the recursive `add_item` that `split_root` and `enter_key` are given must do. -/
def AddItemFits (addItem : Item → Nat → M Unit) : Prop :=
  ∀ kt j t, CursorFits t → ItemFits t kt j → Wp (addItem kt j) (fun _ t' => Grown j t t') t

variable {addItem : Item → Nat → M Unit} (h : AddItemFits addItem) {t : Table}
include h

/-- `split_root` grows the tree by a level whose root is an empty block, and gives that block
the null-keyed item for the old root. -/
theorem splitRoot_fits (ht : CursorFits t) (splitN : Nat) :
    Wp (splitRoot addItem splitN)
      (fun _ t' => Grown (t.level + 1) t t' ∧ t.level + 1 ≤ t'.level) t := by
  simp only [splitRoot, wp_bind, wp_modify, wp_get, wp_ite, wp_throw, wp_pure,
    wp_nextFreeBlock, wp_modifyCur]
  refine ⟨fun _ => trivial, fun _ => ?_⟩
  have h11 : 11 ≤ t.blockSize := by
    have := ht.maxItemSize_le; simp only [dirStart, D2] at this; omega
  refine Wp.mono (h _ _ _ ?fits ⟨by simp, ?_, by simp [Item.formNullKey, Item.keyOf],
    fun _ => ⟨_, rfl⟩, fun _ b hb => .inl ?_⟩) fun _ t' hg =>
      ⟨(Grown.of_step (t := t) ?fits rfl rfl (by simp) (fun i hi => ?_) rfl).trans hg,
        by simpa using hg.level_le⟩
  case fits =>
    refine ht.of_blocks rfl rfl fun i hi b hb => ?_
    simp only [modifyCur_builtIn_C, Function.update_apply] at hb
    split_ifs at hb with hi'
    · cases hb
      exact .inr (blockFits_emptyRoot _ _ h11 ht.blockSize_le)
    · exact .inl ⟨by simp at hi; omega, hb⟩
  · simpa using ht.separator_le.trans' (by decide)
  · simp only [modifyCur_builtIn_C, Function.update_same, Option.some.injEq] at hb
    simp [← hb, emptyRoot, compact, compactDir]
  · simp only [modifyCur_builtIn_C, Function.update_apply]
    rw [if_neg (by omega)]

/-- `enter_key` at level `j ≥ 1`: above level 1 it nulls the first key of the block below, the
upper half of the split, which holds keyed child items; then it hands `add_item` a separator of
at most 261 bytes to go after the slot `find_in_block` finds. -/
theorem enterKey_fits (ht : CursorFits t) {j : Nat} (hj : 0 < j) (hjl : j ≤ t.level)
    {prevkey newkey : Key} (hnew : newkey.body.length ≤ 252)
    (hup : 1 < j → ∃ b, (t.C (j - 1)).p = some b ∧ 0 < b.dir.length ∧
      ∀ it ∈ b.items, it.key.isSome ∧ ∃ n, it.tag = .child n) :
    Wp (enterKey addItem j prevkey newkey) (fun _ t' => Grown (j - 1) t t') t := by
  simp only [enterKey, wp_bind, wp_get, wp_ite, wp_bufferOf, wp_modifyCur, wp_pure]
  generalize hitem : separatorItem j prevkey newkey
    (t.C (j - 1)).block = item
  have hsize : item.size ≤ t.maxItemSize := by
    rw [← hitem, separatorItem, Item.size_setKeyAndBlock]; have := ht.separator_le; omega
  have hkey : item.keyOf.body.length ≤ 252 := by
    simp only [← hitem, separatorItem, Item.setKeyAndBlock, Item.keyOf, Option.getD_some,
      List.length_take]
    omega
  -- the separator goes after the slot `find_in_block` finds, at least `DIR_START`
  have cont : ∀ t₁, CursorFits t₁ → Grown (j - 1) t t₁ → t₁.level = t.level → ∀ q,
      (t₁.C j).p = some q → Wp (addItem item j) (fun _ t' => Grown (j - 1) t t')
        (t₁.modifyCur .builtIn j fun x =>
          { x with c := findInBlock q item.keyOf false 0 + D2, rewrite := true }) := by
    intro t₁ ht₁ hg₁ hl₁ q hq
    have hfits : CursorFits (t₁.modifyCur .builtIn j fun x =>
        { x with c := findInBlock q item.keyOf false 0 + D2, rewrite := true }) :=
      ht₁.of_blocks rfl rfl fun i hi b hb => .inl ⟨by simpa using hi, by
        simp only [modifyCur_builtIn_C, Function.update_apply] at hb
        split_ifs at hb with hij
        · subst hij; exact hb
        · exact hb⟩
    refine Wp.mono (h _ _ _ hfits ⟨by simp [hl₁, hjl], hsize.trans hg₁.maxItemSize.symm.le, hkey,
      fun _ => ⟨_, by rw [← hitem]; rfl⟩, fun _ b hb => .inr ⟨by rw [← hitem]; rfl, ?_⟩⟩)
      fun _ t' hg => hg₁.trans ((Grown.of_step (t := t₁) hfits rfl rfl le_rfl (fun i hi => ?_)
        rfl).trans (hg.mono (by omega)))
    · have := dirStart_le_findInBlock q item.keyOf 0
      simp only [modifyCur_builtIn_C, Function.update_same, slotIndex, dirStart, D2] at this ⊢
      omega
    · simp only [modifyCur_builtIn_C, Function.update_apply]
      rw [if_neg (by omega)]
  have hrefl : Grown (j - 1) t t := Grown.of_step ht rfl rfl le_rfl (fun _ _ => rfl) rfl
  refine ⟨fun hj1 b hb => ?_, fun hj1 b hb => cont t ht hrefl rfl b hb⟩
  -- above level 1: null the first key of the block below
  obtain ⟨b', hb', hne, hall⟩ := hup hj1
  obtain rfl : b = b' := Option.some.inj (hb.symm.trans hb')
  have hfirst := hall _ (List.mem_map_of_mem (·.2) (List.getElem_mem hne))
  obtain ⟨k, hk⟩ := Option.isSome_iff_exists.1 hfirst.1
  obtain ⟨n, hn⟩ := hfirst.2
  have hkn : b.dir[0].2 = ⟨some k, .child n⟩ := by
    revert hk hn; generalize b.dir[0].2 = it; intro hk hn; cases it; simp_all
  have hfits : CursorFits (t.modifyCur .builtIn (j - 1) fun x =>
      { x with p := some (nullFirstKey b) }) :=
    ht.of_blocks rfl rfl fun i hi b₁ hb₁ => by
      simp only [modifyCur_builtIn_C, Function.update_apply] at hb₁
      split_ifs at hb₁ with hij
      · cases hb₁; subst hij
        exact .inr ((ht.block _ (by omega) b hb).nullFirstKey ht.blockSize_le
          (by have := ht.separator_le; omega) hne hkn)
      · exact .inl ⟨by simpa using hi, hb₁⟩
  exact fun q hq => cont _ hfits (Grown.of_step hfits rfl rfl (by simp) (fun i hi => by
    simp only [modifyCur_builtIn_C, Function.update_apply]; rw [if_neg (by omega)]) rfl) (by simp) q hq

end Levels

/-- **`add_item` has room at every level.** -/
theorem addItem_fits : ∀ fuel, AddItemFits (addItem fuel)
  | 0 => fun _ _ _ _ _ => by simp only [addItem, wp_throw]
  | fuel + 1 => fun kt j t ht hkt => by
    have ih := addItem_fits fuel
    simp only [addItem, wp_bind, wp_get, wp_bufferOf, wp_ite, wp_nextFreeBlock, wp_modifyCur,
      wp_pure, wp_modify]
    intro p hp
    have hpf : BlockFits t.blockSize t.maxItemSize j p := ht.block j hkt.level_le p hp
    refine ⟨fun hfull => ?_, fun hroom => ?_⟩
    · generalize hm : (if t.seqCount < 0 then midPoint t.blockSize p else (t.C j).c) = m
      generalize hup : (if t.seqCount < 0 then decide (m ≤ (t.C j).c)
        else decide (((lowerHalf t.blockSize p m).totalFree : Int) < kt.size + D2)) = up
      generalize hc' : (if up = true then (t.C j).c - (m - dirStart) else (t.C j).c) = c'
      generalize hlo : (if up = true then lowerHalf t.blockSize p m
        else addItemToBlock t.blockSize (lowerHalf t.blockSize p m) kt (t.C j).c) = lower
      generalize hhi : (if up = true then addItemToBlock t.blockSize (upperHalf t.blockSize p m) kt c'
        else upperHalf t.blockSize p m) = upper
      obtain ⟨-, hlower, hupper, -, hne, hkeyed⟩ := split_fits ht.blockSize_le ht.maxItemSize_le
        hpf hkt.size_le hkt.key_le hkt.child (fun hj => hkt.slot hj p hp) hfull t.seqCount m hm.symm
        up hup.symm c' hc'.symm
      rw [hlo] at hlower
      rw [hhi] at hupper hne hkeyed
      -- the cursor with the upper half at level `j`
      have hfits3 : CursorFits ((({ t with base := t.base.nextFreeBlock.2 } : Table).modifyCur
          .builtIn j fun x => { x with n := some t.base.nextFreeBlock.1 }).modifyCur
          .builtIn j fun x => { x with p := some upper }) := ht.of_blocks rfl rfl fun i hi b hb => by
        simp only [modifyCur_builtIn_C, Function.update_apply] at hb
        split_ifs at hb with hij
        · cases hb; subst hij; exact .inr hupper
        · exact .inl ⟨by simpa using hi, hb⟩
      have hg3 : Grown j t _ := Grown.of_step hfits3 rfl rfl le_rfl (fun i hi => by
        simp [modifyCur_builtIn_C, Function.update_apply, show i ≠ j by omega]) rfl
      refine wp_writeBlock_of _ _ fun t₄ hdb hC hl hB hM => ?_
      have hg4 := hg3.trans (Grown.of_writeBlock (j := j) hfits3 hlower hdb hC hl hB hM)
      have hC4 : (t₄.C j).p = some upper := by rw [hC]; simp [modifyCur_builtIn_C]
      -- `enter_key` one level up, from wherever `split_root` leaves the table
      have cont : ∀ t₅, Grown j t t₅ → (t₅.C j).p = some upper → j + 1 ≤ t₅.level →
          Wp (enterKey (addItem fuel) (j + 1) (lower.itemAt (lower.dirEnd - D2)).keyOf
            (upper.itemAt dirStart).keyOf) (fun _ t₆ => Grown j t t₆) t₅ :=
        fun t₅ hg₅ hC₅ hl₅ => Wp.mono (enterKey_fits ih hg₅.fits (Nat.succ_pos j) hl₅
          (keyOf_itemAt_le hupper.key_le _) fun hj => ⟨upper, hC₅, hne, hkeyed (by omega)⟩)
          fun _ t₆ hg₆ => hg₅.trans (by simpa using hg₆)
      have last : ∀ t₆, Grown j t t₆ → Wp (if j = 0 then modify fun u => { u with
          changedN := (if up = true then t.base.nextFreeBlock.1 else (t.C j).block),
          changedC := c' } else pure PUnit.unit) (fun _ t' => Grown j t t') t₆ := fun t₆ hg => by
        simp only [wp_ite, wp_modify, wp_pure]
        exact ⟨fun _ => hg.setChanged _ _, fun _ => hg⟩
      simp only [wp_bind, wp_get, wp_ite, wp_pure]
      refine ⟨fun hjl => Wp.mono (splitRoot_fits ih hg4.fits _) fun _ t₅ ⟨hg₅, hl₅⟩ => ?_,
        fun hjl => Wp.mono (cont t₄ hg4 hC4 (by have := hkt.level_le; have := hg4.level_le; omega))
          fun _ t₆ hg => last t₆ hg⟩
      simp only [wp_bind]
      exact Wp.mono (cont t₅ (hg4.trans (hg₅.mono (by omega))) (by rw [hg₅.below j (by omega), hC4])
        (by omega)) fun _ t₆ hg => last t₆ hg
    · have hroom' : kt.size + D2 ≤ p.totalFree := by omega
      have hfits : CursorFits (t.modifyCur .builtIn j fun x =>
          { x with p := some (addItemToBlock t.blockSize p kt (t.C j).c) }) :=
        ht.of_blocks rfl rfl fun i hi b hb => by
          simp only [modifyCur_builtIn_C, Function.update_apply] at hb
          split_ifs at hb with hij
          · cases hb; subst hij
            exact .inr (hpf.addItemToBlock ht.blockSize_le hroom' hkt.size_le hkt.key_le hkt.child
              fun hj => (hkt.slot hj p hp).imp_right fun h => ⟨h.1, .inl h.2⟩)
          · exact .inl ⟨by simpa using hi, hb⟩
      have hg : Grown j t _ := Grown.of_step hfits rfl rfl le_rfl (fun i hi => by
        simp [modifyCur_builtIn_C, Function.update_apply, show i ≠ j by omega]) rfl
      exact ⟨fun _ => hg.setChanged _ _, fun _ => hg⟩

/-! ## `add_item` never overfills a block -/

/-- **`add_item` never hands `add_item_to_block` a block without room.**  In a block of at most
65536 bytes with `4 * max_item_size + DIR_START + 4 * D2 ≤ block_size`, when a block with the
space invariant and items of at most `max_item_size` bytes has no room for an item of at most
`max_item_size` bytes, the half of the split that `add_item` picks, after a mid-point split
(`seq_count < 0`) or one at the insertion slot, has `TOTAL_FREE ≥` the item's size `+ 2`; after
the optional `compact`, `MAX_FREE` is that large too, and both halves end non-empty.  At every
level: from a cursor whose blocks fit, `add_item` of an item that fits its level, with all the
splits and separators it makes up to `split_root`, leaves a cursor whose blocks fit and writes
only blocks that fit, so each block it fills on the way fits and the first part applies. -/
theorem addItem_has_room :
    (∀ (B mis : Nat) (p : Block) (kt : Item) (seqCount c : Int), B ≤ 65536 →
      dirStart + 4 * D2 + 4 * mis ≤ B → SpaceInv B p → (∀ it ∈ p.items, it.size ≤ mis) →
      kt.size ≤ mis → (p.totalFree : Int) < kt.size + D2 →
      let m := if seqCount < 0 then midPoint B p else c
      let up := if seqCount < 0 then decide (m ≤ c)
        else decide (((lowerHalf B p m).totalFree : Int) < kt.size + D2)
      let half := if up then upperHalf B p m else lowerHalf B p m
      kt.size + D2 ≤ half.totalFree ∧ kt.size + D2 ≤ (makeRoom B half (kt.size + D2)).maxFree ∧
        0 < (if up then lowerHalf B p m else addItemToBlock B (lowerHalf B p m) kt c).dir.length ∧
        0 < (if up then addItemToBlock B (upperHalf B p m) kt (c - (m - dirStart))
          else upperHalf B p m).dir.length) ∧
    ∀ fuel, AddItemFits (addItem fuel) := by
  refine ⟨fun B mis p kt seqCount c hB hmis h hp hkt hfull => ?_, addItem_fits⟩
  dsimp only
  generalize hm : (if seqCount < 0 then midPoint B p else c) = m
  generalize hup : (if seqCount < 0 then decide (m ≤ c)
    else decide (((lowerHalf B p m).totalFree : Int) < kt.size + D2)) = up
  obtain ⟨hroom, hlo, hhi⟩ := split_half_room hB hmis h hp hkt hfull seqCount c m hm.symm up hup.symm
  cases up <;> simp only [Bool.false_eq_true, if_true, if_false, length_addItemToBlock] at hroom hlo hhi ⊢
  · exact ⟨hroom, (makeRoom_spec (spaceInv_lowerHalf h hB m) hB hroom).2.2.2.2.2, by omega,
      hhi trivial⟩
  · exact ⟨hroom, (makeRoom_spec (spaceInv_upperHalf h hB m) hB hroom).2.2.2.2.2, hlo trivial,
      by omega⟩

/-- A leaf of four 20-byte items, with one byte free in a 100-byte block. -/
def fullLeaf : Block :=
  compact 100 ⟨1, 0, 0, 0, (List.range 4).map fun i =>
    (0, ⟨some ⟨[i.toUInt8], 1⟩, .chunk 1 false (List.replicate 12 0)⟩)⟩

/-- A 20-byte leaf item. -/
def item20 : Item := ⟨some ⟨[9], 1⟩, .chunk 1 false (List.replicate 12 0)⟩

theorem fullLeaf_split_has_room :
    SpaceInv 100 fullLeaf ∧ (fullLeaf.totalFree : Int) < item20.size + D2 ∧
      let m := if (-1 : Int) < 0 then midPoint 100 fullLeaf else 13
      let up := if (-1 : Int) < 0 then decide (m ≤ 13)
        else decide (((lowerHalf 100 fullLeaf m).totalFree : Int) < item20.size + D2)
      let half := if up then upperHalf 100 fullLeaf m else lowerHalf 100 fullLeaf m
      item20.size + D2 ≤ half.totalFree ∧
        item20.size + D2 ≤ (makeRoom 100 half (item20.size + D2)).maxFree ∧
        0 < (if up then lowerHalf 100 fullLeaf m
          else addItemToBlock 100 (lowerHalf 100 fullLeaf m) item20 13).dir.length ∧
        0 < (if up then addItemToBlock 100 (upperHalf 100 fullLeaf m) item20 (13 - (m - dirStart))
          else upperHalf 100 fullLeaf m).dir.length :=
  have h : SpaceInv 100 fullLeaf := spaceInv_compact (by decide) (by decide)
  ⟨h, by decide, addItem_has_room.1 100 20 fullLeaf item20 (-1) 13 (by decide) (by decide) h
    (by decide) (by decide) (by decide)⟩

/-- The table `create_and_open(2048)` leaves has a cursor that fits, its faked root, so `add_item`
of a leaf item there keeps the cursor fitting and writes only blocks that fit. -/
theorem createdSample_add_grows :
    CursorFits createdSample ∧ ItemFits createdSample item20 0 ∧
      Wp (addItem 2 item20 0) (fun _ t' => Grown 0 createdSample t') createdSample :=
  have hl : createdSample.level = 0 := by decide
  have hp : (createdSample.C 0).p = some (fakeRoot 2048 1) := by decide
  have hs : createdSample.blockSize = 2048 ∧ createdSample.maxItemSize = 507 := by decide
  have hc : CursorFits createdSample := ⟨by decide, by decide, by decide, fun j hj b hb => by
    obtain rfl : j = 0 := Nat.le_zero.1 (hl ▸ hj)
    rw [hp, Option.some.injEq] at hb
    rw [← hb, hs.1, hs.2]
    exact blockFits_fakeRoot 1 (by decide) (by decide) (by decide)⟩
  have hi : ItemFits createdSample item20 0 :=
    ⟨Nat.zero_le _, by decide, by decide, fun h => absurd h (Nat.lt_irrefl 0),
      fun h => absurd h (Nat.lt_irrefl 0)⟩
  ⟨hc, hi, addItem_has_room.2 2 item20 0 createdSample hc hi⟩

end FlintBtree
