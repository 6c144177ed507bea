import FlintBtree.Traverse

/-!
# Scanning the leaves

A cursor on a leaf item of an unchanging snapshot walks the leaves with `next_default(C_, 0)`
and `prev_default(C_, 0)`: each call moves it to the next or the previous leaf item, or returns
false at the end and changes nothing.  A scan that starts at the first leaf item and steps until
`next_default` returns false therefore reads every leaf item once, in strictly increasing key
order; one that starts at the last and steps back reads them in reverse.

## Main Definitions

* `Table.leafItem` — the leaf item a cursor is on.
* `scanNext`, `scanPrev` — a client's scan that reads the item under the cursor and steps.

## Main Results

* `scanNext_spec`, `scanPrev_spec` — a scan reads the leaf items from the cursor's on.
* `cursor_walks_leaves_in_key_order` — **the two steps walk the leaves of a snapshot in key
  order.**
* `next_default_rejects_newer_leaf` — without the revision order, `next_default` raises
  `DatabaseModifiedError` on a tree that is otherwise well formed.

## Design Notes

The scans are the loop a client of the table writes around `next` and `prev`, bounded by the
number of items it reads; the positions they are stated with are those of `Traverse`.
-/

namespace FlintBtree

/-- The leaf item a cursor is on: the item at slot `C_[0].c` of the leaf it holds. -/
def Table.leafItem (t : Table) (r : CursorRef) : Option Item :=
  (t.cur r 0).p.map fun b => b.itemAt (t.cur r 0).c

/-- A client's scan forwards: the leaf item under the cursor, then the item each
`next_default(C_, 0)` reaches, until one returns false or `k` items are read. -/
def scanNext (r : CursorRef) : Nat → M (List Item)
  | 0 => pure []
  | k + 1 => do
    let t ← get
    if ← nextDefault r (t.level + 1) 0 then return (t.leafItem r).toList ++ (← scanNext r k)
    else return (t.leafItem r).toList

/-- A client's scan backwards, with `prev_default(C_, 0)`. -/
def scanPrev (r : CursorRef) : Nat → M (List Item)
  | 0 => pure []
  | k + 1 => do
    let t ← get
    if ← prevDefault r (t.level + 1) 0 then return (t.leafItem r).toList ++ (← scanPrev r k)
    else return (t.leafItem r).toList

section Leaves

variable {v : View} {L R : Nat} {t : Table} {r : CursorRef} {pos : Nat → Nat}

/-- A cursor whose levels are a path of the tree is on the leaf item at its level-0 position. -/
theorem View.PathFrom.leafItem (h : v.PathFrom L R (t.cur r) pos 0) :
    t.leafItem r = (v.leaves L R)[pos 0]? := by
  obtain ⟨n, b, hq, hb, -, hp, hlo, hhi, hc⟩ := h.2 0 le_rfl (Nat.zero_le L)
  simp only [Nat.zero_add] at hq hlo hhi hc
  have hi : pos 0 - v.start L R 0 (pos 1) < b.dir.length := by omega
  have hst : v.start L R 0 (pos 1) =
      (((v.blocksAt L R 0).take (pos 1)).map fun x => (v.items 0 x).length).sum := by
    simp [View.start]
  have e := getElem?_flatMap_start _ (v.items 0) hq (by simpa [View.width, hb] using hi)
  rw [← hst, Nat.add_sub_cancel' hlo, ← v.leaves_eq, v.items_getElem? hb hi] at e
  rw [Table.leafItem, hp, hc, e]
  rfl

theorem View.Stepped.leafItem {p : Nat} {t' : Table} (h : v.Stepped L R r t 0 p t') :
    t'.leafItem r = (v.leaves L R)[p]? := by
  obtain ⟨-, pos', hpath, rfl, -⟩ := h
  exact hpath.leafItem

/-- The leaf items of the snapshot are in strictly increasing key order. -/
theorem Snapshot.leaves_sorted (hs : Snapshot v L R) :
    (v.leaves L R).Pairwise fun x y => x.keyOf.lt y.keyOf = true :=
  hs.tree.sorted.1.imp fun h => (Key.lt_iff_rank_lt _ _).2 h

/-- `next_default(C_, 0)` as `next` calls it: a step to the next leaf item, or false at the
last. -/
theorem nextDefault_leaf (hs : Snapshot v L R) (ht : Shows t r v L R)
    (hpath : v.PathFrom L R (t.cur r) pos 0) :
    Ok (nextDefault r (t.level + 1) 0) (fun a t' => if pos 0 + 1 < (v.leaves L R).length
      then a = true ∧ v.Stepped L R r t 0 (pos 0 + 1) t' else a = false ∧ t' = t) t := by
  rw [ht.level, ← v.total_zero]
  exact nextDefault_spec hs L 0 (L + 1) t pos (Nat.zero_add L) (Nat.lt_succ_self L) ht hpath
    fun h => absurd h (Nat.lt_irrefl 0)

/-- `prev_default(C_, 0)` as `prev` calls it: a step to the previous leaf item, or false at the
first. -/
theorem prevDefault_leaf (hs : Snapshot v L R) (ht : Shows t r v L R)
    (hpath : v.PathFrom L R (t.cur r) pos 0) :
    Ok (prevDefault r (t.level + 1) 0) (fun a t' => if 0 < pos 0
      then a = true ∧ v.Stepped L R r t 0 (pos 0 - 1) t' else a = false ∧ t' = t) t := by
  rw [ht.level]
  exact prevDefault_spec hs L 0 (L + 1) t pos (Nat.zero_add L) (Nat.lt_succ_self L) ht hpath
    fun h => absurd h (Nat.lt_irrefl 0)

theorem View.PathFrom.lt_length (h : v.PathFrom L R (t.cur r) pos 0) :
    pos 0 < (v.leaves L R).length := by
  have := h.leafItem
  rw [Table.leafItem] at this
  obtain ⟨n, b, -, -, -, hp, -⟩ := h.2 0 le_rfl (Nat.zero_le L)
  rw [hp] at this
  exact (List.getElem?_eq_some_iff.1 this.symm).1

/-- **A forward scan reads the leaf items from the cursor's on, in order.** -/
theorem scanNext_spec (hs : Snapshot v L R) :
    ∀ (k : Nat) (t : Table) (pos : Nat → Nat), Shows t r v L R →
      v.PathFrom L R (t.cur r) pos 0 →
      Ok (scanNext r k) (fun items _ => items = ((v.leaves L R).drop (pos 0)).take k) t
  | 0, _, _, _, _ => by simp [scanNext]
  | k + 1, t, pos, ht, hpath => by
    have hlt := hpath.lt_length
    rw [scanNext, ok_bind, ok_get, ok_bind, hpath.leafItem, List.getElem?_eq_getElem hlt,
      List.drop_eq_getElem_cons hlt, List.take_succ_cons]
    refine Ok.mono (nextDefault_leaf hs ht hpath) fun a t' h => ?_
    split_ifs at h with h1
    · obtain ⟨rfl, hs', pos', hpath', hpos', -⟩ := h
      rw [if_pos rfl, ok_bind]
      refine Ok.mono (scanNext_spec hs k t' pos' hs' hpath') fun items _ h => ?_
      rw [ok_pure, h, hpos']
      rfl
    · obtain ⟨rfl, rfl⟩ := h
      rw [if_neg Bool.false_ne_true, ok_pure, List.drop_eq_nil_of_le (by omega)]
      simp

/-- **A backward scan reads the leaf items from the cursor's back, in reverse order.** -/
theorem scanPrev_spec (hs : Snapshot v L R) :
    ∀ (k : Nat) (t : Table) (pos : Nat → Nat), Shows t r v L R →
      v.PathFrom L R (t.cur r) pos 0 →
      Ok (scanPrev r k) (fun items _ => items = ((v.leaves L R).take (pos 0 + 1)).reverse.take k) t
  | 0, _, _, _, _ => by simp [scanPrev]
  | k + 1, t, pos, ht, hpath => by
    have hlt := hpath.lt_length
    have hrev : ((v.leaves L R).take (pos 0 + 1)).reverse =
        (v.leaves L R)[pos 0] :: ((v.leaves L R).take (pos 0)).reverse := by
      rw [List.take_succ, List.getElem?_eq_getElem hlt, Option.toList_some, List.reverse_append]
      rfl
    rw [scanPrev, ok_bind, ok_get, ok_bind, hpath.leafItem, List.getElem?_eq_getElem hlt, hrev,
      List.take_succ_cons]
    refine Ok.mono (prevDefault_leaf hs ht hpath) fun a t' h => ?_
    split_ifs at h with h1
    · obtain ⟨rfl, hs', pos', hpath', hpos', -⟩ := h
      rw [if_pos rfl, ok_bind]
      refine Ok.mono (scanPrev_spec hs k t' pos' hs' hpath') fun items _ h => ?_
      rw [ok_pure, h, hpos', Nat.sub_add_cancel (by omega)]
      rfl
    · obtain ⟨rfl, rfl⟩ := h
      have h0 : (v.leaves L R).take (pos 0) = [] := List.take_eq_nil_iff.2 (.inl (by omega))
      rw [if_neg Bool.false_ne_true, ok_pure, h0]
      simp

end Leaves

/-! ## Walking the leaves -/

section Walk

variable {v : View} {L R : Nat} {t : Table} {r : CursorRef} {pos : Nat → Nat}

/-- **`next_default` and `prev_default` walk the leaves of an unchanging snapshot in key order.**
Take a tree with the B-tree invariant in which no block is reached twice and no child is newer
than its parent, shown unchanged through cursor `C_`, and let `C_` be a path of it from the root
to the leaf item at position `pos 0`: the cursor is on that item.  `next_default(C_, 0)` returns
false exactly at the last leaf item and then leaves the table as it was; otherwise it returns true
with `C_` a path to the next item.  `prev_default(C_, 0)` does the same backwards.  A scan from
the first item reads the leaf items, which increase strictly, and a scan from the last reads them
in reverse. -/
theorem cursor_walks_leaves_in_key_order (hs : Snapshot v L R) (ht : Shows t r v L R)
    (hpath : v.PathFrom L R (t.cur r) pos 0) :
    t.leafItem r = (v.leaves L R)[pos 0]? ∧
      Ok (nextDefault r (t.level + 1) 0) (fun a t' => if pos 0 + 1 < (v.leaves L R).length
        then a = true ∧ v.Stepped L R r t 0 (pos 0 + 1) t' ∧
          t'.leafItem r = (v.leaves L R)[pos 0 + 1]?
        else a = false ∧ t' = t) t ∧
      Ok (prevDefault r (t.level + 1) 0) (fun a t' => if 0 < pos 0
        then a = true ∧ v.Stepped L R r t 0 (pos 0 - 1) t' ∧
          t'.leafItem r = (v.leaves L R)[pos 0 - 1]?
        else a = false ∧ t' = t) t ∧
      (pos 0 = 0 → ∀ k, (v.leaves L R).length ≤ k →
        Ok (scanNext r k) (fun items _ => items = v.leaves L R) t) ∧
      (pos 0 + 1 = (v.leaves L R).length → ∀ k, (v.leaves L R).length ≤ k →
        Ok (scanPrev r k) (fun items _ => items = (v.leaves L R).reverse) t) ∧
      (v.leaves L R).Pairwise fun x y => x.keyOf.lt y.keyOf = true := by
  refine ⟨hpath.leafItem, (nextDefault_leaf hs ht hpath).mono fun a t' h => ?_,
    (prevDefault_leaf hs ht hpath).mono fun a t' h => ?_, fun h0 k hk => ?_, fun hl k hk => ?_,
    hs.leaves_sorted⟩
  · split_ifs at h ⊢
    · exact ⟨h.1, h.2, h.2.leafItem⟩
    · exact h
  · split_ifs at h ⊢
    · exact ⟨h.1, h.2, h.2.leafItem⟩
    · exact h
  · refine (scanNext_spec hs k t pos ht hpath).mono fun items _ h => ?_
    rw [h, h0, List.drop_zero, List.take_of_length_le hk]
  · refine (scanPrev_spec hs k t pos ht hpath).mono fun items _ h => ?_
    rw [h, hl, List.take_length, List.take_of_length_le (by simpa using hk)]

end Walk

/-! ## A snapshot of two leaves -/

/-- The leaf of revision 1 holding key `a`. -/
def twoLeavesA : Block :=
  addItemToBlock 2048 (emptyRoot 2048 1 0) ⟨some ⟨[97], 1⟩, .chunk 1 false [1]⟩ dirStart

/-- The leaf holding key `m`, stamped with revision `rev`. -/
def twoLeavesM (rev : Nat) : Block :=
  { addItemToBlock 2048 (emptyRoot 2048 1 0) ⟨some ⟨[109], 1⟩, .chunk 1 false [2]⟩ dirStart with
    revision := rev }

/-- The root of revision 1 over the two leaves, blocks 0 and 1, with separator `m`. -/
def twoLeavesRoot : Block :=
  addItemToBlock 2048 (addItemToBlock 2048 (emptyRoot 2048 1 1) (Item.formNullKey 0) dirStart)
    ⟨some ⟨[109], 1⟩, .child 1⟩ (dirStart + D2)

/-- The data file: the two leaves and the root, block 2. -/
def twoLeavesFiles (rev : Nat) : Files :=
  ⟨fun n => if n = 0 then some twoLeavesA else if n = 1 then some (twoLeavesM rev) else
    if n = 2 then some twoLeavesRoot else none, none, none, none⟩

/-- A reader's cursor on the first leaf item: the root at level 1, the first leaf at level 0. -/
def twoLeavesCursor (j : Nat) : Cursor :=
  if j = 0 then ⟨some twoLeavesA, slotOf 0, some 0, false⟩
  else if j = 1 then ⟨some twoLeavesRoot, slotOf 0, some 2, false⟩ else .init

/-- A read-only table at revision 1 over the files, its root at level 1, with the cursor. -/
def twoLeavesReader (rev : Nat) : Table :=
  { Table.new (twoLeavesFiles rev) true .dontCompress with
    revisionNumber := 1, blockSize := 2048, level := 1, root := 2, userC := twoLeavesCursor }

/-- The blocks the reader's cursor finds. -/
def twoLeavesView (rev : Nat) : View := (twoLeavesReader rev).look

theorem twoLeaves_tree (rev : Nat) : Subtree (twoLeavesView rev) 1 none none 2 := by
  have hd : (twoLeavesM rev).dir = (twoLeavesM 0).dir := rfl
  exact ⟨twoLeavesRoot, rfl, rfl, ⟨twoLeavesA, rfl, rfl, by decide, by decide, by decide⟩, by decide,
    ⟨twoLeavesM rev, rfl, rfl, by rw [hd]; decide, by simp only [Block.items, hd]; decide,
      by simp only [Block.items, hd]; decide⟩⟩

theorem twoLeaves_nodup (rev : Nat) : ((twoLeavesView rev).treeBlocks 1 2).Nodup :=
  of_decide_eq_true rfl

theorem twoLeaves_shows (rev : Nat) :
    Shows (twoLeavesReader rev) .user (twoLeavesView rev) 1 2 :=
  ⟨rfl, fun _ _ _ _ => rfl, fun k h => absurd h (by
    simp only [Table.cur, twoLeavesReader, twoLeavesCursor]; split_ifs <;> decide),
    fun h => absurd h (by decide)⟩

theorem twoLeaves_path (rev : Nat) :
    (twoLeavesView rev).PathFrom 1 2 ((twoLeavesReader rev).cur .user) (fun _ => 0) 0 := by
  refine ⟨rfl, fun k _ hk => ?_⟩
  obtain rfl | rfl : k = 0 ∨ k = 1 := by omega
  · exact ⟨0, twoLeavesA, rfl, rfl, rfl, rfl, Nat.le_of_ble_eq_true rfl, Nat.le_of_ble_eq_true rfl,
      rfl⟩
  · exact ⟨2, twoLeavesRoot, rfl, rfl, rfl, rfl, Nat.le_of_ble_eq_true rfl,
      Nat.le_of_ble_eq_true rfl, rfl⟩

/-- The reader of the two leaves, all of revision 1, scans both, `a` then `m`. -/
theorem twoLeaves_scan :
    Snapshot (twoLeavesView 1) 1 2 ∧ Shows (twoLeavesReader 1) .user (twoLeavesView 1) 1 2 ∧
      (twoLeavesView 1).PathFrom 1 2 ((twoLeavesReader 1).cur .user) (fun _ => 0) 0 ∧
      Ok (scanNext .user 2) (fun items _ => items = (twoLeavesView 1).leaves 1 2)
        (twoLeavesReader 1) :=
  have hs : Snapshot (twoLeavesView 1) 1 2 := ⟨twoLeaves_tree 1, twoLeaves_nodup 1, by decide⟩
  ⟨hs, twoLeaves_shows 1, twoLeaves_path 1, (cursor_walks_leaves_in_key_order hs
    (twoLeaves_shows 1) (twoLeaves_path 1)).2.2.2.1 rfl 2 (by decide)⟩

/-- **A newer leaf stops the walk.**  In the snapshot of two leaves with the second of revision 2
under a root of revision 1, the tree has the B-tree invariant, no block is reached twice, and the
reader's cursor is a path to the first leaf item, which is not the last; yet `next_default(C_, 0)`
raises `DatabaseModifiedError` where it should step to key `m`. -/
theorem next_default_rejects_newer_leaf :
    Subtree (twoLeavesView 2) 1 none none 2 ∧ ((twoLeavesView 2).treeBlocks 1 2).Nodup ∧
      Shows (twoLeavesReader 2) .user (twoLeavesView 2) 1 2 ∧
      (twoLeavesView 2).PathFrom 1 2 ((twoLeavesReader 2).cur .user) (fun _ => 0) 0 ∧
      0 + 1 < ((twoLeavesView 2).leaves 1 2).length ∧ ¬(twoLeavesView 2).RevisionsOrdered 1 2 ∧
      ∃ t', nextDefault .user ((twoLeavesReader 2).level + 1) 0 (twoLeavesReader 2) =
        .error (.databaseModifiedError ("The revision being read has been discarded - " ++
          "you should call Xapian::Database::reopen() and retry the operation")) t' :=
  ⟨twoLeaves_tree 2, twoLeaves_nodup 2, twoLeaves_shows 2, twoLeaves_path 2, by decide, by decide,
    _, rfl⟩

end FlintBtree
