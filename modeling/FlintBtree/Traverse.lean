import FlintBtree.Tree
import FlintBtree.Navigate
import FlintBtree.Logic

/-!
# Walking the leaves

`next_default(C_, 0)` steps a cursor to the next leaf item and `prev_default(C_, 0)` to the
previous one.  This file proves that they do so on every tree with the B-tree invariant, for
every consistent position of the cursor, as long as the tree stays as the cursor found it and
no child block is stamped with a newer revision than its parent; `block_to_cursor` raises
`set_overwritten` for such a child even when the tree is otherwise well formed.

## Main Definitions

* `Table.look` — what `block_to_cursor` finds at level `j` for block `n`.
* `Snapshot` — a tree with the invariant, no block reached twice, and revisions that do not
  increase downwards.
* `Shows` — the table shows the snapshot through cursor `C_`: `block_to_cursor` reads the
  snapshot's blocks, and the built-in cursor writes back only blocks it holds as they are.
* `PathFrom` — the cursor's levels from the root down to level `j` are a path of the tree.

## Main Results

* `blockToCursor_spec` — `block_to_cursor` puts a block of the snapshot at a level of the
  cursor and leaves the snapshot shown.
* `nextDefault_spec`, `prevDefault_spec` — one step at level `j` moves the position at that
  level by one, or returns false at the end.

## Design Notes

A position along level `j` of a tree is an index into the level's slots, left to right; the
block a level of the cursor holds is the one the position of the level above points to.  The
cursor's positions are a function `pos` of the level, with `pos (L + 1) = 0` standing for the
one slot above the root.
-/

namespace FlintBtree

/-- What `block_to_cursor` finds at level `j` for block `n`: in a writable table the built-in
cursor's copy when it holds `n` at that level, otherwise the data file's. -/
def Table.look (t : Table) : View := fun j n =>
  if t.writable = true ∧ some n = (t.C j).n then (t.C j).p else t.files.db n

namespace View

variable (v : View)

/-- The blocks of the tree, level by level from the root down. -/
def treeBlocks (L R : Nat) : List Nat := (List.range (L + 1)).flatMap (v.blocksDown L R)

/-- No child block is stamped with a revision newer than its parent's. -/
def RevisionsOrdered (L R : Nat) : Prop :=
  ∀ k < L, ∀ P ∈ v.blocksAt L R (k + 1), ∀ n ∈ v.children (k + 1) P,
    ∀ b ∈ v k n, ∀ bP ∈ v (k + 1) P, b.revision ≤ bP.revision

instance (L R : Nat) : Decidable (v.RevisionsOrdered L R) :=
  inferInstanceAs (Decidable (∀ k < L, ∀ P ∈ v.blocksAt L R (k + 1), ∀ n ∈ v.children (k + 1) P,
    ∀ b ∈ v k n, ∀ bP ∈ v (k + 1) P, b.revision ≤ bP.revision))

end View

/-- The snapshot a cursor walks: a tree with the invariant, in which no block is reached twice
and no child is newer than its parent. -/
structure Snapshot (v : View) (L R : Nat) : Prop where
  tree : Subtree v L none none R
  nodup : (v.treeBlocks L R).Nodup
  revisions : v.RevisionsOrdered L R

/-- The table shows the snapshot through cursor `r`: it is at the snapshot's height,
`block_to_cursor` reads the snapshot's blocks, only the built-in cursor of a writable table marks
levels for rewriting, and a level it has not marked holds its block as the data file does. -/
structure Shows (t : Table) (r : CursorRef) (v : View) (L R : Nat) : Prop where
  level : t.level = L
  look : ∀ k ≤ L, ∀ n ∈ v.blocksAt L R k, t.look k n = v k n
  rewrite : ∀ k, (t.cur r k).rewrite = true → r = .builtIn ∧ t.writable = true
  clean : r = .builtIn → t.writable = true → ∀ k ≤ L, ∀ n ∈ v.blocksAt L R k,
    (t.C k).n = some n → (t.C k).rewrite = false → (t.C k).p = t.files.db n

section Snapshot

variable {v : View} {L R : Nat}

theorem View.mem_blocksAt_of_child {v : View} {L R k P n : Nat} (hk : k < L)
    (hP : P ∈ v.blocksAt L R (k + 1)) (hn : n ∈ v.children (k + 1) P) : n ∈ v.blocksAt L R k := by
  rw [v.blocksAt_succ hk, List.mem_flatMap]
  exact ⟨P, hP, hn⟩

theorem Snapshot.block (hs : Snapshot v L R) {k n : Nat} (hk : k ≤ L)
    (hn : n ∈ v.blocksAt L R k) : ∃ b, v k n = some b ∧ b.level = k ∧ b.dir ≠ [] := by
  obtain ⟨lo, hi, h⟩ := hs.tree.of_mem_blocksAt (L - k) (by omega) n hn
  rw [show L - (L - k) = k by omega] at h
  exact h.block

/-- Every block of a level holds at least one slot. -/
theorem Snapshot.width_pos (hs : Snapshot v L R) {k : Nat} (hk : k ≤ L) :
    ∀ n ∈ v.blocksAt L R k, 0 < v.width k n := fun n hn => by
  obtain ⟨b, hb, -, hne⟩ := hs.block hk hn
  simpa [View.width, hb, List.length_pos] using hne

theorem Snapshot.nodup_blocksAt (hs : Snapshot v L R) {k : Nat} (hk : k ≤ L) :
    (v.blocksAt L R k).Nodup :=
  (List.nodup_flatMap.1 hs.nodup).1 _ (List.mem_range.2 (by omega))

/-- Blocks at two levels of the snapshot are different blocks. -/
theorem Snapshot.ne_of_level_ne (hs : Snapshot v L R) {k k' n n' : Nat} (hk : k ≤ L)
    (hk' : k' ≤ L) (hne : k ≠ k') (hn : n ∈ v.blocksAt L R k) (hn' : n' ∈ v.blocksAt L R k') :
    n ≠ n' := by
  rintro rfl
  have hd := (List.nodup_flatMap.1 hs.nodup).2
  have := hd.forall (fun _ _ h => h.symm) (List.mem_range.2 (by omega : L - k < L + 1))
    (List.mem_range.2 (by omega : L - k' < L + 1)) (by omega)
  exact this hn hn'

end Snapshot

/-! ## The snapshot stays shown -/

section Shows

variable {v : View} {L R : Nat} {t : Table} {r : CursorRef}

/-- Writing back the block that level `k` of the built-in cursor holds, and unmarking the level,
leaves the snapshot shown. -/
theorem Shows.evict (hs : Snapshot v L R) (ht : Shows t .builtIn v L R) (hw : t.writable = true)
    {k old : Nat} (hk : k ≤ L) (hold : old ∈ v.blocksAt L R k) (hn : (t.C k).n = some old)
    {u : Table} (hlevel : u.level = t.level) (hw' : u.writable = t.writable)
    (hC : u.C = Function.update t.C k { t.C k with rewrite := false })
    (hdb : u.files.db = Function.update t.files.db old (t.C k).p) : Shows u .builtIn v L R := by
  have hCk : ∀ k', (u.C k').n = (t.C k').n ∧ (u.C k').p = (t.C k').p := by
    intro k'
    rw [hC]
    by_cases h : k' = k
    · subst h; simp
    · simp [Function.update_noteq h]
  have hdb' : ∀ n, n ≠ old → u.files.db n = t.files.db n := fun n h => by
    rw [hdb, Function.update_noteq h]
  have hlev : ∀ {k' n}, k' ≤ L → n ∈ v.blocksAt L R k' → n = old → k' = k := fun hk' hn' he => by
    by_contra hne; exact hs.ne_of_level_ne hk' hk hne hn' hold he
  refine ⟨hlevel.trans ht.level, fun k' hk' n hn' => ?_, fun k' h => ?_,
    fun _ _ k' hk' n hn' hCn hr => ?_⟩
  · rw [← ht.look k' hk' n hn']
    simp only [Table.look, hw', (hCk k').1, (hCk k').2]
    split_ifs with h1
    · rfl
    · by_cases hno : n = old
      · obtain rfl := hlev hk' hn' hno
        exact absurd ⟨hw, hno ▸ hn.symm⟩ h1
      · exact hdb' n hno
  · simp only [Table.cur, hC] at h
    by_cases hkk : k' = k
    · subst hkk; simp at h
    · rw [Function.update_noteq hkk] at h
      exact ⟨rfl, hw'.trans (ht.rewrite k' h).2⟩
  · rw [(hCk k').1] at hCn
    by_cases hkk : k' = k
    · subst hkk
      rw [hn, Option.some.injEq] at hCn
      subst hCn
      rw [(hCk k').2, hdb, Function.update_same]
    · rw [hC, Function.update_noteq hkk] at hr ⊢
      rw [ht.clean rfl hw k' hk' n hn' hCn hr, hdb' n fun he => hkk (hlev hk' hn' he)]

/-- Loading a block of the snapshot into a level of the cursor that is not marked for rewriting
leaves the snapshot shown. -/
theorem Shows.load (ht : Shows t r v L R) {k target : Nat} (hk : k ≤ L)
    (htarget : target ∈ v.blocksAt L R k) (hr : (t.cur r k).rewrite = false) :
    Shows (t.modifyCur r k fun x => { x with p := v k target, n := some target }) r v L R := by
  cases r with
  | user =>
    refine ⟨ht.level, ht.look, fun k' h => ?_, fun h => absurd h (by simp)⟩
    simp only [Table.cur, Table.modifyCur] at h
    by_cases hkk : k' = k
    · subst hkk; simp only [Table.cur] at hr; simp [hr] at h
    · rw [Function.update_noteq hkk] at h
      exact ht.rewrite k' h
  | builtIn =>
    have hv : t.writable = true → v k target = t.files.db target := fun hw => by
      rw [← ht.look k hk target htarget, Table.look]
      split_ifs with h
      · exact ht.clean rfl hw k hk target htarget h.2.symm hr
      · rfl
    refine ⟨ht.level, fun k' hk' n hn => ?_, fun k' h => ?_, fun _ hw k' hk' n hn hCn hr' => ?_⟩
    · have hold := ht.look k' hk' n hn
      simp only [Table.look, Table.modifyCur] at hold ⊢
      by_cases hkk : k' = k
      · subst hkk
        simp only [Function.update_same, Option.some.injEq]
        by_cases hnt : n = target
        · subst hnt
          by_cases hw : t.writable = true
          · simp [hw]
          · simp only [hw, false_and, if_false] at hold ⊢
            exact hold
        · rw [if_neg (by tauto), ← hold]
          split_ifs with h2
          · exact (ht.clean rfl h2.1 k' hk' n hn h2.2.symm hr).symm
          · rfl
      · simpa only [Function.update_noteq hkk] using hold
    · simp only [Table.cur, Table.modifyCur] at h ⊢
      by_cases hkk : k' = k
      · subst hkk; simp only [Table.cur] at hr; simp [hr] at h
      · rw [Function.update_noteq hkk] at h
        exact ⟨trivial, (ht.rewrite k' h).2⟩
    · simp only [Table.modifyCur] at hCn hr' ⊢
      by_cases hkk : k' = k
      · subst hkk
        simp only [Function.update_same, Option.some.injEq] at hCn ⊢
        subst hCn
        exact hv hw
      · simp only [Function.update_noteq hkk] at hCn hr' ⊢
        exact ht.clean rfl hw k' hk' n hn hCn hr'

/-- Moving a level of the cursor to another slot leaves the snapshot shown. -/
theorem Shows.setC (ht : Shows t r v L R) (j : Nat) (c : Int) :
    Shows (t.modifyCur r j fun x => { x with c := c }) r v L R := by
  have hC : ∀ k, ((t.modifyCur r j fun x => { x with c := c }).C k).n = (t.C k).n ∧
      ((t.modifyCur r j fun x => { x with c := c }).C k).p = (t.C k).p ∧
      ((t.modifyCur r j fun x => { x with c := c }).C k).rewrite = (t.C k).rewrite := fun k => by
    cases r <;> by_cases h : k = j <;> simp [Table.modifyCur, h]
  have hcur : ∀ k, ((t.modifyCur r j fun x => { x with c := c }).cur r k).rewrite =
      (t.cur r k).rewrite := fun k => by
    by_cases h : k = j <;> simp [h]
  refine ⟨by simpa using ht.level, fun k hk n hn => ?_,
    fun k h => by simpa using ht.rewrite k (hcur k ▸ h), fun hr hw k hk n hn hCn hrw => ?_⟩
  · rw [← ht.look k hk n hn]
    simp only [Table.look, (hC k).1, (hC k).2.1, Table.modifyCur_writable, Table.modifyCur_files]
  · rw [(hC k).1] at hCn
    rw [(hC k).2.2] at hrw
    rw [(hC k).2.1, Table.modifyCur_files]
    exact ht.clean hr (by simpa using hw) k hk n hn hCn hrw

end Shows

/-! ## `block_to_cursor` -/

section Load

variable {v : View} {L R : Nat} {t : Table} {r : CursorRef}

/-- A cursor level after `block_to_cursor` loaded block `n`, read as `b`, into it. -/
def Cursor.loaded (x : Cursor) (b : Option Block) (n : Nat) : Cursor :=
  { x with p := b, n := some n, rewrite := false }

/-- The revision check that ends `block_to_cursor`: a child no newer than its parent passes. -/
theorem blockToCursor_check {P : Table → Prop} {k : Nat} {f : Cursor → Cursor} {bt bP : Block}
    (hparent : (t.cur r (k + 1)).p = some bP) (hrev : bt.revision ≤ bP.revision)
    (hP : P (t.modifyCur r k f)) :
    (k < (t.modifyCur r k f).level → ∃ b, ((t.modifyCur r k f).cur r (k + 1)).p = some b ∧
        (b.revision < bt.revision → False) ∧ (¬b.revision < bt.revision → P (t.modifyCur r k f))) ∧
      (¬k < (t.modifyCur r k f).level → P (t.modifyCur r k f)) := by
  refine ⟨fun _ => ⟨bP, ?_, fun h => absurd h (not_lt.2 hrev), fun _ => hP⟩, fun _ => hP⟩
  simpa [Function.update_noteq (Nat.succ_ne_self k)] using hparent

/-- `block_to_cursor` on a level that is not marked for rewriting: it loads block `n` of the
snapshot. -/
theorem blockToCursor_clean (hs : Snapshot v L R) (ht : Shows t r v L R) {k target : Nat}
    {bP : Block} (hk : k < L) (htarget : target ∈ v.blocksAt L R k)
    (hne : ¬some target = (t.cur r k).n) (hr : (t.cur r k).rewrite = false)
    (hp : (t.cur r k).p.isSome) (hparent : (t.cur r (k + 1)).p = some bP)
    (hrev : ∀ b, v k target = some b → b.revision ≤ bP.revision) :
    Ok (blockToCursor r k target) (fun _ t' => Shows t' r v L R ∧
      t'.cur r = Function.update (t.cur r) k ((t.cur r k).loaded (v k target) target)) t := by
  obtain ⟨bt, hbt, -⟩ := hs.block hk.le htarget
  have hdb : ¬(t.writable = true ∧ some target = (t.C k).n) → t.files.db target = some bt := by
    intro h; rw [← hbt, ← ht.look k hk.le target htarget, Table.look, if_neg h]
  have hP : Shows (t.modifyCur r k fun x => { x with p := some bt, n := some target }) r v L R ∧
      (t.modifyCur r k fun x => { x with p := some bt, n := some target }).cur r =
        Function.update (t.cur r) k ((t.cur r k).loaded (v k target) target) := by
    refine ⟨hbt ▸ ht.load hk.le htarget hr, ?_⟩
    rw [Table.cur_modifyCur, hbt, Cursor.loaded, ← hr]
  have hc := blockToCursor_check (P := fun t' => Shows t' r v L R ∧ t'.cur r =
    Function.update (t.cur r) k ((t.cur r k).loaded (v k target) target)) hparent
    (hrev bt hbt) hP
  unfold blockToCursor
  simp only [hne, hr, ok_bind, ok_get, ok_pure, ok_ite, ok_bufferOf, ok_readBlock, ok_modifyCur,
    ok_throw, ok_setOverwritten, Bool.false_eq_true, if_false, Option.not_isSome_iff_eq_none,
    Option.isNone_iff_eq_none, false_imp_iff, forall_const, true_and, hp]
  refine ⟨fun h => ⟨bt, ?_, hc⟩, fun h => ⟨?_, fun _ => ⟨bt, hdb h, hc⟩⟩⟩
  · rw [← hbt, ← ht.look k hk.le target htarget, Table.look, if_pos h]
    rfl
  · intro h'
    simp [h'] at hp

/-- Writing back a marked level first and then loading is `block_to_cursor` on the level unmarked
after the write. -/
theorem blockToCursor_evict {k target : Nat} {bo : Block} {t1 : Table}
    (hne : ¬some target = (t.cur r k).n) (hrw : (t.cur r k).rewrite = true)
    (hp : (t.cur r k).p = some bo) (h : writeBlock (t.cur r k).block bo t = .ok () t1)
    (hc : t1.cur r = t.cur r) :
    blockToCursor r k target t =
      blockToCursor r k target (t1.modifyCur r k fun x => { x with rewrite := false }) := by
  have hc' : (t1.modifyCur r k fun x => { x with rewrite := false }).cur r k =
      { t.cur r k with rewrite := false } := by simp [hc]
  simp only [blockToCursor, bind, EStateM.bind, get, getThe, MonadStateOf.get, EStateM.get, hc', hne,
    hrw, if_false, if_true, bufferOf, hp, pure, EStateM.pure, h, modifyCur, modify, modifyGet,
    MonadStateOf.modifyGet, EStateM.modifyGet, Bool.false_eq_true]

/-- **`block_to_cursor(C_, k, n)`** for a block `n` of the snapshot, one level below a parent on
the cursor's path and not the block the level holds: it writes back the block the level holds
if it is marked, loads `n`, and the revision check passes. -/
theorem blockToCursor_spec (hs : Snapshot v L R) (ht : Shows t r v L R) {k target old : Nat}
    {bP : Block} (hk : k < L) (htarget : target ∈ v.blocksAt L R k)
    (hold : old ∈ v.blocksAt L R k) (hne : old ≠ target) (hn : (t.cur r k).n = some old)
    (hp : (t.cur r k).p = v k old) (hparent : (t.cur r (k + 1)).p = some bP)
    (hrev : ∀ b, v k target = some b → b.revision ≤ bP.revision) :
    Ok (blockToCursor r k target) (fun _ t' => Shows t' r v L R ∧
      t'.cur r = Function.update (t.cur r) k ((t.cur r k).loaded (v k target) target)) t := by
  obtain ⟨bo, hbo, -⟩ := hs.block hk.le hold
  have hne' : ¬some target = (t.cur r k).n := by rw [hn]; simpa using Ne.symm hne
  cases hrw : (t.cur r k).rewrite
  · exact blockToCursor_clean hs ht hk htarget hne' hrw (by simp [hp, hbo]) hparent hrev
  · obtain ⟨rfl, hw⟩ := ht.rewrite k hrw
    obtain ⟨t1, h1, hdb1, hC1, -, hl1, hw1⟩ := writeBlock_ok (t.cur .builtIn k).block bo t
    rw [ok_congr (blockToCursor_evict hne' hrw (hp.trans hbo) h1 hC1)]
    have hblock : (t.cur .builtIn k).block = old := by simp [Cursor.block, hn]
    have hpC : (t.C k).p = some bo := hp.trans hbo
    have ht2 := Shows.evict hs ht hw hk.le hold hn
      (u := t1.modifyCur .builtIn k fun x => { x with rewrite := false }) (by simp [hl1])
      (by simp [hw1]) (by simp only [Table.modifyCur, hC1]) (by simp [hdb1, hblock, hpC])
    have hcur1 : t1.cur .builtIn = t.cur .builtIn := hC1
    refine Ok.mono (blockToCursor_clean hs ht2 hk htarget (by simpa [hcur1] using hne') (by simp)
      (by simp [hcur1, hp, hbo]) (by simpa [hcur1, Function.update_noteq (Nat.succ_ne_self k)]
        using hparent) hrev) ?_
    rintro _ t' ⟨h₁, h₂⟩
    refine ⟨h₁, ?_⟩
    rw [h₂]
    simp [hcur1, Cursor.loaded]

end Load

/-! ## Positions of a cursor -/

namespace View

variable (v : View)

/-- Level `k` of the cursor `C` is at position `pos k` of level `k` of the tree, inside the block
that position `pos (k + 1)` of the level above points to. -/
def LevelAt (L R : Nat) (C : Nat → Cursor) (pos : Nat → Nat) (k : Nat) : Prop :=
  ∃ n b, (v.blocksAt L R k)[pos (k + 1)]? = some n ∧ v k n = some b ∧ (C k).n = some n ∧
    (C k).p = some b ∧ v.start L R k (pos (k + 1)) ≤ pos k ∧
    pos k < v.start L R k (pos (k + 1)) + b.dir.length ∧
    (C k).c = slotOf (pos k - v.start L R k (pos (k + 1)))

/-- Levels `j` to `L` of the cursor are a path of the tree from its root, at positions `pos`. -/
def PathFrom (L R : Nat) (C : Nat → Cursor) (pos : Nat → Nat) (j : Nat) : Prop :=
  pos (L + 1) = 0 ∧ ∀ k, j ≤ k → k ≤ L → v.LevelAt L R C pos k

/-- Level `j - 1` of the cursor holds the child of the slot at position `pos j`. -/
def ChildHeld (L R : Nat) (C : Nat → Cursor) (pos : Nat → Nat) (j : Nat) : Prop :=
  ∃ n, (v.blocksAt L R (j - 1))[pos j]? = some n ∧ (C (j - 1)).n = some n ∧
    (C (j - 1)).p = v (j - 1) n

/-- After a step at level `j` from table `t`: the snapshot is shown, the cursor's levels from `j`
up are a path that puts level `j` at position `p`, the child there is held at level `j - 1`, and
the levels below are as in `t`. -/
def Stepped (L R : Nat) (r : CursorRef) (t : Table) (j p : Nat) (t' : Table) : Prop :=
  Shows t' r v L R ∧ ∃ pos', v.PathFrom L R (t'.cur r) pos' j ∧ pos' j = p ∧
    (0 < j → v.ChildHeld L R (t'.cur r) pos' j) ∧ ∀ k, k + 1 < j → t'.cur r k = t.cur r k

variable {v}

theorem LevelAt.congr {L R k : Nat} {C C' : Nat → Cursor} {pos pos' : Nat → Nat}
    (h : v.LevelAt L R C pos k) (hC : C' k = C k) (hk : pos' k = pos k)
    (hk1 : pos' (k + 1) = pos (k + 1)) : v.LevelAt L R C' pos' k := by
  unfold LevelAt at *
  rwa [hC, hk, hk1]

theorem children_getElem? {j n i : Nat} {b : Block} (hb : v j n = some b)
    (hi : i < b.dir.length) : (v.children j n)[i]? = some (b.itemAt (slotOf i)).blockGivenBy := by
  simp [children, hb, Block.itemAt, Block.items, List.getD_eq_getElem?_getD,
    List.getElem?_eq_getElem hi]

theorem items_getElem? {j n i : Nat} {b : Block} (hb : v j n = some b)
    (hi : i < b.dir.length) : (v.items j n)[i]? = some (b.itemAt (slotOf i)) := by
  simp [items, hb, Block.itemAt, Block.items, List.getD_eq_getElem?_getD,
    List.getElem?_eq_getElem hi]

/-- The child of slot `i` of the `q`-th block of level `j` is the block at position
`start j q + i` of level `j - 1`. -/
theorem child_getElem? {L R j q n i : Nat} {b : Block} (hj : 0 < j) (hjL : j ≤ L)
    (hq : (v.blocksAt L R j)[q]? = some n) (hb : v j n = some b) (hi : i < b.dir.length) :
    (v.blocksAt L R (j - 1))[v.start L R j q + i]? = some (b.itemAt (slotOf i)).blockGivenBy := by
  have e : j - 1 + 1 = j := by omega
  have hst : v.start L R j q =
      (((v.blocksAt L R j).take q).map fun x => (v.children j x).length).sum := by
    simp [start]
  rw [v.blocksAt_succ (by omega : j - 1 < L), e, hst, getElem?_flatMap_start _ _ hq
    (by simpa [hb, width] using hi), children_getElem? hb hi]

/-- With every block of a level non-empty, the slots before the `q`-th block are fewer than the
level's slots exactly when it is not past the last block. -/
theorem start_lt_total_iff {L R j q : Nat} (hpos : ∀ n ∈ v.blocksAt L R j, 0 < v.width j n)
    (hq : q ≤ (v.blocksAt L R j).length) :
    v.start L R j q < v.total L R j ↔ q < (v.blocksAt L R j).length := by
  rw [start, total, ← List.take_append_drop q (v.blocksAt L R j), List.map_append, List.sum_append,
    List.take_append_drop]
  constructor
  · intro h
    by_contra hge
    rw [List.drop_eq_nil_of_le (by omega)] at h
    simp at h
  · intro h
    obtain ⟨x, xs, hx⟩ := List.exists_cons_of_ne_nil (l := (v.blocksAt L R j).drop q)
      (by simp; omega)
    have := hpos x (List.mem_of_mem_drop (hx ▸ List.mem_cons_self x xs))
    rw [hx]
    simp
    omega

theorem start_add_width_le_total {L R j q n : Nat} (hq : (v.blocksAt L R j)[q]? = some n) :
    v.start L R j q + v.width j n ≤ v.total L R j := by
  rw [← v.start_succ hq, start, total, ← List.take_append_drop (q + 1) (v.blocksAt L R j),
    List.map_append, List.sum_append, List.take_append_drop]
  omega

/-- With every block of a level non-empty, slots come before the `q`-th block unless it is the
first. -/
theorem start_pos_iff {L R j q : Nat} (hpos : ∀ n ∈ v.blocksAt L R j, 0 < v.width j n)
    (hq : q ≤ (v.blocksAt L R j).length) : 0 < v.start L R j q ↔ 0 < q := by
  cases q with
  | zero => simp [start]
  | succ q =>
    obtain ⟨m, hm⟩ : ∃ m, (v.blocksAt L R j)[q]? = some m :=
      ⟨_, List.getElem?_eq_getElem (by omega)⟩
    have := hpos m (List.getElem?_mem hm)
    rw [v.start_succ hm]
    omega

theorem PathFrom.mono {L R j j' : Nat} {C : Nat → Cursor} {pos : Nat → Nat}
    (h : v.PathFrom L R C pos j) (hj : j ≤ j') : v.PathFrom L R C pos j' :=
  ⟨h.1, fun k hk hkL => h.2 k (by omega) hkL⟩

/-- A path from level `j + 1` extends to level `j` by a level at the position its block has
under the path. -/
theorem PathFrom.extend {L R j : Nat} {C C' : Nat → Cursor} {pos : Nat → Nat} {p : Nat}
    (h : v.PathFrom L R C pos (j + 1)) (hj : j ≤ L) (hC : ∀ k, j < k → C' k = C k)
    (hlev : v.LevelAt L R C' (Function.update pos j p) j) :
    v.PathFrom L R C' (Function.update pos j p) j := by
  refine ⟨by rw [Function.update_noteq (by omega)]; exact h.1, fun k hk hkL => ?_⟩
  rcases Nat.eq_or_lt_of_le hk with rfl | hk
  · exact hlev
  · exact (h.2 k hk hkL).congr (hC k hk) (Function.update_noteq (by omega) _ _)
      (Function.update_noteq (by omega) _ _)

end View

/-- Two positions of a level hold different blocks. -/
theorem Snapshot.getElem?_ne {v : View} {L R : Nat} (hs : Snapshot v L R) {k o p a b : Nat}
    (hk : k ≤ L) (ho : (v.blocksAt L R k)[o]? = some a) (hp : (v.blocksAt L R k)[p]? = some b)
    (hop : o ≠ p) : a ≠ b := by
  rintro rfl
  obtain ⟨ho', -⟩ := List.getElem?_eq_some_iff.1 ho
  exact hop (List.getElem?_inj ho' (hs.nodup_blocksAt hk) (ho.trans hp.symm))

/-- A step at level `j` from a table a step at level `j + 1` left is a step at level `j` from
the table before both: neither changed the levels below `j`. -/
theorem View.Stepped.of_above {v : View} {L R : Nat} {r : CursorRef} {t t1 t' : Table} {j p : Nat}
    (hframe : ∀ k, k + 1 < j + 1 → t1.cur r k = t.cur r k) :
    v.Stepped L R r t1 j p t' → v.Stepped L R r t j p t' :=
  fun ⟨hs, pos, hpath, hpos, hchild, hframe'⟩ =>
    ⟨hs, pos, hpath, hpos, hchild, fun k hk => (hframe' k hk).trans (hframe k (by omega))⟩

theorem dirEnd_le_slotOf_add_iff (b : Block) (i : Nat) :
    (b.dirEnd : Int) ≤ slotOf i + D2 ↔ b.dir.length ≤ i + 1 := by
  simp only [Block.dirEnd, slotOf, D2, dirStart]; omega

theorem slotOf_add_D2 (i : Nat) : slotOf i + D2 = slotOf (i + 1) := by
  simp only [slotOf, D2]; omega

theorem slotOf_eq_dirStart_iff (i : Nat) : slotOf i = dirStart ↔ i = 0 := by
  simp only [slotOf, D2]; omega

theorem slotOf_sub_D2 {i : Nat} (h : 0 < i) : slotOf i - D2 = slotOf (i - 1) := by
  simp only [slotOf, D2]; omega

theorem dirEnd_eq_slotOf (b : Block) : (b.dirEnd : Int) = slotOf b.dir.length := by
  simp [Block.dirEnd, slotOf]

section Step

variable {v : View} {L R : Nat} {t : Table} {r : CursorRef}

/-- The step `next_default` and `prev_default` end with, at a level `j` of the cursor's path
that holds block `b`: the level moves to position `p` of its level, inside `b`, and the child
there replaces the child at position `o` in level `j - 1`. -/
theorem stepTo_spec (hs : Snapshot v L R) (ht : Shows t r v L R) {j n o p : Nat} {b : Block}
    {pos : Nat → Nat} {c : Int} (hj : j ≤ L) (hpath : v.PathFrom L R (t.cur r) pos (j + 1))
    (hq : (v.blocksAt L R j)[pos (j + 1)]? = some n) (hb : v j n = some b)
    (hn : (t.cur r j).n = some n) (hp : (t.cur r j).p = some b)
    (hlo : v.start L R j (pos (j + 1)) ≤ p) (hhi : p < v.start L R j (pos (j + 1)) + b.dir.length)
    (hc : c = slotOf (p - v.start L R j (pos (j + 1)))) (hop : o ≠ p)
    (hchild : 0 < j → ∃ old, (v.blocksAt L R (j - 1))[o]? = some old ∧
      (t.cur r (j - 1)).n = some old ∧ (t.cur r (j - 1)).p = v (j - 1) old) :
    Ok (do
      modifyCur r j fun x => { x with c := c }
      if 0 < j then
        blockToCursor r (j - 1) ((← bufferOf r j).itemAt c).blockGivenBy
      return true)
      (fun a t' => a = true ∧ v.Stepped L R r t j p t') t := by
  have hpath' : ∀ C' : Nat → Cursor, (∀ k, j ≤ k → C' k = (t.modifyCur r j fun x =>
      { x with c := c }).cur r k) → v.PathFrom L R C' (Function.update pos j p) j := by
    intro C' hC'
    have hj' : C' j = { t.cur r j with c := c } := by simp [hC' j le_rfl]
    have hu : Function.update pos j p (j + 1) = pos (j + 1) := Function.update_noteq (by omega) _ _
    refine hpath.extend hj (fun k hk => ?_) ⟨n, b, ?_, hb, ?_, ?_, ?_, ?_, ?_⟩
    · rw [hC' k hk.le, Table.cur_modifyCur, Function.update_noteq (by omega)]
    all_goals simp only [hj', hu, Function.update_same, hq, hn, hp, hc]
    · exact hlo
    · exact hhi
  simp only [ok_bind, ok_modifyCur, ok_ite, ok_bufferOf, ok_pure]
  refine ⟨fun hj0 => ?_, fun hj0 => ⟨trivial, ht.setC j c, _, hpath' _ fun _ _ => rfl,
    Function.update_same _ _ _, hj0.elim, fun k hk => by omega⟩⟩
  obtain ⟨old, hold, hon, hop'⟩ := hchild hj0
  obtain ⟨i, rfl⟩ : ∃ i, j = i + 1 := ⟨j - 1, by omega⟩
  simp only [Nat.add_sub_cancel] at hold hon hop' ⊢
  have hpi : p - v.start L R (i + 1) (pos (i + 1 + 1)) < b.dir.length := by omega
  have htarget := v.child_getElem? hj0 hj hq hb hpi
  rw [Nat.add_sub_cancel, Nat.add_sub_cancel' hlo, ← hc] at htarget
  have hmem : (b.itemAt c).blockGivenBy ∈ v.children (i + 1) n := by
    rw [hc]; exact List.getElem?_mem (v.children_getElem? hb hpi)
  refine ⟨b, by simp [hp], Ok.mono (blockToCursor_spec hs (ht.setC (i + 1) c) (by omega)
    (List.getElem?_mem htarget) (List.getElem?_mem hold) (hs.getElem?_ne (by omega) hold htarget hop)
    (by simpa using hon) (by simpa using hop') (by simp [hp]) fun bt hbt =>
      hs.revisions i (by omega) n (List.getElem?_mem hq) _ hmem bt hbt b hb) ?_⟩
  rintro _ t' ⟨hs', hc'⟩
  refine ⟨rfl, hs', _, hpath' _ fun k hk => by rw [hc', Function.update_noteq (by omega)],
    Function.update_same _ _ _, fun _ => ⟨_, by simpa using htarget, by simp [hc', Cursor.loaded],
      by simp [hc', Cursor.loaded]⟩, fun k hk => ?_⟩
  rw [hc', Function.update_noteq (by omega), Table.cur_modifyCur, Function.update_noteq (by omega)]

/-- **`next_default(C_, j)`** on a cursor whose levels from `j` up are a path of the snapshot,
with the child of level `j` held at level `j - 1`: when a slot follows the position along level
`j`, the cursor moves there, loads the child, and it returns true; at the last slot of the level
it returns false and changes nothing.  `d` counts the levels above `j`, which the fuel covers. -/
theorem nextDefault_spec (hs : Snapshot v L R) :
    ∀ (d j fuel : Nat) (t : Table) (pos : Nat → Nat), j + d = L → d < fuel → Shows t r v L R →
      v.PathFrom L R (t.cur r) pos j → (0 < j → v.ChildHeld L R (t.cur r) pos j) →
      Ok (nextDefault r fuel j) (fun a t' => if pos j + 1 < v.total L R j
        then a = true ∧ v.Stepped L R r t j (pos j + 1) t' else a = false ∧ t' = t) t
  | _, _, 0, _, _, _, hf, _, _, _ => absurd hf (Nat.not_lt_zero _)
  | d, j, fuel + 1, t, pos, hd, hf, ht, hpath, hchild => by
    have hj : j ≤ L := by omega
    obtain ⟨n, b, hq, hb, hn, hp, hlo, hhi, hc⟩ := hpath.2 j le_rfl hj
    have hw : v.width j n = b.dir.length := by simp [View.width, hb]
    have hle := v.start_add_width_le_total hq
    rw [nextDefault, ok_bind, ok_get, ok_bind, ok_bufferOf]
    refine ⟨b, hp, ?_⟩
    rw [hc, slotOf_add_D2]
    dsimp only
    by_cases hend : b.dir.length ≤ pos j - v.start L R j (pos (j + 1)) + 1
    · rw [← slotOf_add_D2, if_pos ((dirEnd_le_slotOf_add_iff _ _).2 hend), ht.level]
      by_cases hjL : j = L
      · -- the last slot of the root: the level has no slot after it
        subst hjL
        have h0 : pos (j + 1) = 0 := hpath.1
        rw [h0, View.blocksAt_top] at hq
        obtain rfl : R = n := by simpa using hq
        have htot : v.total j R j = b.dir.length := by simp [View.total, hw]
        have hs0 : v.start j R j (pos (j + 1)) = 0 := by simp [h0, View.start]
        rw [if_pos rfl, ok_pure, if_neg (by omega)]
        exact ⟨rfl, rfl⟩
      · -- the last slot of a block below the root: step the level above first
        obtain ⟨d, rfl⟩ : ∃ d', d = d' + 1 := ⟨d - 1, by omega⟩
        have hnext : v.start L R j (pos (j + 1) + 1) = pos j + 1 := by
          rw [v.start_succ hq, hw]; omega
        have key : pos j + 1 < v.total L R j ↔ pos (j + 1) + 1 < v.total L R (j + 1) := by
          rw [← hnext, v.total_succ (by omega), v.start_lt_total_iff (hs.width_pos hj)
            (List.getElem?_eq_some_iff.1 hq).1]
        rw [if_neg hjL, ok_bind, ok_pure, ok_bind]
        refine Ok.mono (nextDefault_spec hs d (j + 1) fuel t pos (by omega) (by omega) ht
          (hpath.mono (Nat.le_succ j)) fun _ => ⟨n, by simpa using hq, hn, by simpa [hb] using hp⟩) ?_
        intro a t1 h
        split_ifs at h with h1
        · obtain ⟨rfl, hs1, pos', hpath1, hpos1, hchild1, hframe1⟩ := h
          obtain ⟨n', hq', hn', hp'⟩ := hchild1 (Nat.succ_pos j)
          simp only [Nat.add_sub_cancel] at hq' hn' hp'
          obtain ⟨b', hb', -, hne'⟩ := hs.block hj (List.getElem?_mem hq')
          have hstart : v.start L R j (pos' (j + 1)) = pos j + 1 := by rw [hpos1, hnext]
          simp only [if_pos (key.2 h1)]
          rw [if_neg (by decide), ok_bind, ok_pure, ok_bind, ok_pure]
          refine Ok.mono (stepTo_spec hs hs1 hj hpath1 hq' hb' hn' (hp'.trans hb') (p := pos j + 1)
            (o := pos j) hstart.le (by rw [hstart]; simpa [List.length_pos] using hne')
            (by rw [hstart, Nat.sub_self]; rfl) (by omega) fun hj0 => ?_) ?_
          · rw [hframe1 _ (by omega)]; exact hchild hj0
          · exact fun a t' h => ⟨h.1, h.2.of_above hframe1⟩
        · obtain ⟨rfl, rfl⟩ := h
          simp only [if_neg (mt key.1 h1)]
          exact ⟨rfl, rfl⟩
    · -- a slot follows in the same block
      rw [← slotOf_add_D2, if_neg (mt (dirEnd_le_slotOf_add_iff _ _).1 hend), ok_bind, ok_pure]
      simp only [if_pos (show pos j + 1 < v.total L R j by omega)]
      exact stepTo_spec hs ht hj (hpath.mono (Nat.le_succ j)) hq hb hn hp (p := pos j + 1)
        (o := pos j) (by omega) (by omega) (by rw [slotOf_add_D2]; congr 1; omega) (by omega)
        hchild

/-- **`prev_default(C_, j)`** on a cursor whose levels from `j` up are a path of the snapshot,
with the child of level `j` held at level `j - 1`: when a slot precedes the position along level
`j`, the cursor moves there, loads the child, and it returns true; at the first slot of the level
it returns false and changes nothing. -/
theorem prevDefault_spec (hs : Snapshot v L R) :
    ∀ (d j fuel : Nat) (t : Table) (pos : Nat → Nat), j + d = L → d < fuel → Shows t r v L R →
      v.PathFrom L R (t.cur r) pos j → (0 < j → v.ChildHeld L R (t.cur r) pos j) →
      Ok (prevDefault r fuel j) (fun a t' => if 0 < pos j
        then a = true ∧ v.Stepped L R r t j (pos j - 1) t' else a = false ∧ t' = t) t
  | _, _, 0, _, _, _, hf, _, _, _ => absurd hf (Nat.not_lt_zero _)
  | d, j, fuel + 1, t, pos, hd, hf, ht, hpath, hchild => by
    have hj : j ≤ L := by omega
    obtain ⟨n, b, hq, hb, hn, hp, hlo, hhi, hc⟩ := hpath.2 j le_rfl hj
    rw [prevDefault, ok_bind, ok_get]
    dsimp only
    rw [hc]
    by_cases hfirst : pos j = v.start L R j (pos (j + 1))
    · rw [if_pos (by rw [hfirst, Nat.sub_self]; rfl), ht.level]
      by_cases hjL : j = L
      · -- the first slot of the root: the level has no slot before it
        subst hjL
        have hs0 : v.start j R j (pos (j + 1)) = 0 := by simp [hpath.1, View.start]
        rw [if_pos rfl, ok_pure, if_neg (by omega)]
        exact ⟨rfl, rfl⟩
      · -- the first slot of a block below the root: step the level above first
        obtain ⟨d, rfl⟩ : ∃ d', d = d' + 1 := ⟨d - 1, by omega⟩
        have hqlen := (List.getElem?_eq_some_iff.1 hq).1
        have key : 0 < pos j ↔ 0 < pos (j + 1) := by
          rw [hfirst, v.start_pos_iff (hs.width_pos hj) hqlen.le]
        rw [if_neg hjL, ok_bind, ok_pure, ok_bind]
        refine Ok.mono (prevDefault_spec hs d (j + 1) fuel t pos (by omega) (by omega) ht
          (hpath.mono (Nat.le_succ j)) fun _ => ⟨n, by simpa using hq, hn, by simpa [hb] using hp⟩) ?_
        intro a t1 h
        split_ifs at h with h1
        · obtain ⟨rfl, hs1, pos', hpath1, hpos1, hchild1, hframe1⟩ := h
          obtain ⟨n', hq', hn', hp'⟩ := hchild1 (Nat.succ_pos j)
          simp only [Nat.add_sub_cancel] at hq' hn' hp'
          obtain ⟨b', hb', -, hne'⟩ := hs.block hj (List.getElem?_mem hq')
          have hw' : v.width j n' = b'.dir.length := by simp [View.width, hb']
          have hlen' : 0 < b'.dir.length := List.length_pos.2 hne'
          have hstart : v.start L R j (pos' (j + 1)) + b'.dir.length = pos j := by
            rw [hfirst, ← hw', ← v.start_succ hq', hpos1, Nat.sub_add_cancel h1]
          simp only [if_pos (key.2 h1)]
          rw [if_neg (by decide), ok_bind, ok_pure, ok_bind, ok_bufferOf]
          refine ⟨b', hp'.trans hb', ?_⟩
          rw [ok_bind, ok_pure]
          have hc' : (b'.dirEnd : Int) - D2 = slotOf (pos j - 1 - v.start L R j (pos' (j + 1))) := by
            rw [dirEnd_eq_slotOf, slotOf_sub_D2 hlen']; congr 1; omega
          refine Ok.mono (stepTo_spec hs hs1 hj hpath1 hq' hb' hn' (hp'.trans hb') (p := pos j - 1)
            (o := pos j) (by omega) (by omega) hc' (by omega) fun hj0 => ?_) ?_
          · rw [hframe1 _ (by omega)]; exact hchild hj0
          · exact fun a t' h => ⟨h.1, h.2.of_above hframe1⟩
        · obtain ⟨rfl, rfl⟩ := h
          simp only [if_neg (mt key.1 h1)]
          exact ⟨rfl, rfl⟩
    · -- a slot precedes in the same block
      rw [if_neg (by rw [slotOf_eq_dirStart_iff]; omega), ok_bind, ok_pure]
      simp only [if_pos (show 0 < pos j by omega)]
      exact stepTo_spec hs ht hj (hpath.mono (Nat.le_succ j)) hq hb hn hp (p := pos j - 1)
        (o := pos j) (by omega) (by omega) (by rw [slotOf_sub_D2 (by omega)]; congr 1; omega)
        (by omega) hchild

end Step

end FlintBtree
