import FlintBtree.Logic
import FlintBtree.Api

/-!
# The frame of a transaction

Most of the table's code changes only the cursor, the key buffer `kt`, the bitmap and the
counters of the transaction.  The descriptor, the base letter, the revision read, the files and
`both_bases` change only where a block is written, a base is loaded or a revision is committed.
This module proves once, for every relation that such quiet steps and `write_block` keep, that
every function a transaction calls — the updates, the lookups and `read_root` — keeps it too.

## Main Definitions

* `Quiet` — a step that changes none of those fields.

## Main Results

* `stable_add`, `stable_del`, `stable_flushDb`, `stable_getExactEntry`, `stable_keyExists`,
  `stable_readRoot` — the calls of a transaction keep every relation that quiet steps and
  `write_block` keep.

## Design Notes

Each function's lemma is proved from those of the functions it calls by one search over the
combinators of `Stable`, at reducible transparency.  The relation and its two assumptions are
section variables, so a frame condition such as `SameBase` is had for every function from two
lemmas about it.
-/

namespace FlintBtree

/-- A step that leaves the descriptor, writability, the base letter, the revision read, the files
and `both_bases` as they were. -/
structure Quiet (t t' : Table) : Prop where
  handle : t'.handle = t.handle
  writable : t'.writable = t.writable
  baseLetter : t'.baseLetter = t.baseLetter
  revisionNumber : t'.revisionNumber = t.revisionNumber
  files : t'.files = t.files
  bothBases : t'.bothBases = t.bothBases

theorem Quiet.refl (t : Table) : Quiet t t := ⟨rfl, rfl, rfl, rfl, rfl, rfl⟩

section Frame

variable {R : Table → Table → Prop} (hq : ∀ t t', Quiet t t' → R t t')
include hq

theorem stable_modifyCur (r : CursorRef) (j : Nat) (f : Cursor → Cursor) :
    Stable R (modifyCur r j f) :=
  Stable.modify fun _ => hq _ _ (by cases r <;> exact ⟨rfl, rfl, rfl, rfl, rfl, rfl⟩)

theorem stable_nextFreeBlock : Stable R nextFreeBlock :=
  ⟨fun _ => hq _ _ ⟨rfl, rfl, rfl, rfl, rfl, rfl⟩⟩

theorem stable_freeBlock (n : Nat) : Stable R (freeBlock n) :=
  ⟨fun _ => hq _ _ ⟨rfl, rfl, rfl, rfl, rfl, rfl⟩⟩

variable [IsRefl Table R] [IsTrans Table R]

theorem stable_alterLoop : ∀ fuel j, Stable R (alterLoop fuel j)
  | 0, _ => Stable.pure _
  | fuel + 1, j => by
    unfold alterLoop
    with_reducible repeat' first
      | exact Stable.pure _ | exact Stable.get | exact Stable.bufferOf _ _
      | exact stable_freeBlock hq _ | exact stable_nextFreeBlock hq
      | exact stable_modifyCur hq _ _ _ | exact stable_alterLoop fuel _
      | apply Stable.bind | apply Stable.ite | intro _

theorem stable_alter : Stable R alter :=
  Stable.bind Stable.get fun _ => stable_alterLoop hq _ _

theorem stable_splitRoot {addItem : Item → Nat → M Unit} (h : ∀ kt j, Stable R (addItem kt j))
    (splitN : Nat) : Stable R (splitRoot addItem splitN) := by
  unfold splitRoot
  with_reducible repeat' first
    | exact Stable.pure _ | exact Stable.get | exact Stable.throw _ | exact h _ _
    | exact stable_nextFreeBlock hq | exact stable_modifyCur hq _ _ _
    | exact Stable.modify fun _ => hq _ _ ⟨rfl, rfl, rfl, rfl, rfl, rfl⟩
    | apply Stable.bind | apply Stable.ite | intro _

theorem stable_enterKey {addItem : Item → Nat → M Unit} (h : ∀ kt j, Stable R (addItem kt j))
    (j : Nat) (prevkey newkey : Key) : Stable R (enterKey addItem j prevkey newkey) := by
  unfold enterKey
  with_reducible repeat' first
    | exact Stable.pure _ | exact Stable.get | exact h _ _ | exact Stable.bufferOf _ _
    | exact stable_modifyCur hq _ _ _
    | apply Stable.bind | apply Stable.ite | intro _

theorem stable_formKey (key : List UInt8) : Stable R (formKey key) := by
  unfold formKey
  with_reducible repeat' first
    | exact Stable.pure _ | exact Stable.throw _
    | exact Stable.modify fun _ => hq _ _ ⟨rfl, rfl, rfl, rfl, rfl, rfl⟩
    | apply Stable.bind | apply Stable.ite | intro _

theorem stable_readInto (r : CursorRef) (j n : Nat) : Stable R (readInto r j n) := by
  unfold readInto
  with_reducible repeat' first
    | exact Stable.pure _ | exact Stable.get | exact Stable.throw _ | exact Stable.readBlock _
    | exact stable_modifyCur hq _ _ _
    | apply Stable.bind | apply Stable.ite | intro _

theorem stable_nextSeqScan (r : CursorRef) : ∀ fuel n, Stable R (nextSeqScan r fuel n)
  | 0, _ => Stable.pure _
  | fuel + 1, n => by
    unfold nextSeqScan seqLoad seqCheck
    with_reducible repeat' first
      | exact Stable.pure _ | exact Stable.get | exact Stable.bufferOf _ _
      | exact Stable.setOverwritten | exact stable_readInto hq _ _ _
      | exact stable_modifyCur hq _ _ _ | exact stable_nextSeqScan r fuel _
      | apply Stable.bind | apply Stable.ite | intro _ | split

variable (hw : ∀ n p, Stable R (writeBlock n p))
include hw

theorem stable_blockToCursor (r : CursorRef) (j n : Nat) : Stable R (blockToCursor r j n) := by
  unfold blockToCursor
  with_reducible repeat' first
    | exact Stable.pure _ | exact Stable.get | exact Stable.throw _
    | exact Stable.bufferOf _ _ | exact Stable.readBlock _ | exact Stable.setOverwritten
    | exact hw _ _ | exact stable_modifyCur hq _ _ _
    | apply Stable.bind | apply Stable.ite | intro _

theorem stable_findLoop (r : CursorRef) (key : Key) : ∀ j, Stable R (findLoop r key j)
  | 0 => Stable.pure _
  | j + 1 => by
    unfold findLoop
    with_reducible repeat' first
      | exact Stable.pure _ | exact Stable.get | exact Stable.bufferOf _ _
      | exact stable_modifyCur hq _ _ _ | exact stable_blockToCursor hq hw _ _ _
      | exact stable_findLoop r key j
      | apply Stable.bind | apply Stable.ite | intro _

theorem stable_find (r : CursorRef) : Stable R (find r) := by
  unfold find
  with_reducible repeat' first
    | exact Stable.pure _ | exact Stable.get | exact Stable.bufferOf _ _
    | exact stable_modifyCur hq _ _ _ | exact stable_findLoop hq hw _ _ _
    | apply Stable.bind | apply Stable.ite | intro _

theorem stable_addItem : ∀ fuel kt j, Stable R (addItem fuel kt j)
  | 0, _, _ => Stable.throw _
  | fuel + 1, kt, j => by
    unfold addItem
    with_reducible repeat' first
      | exact Stable.pure _ | exact Stable.get | exact Stable.bufferOf _ _
      | exact stable_nextFreeBlock hq | exact stable_modifyCur hq _ _ _ | exact hw _ _
      | exact stable_splitRoot hq (stable_addItem fuel) _
      | exact stable_enterKey hq (stable_addItem fuel) _ _ _
      | exact Stable.modify fun _ => hq _ _ ⟨rfl, rfl, rfl, rfl, rfl, rfl⟩
      | apply Stable.bind | apply Stable.ite | intro _

theorem stable_collapse : ∀ fuel, Stable R (collapse fuel)
  | 0 => Stable.pure _
  | fuel + 1 => by
    unfold collapse
    with_reducible repeat' first
      | exact Stable.pure _ | exact Stable.get | exact Stable.bufferOf _ _
      | exact stable_freeBlock hq _ | exact stable_modifyCur hq _ _ _
      | exact stable_blockToCursor hq hw _ _ _ | exact stable_collapse fuel
      | exact Stable.modify fun _ => hq _ _ ⟨rfl, rfl, rfl, rfl, rfl, rfl⟩
      | apply Stable.bind | apply Stable.ite | intro _

theorem stable_deleteItem : ∀ fuel j repeatedly, Stable R (deleteItem fuel j repeatedly)
  | 0, _, _ => Stable.pure _
  | fuel + 1, j, repeatedly => by
    unfold deleteItem
    with_reducible repeat' first
      | exact Stable.pure _ | exact Stable.get | exact Stable.bufferOf _ _
      | exact stable_freeBlock hq _ | exact stable_modifyCur hq _ _ _
      | exact stable_collapse hq hw _ | exact stable_deleteItem fuel _ _
      | apply Stable.bind | apply Stable.ite | intro _

theorem stable_addKt (found : Bool) : Stable R (addKt found) := by
  unfold addKt
  with_reducible repeat' first
    | exact Stable.pure _ | exact Stable.get | exact Stable.bufferOf _ _
    | exact stable_alter hq | exact stable_modifyCur hq _ _ _
    | exact stable_deleteItem hq hw _ _ _ | exact stable_addItem hq hw _ _ _
    | exact Stable.modify fun _ => hq _ _ ⟨rfl, rfl, rfl, rfl, rfl, rfl⟩
    | apply Stable.bind | apply Stable.ite | intro _

theorem stable_deleteKt : Stable R deleteKt := by
  unfold deleteKt
  with_reducible repeat' first
    | exact Stable.pure _ | exact Stable.get | exact Stable.bufferOf _ _
    | exact stable_find hq hw _ | exact stable_alter hq | exact stable_deleteItem hq hw _ _ _
    | exact Stable.modify fun _ => hq _ _ ⟨rfl, rfl, rfl, rfl, rfl, rfl⟩
    | apply Stable.bind | apply Stable.ite | intro _

theorem stable_addChunks (tag : List UInt8) (compressed : Bool) :
    ∀ spans n found replacement, Stable R (addChunks tag compressed spans n found replacement)
  | [], _, _, _ => Stable.pure _
  | (i, o, len) :: spans, n, found, replacement => by
    unfold addChunks
    with_reducible repeat' first
      | exact Stable.pure _ | exact stable_find hq hw _ | exact stable_addKt hq hw _
      | exact stable_addChunks tag compressed spans _ _ _
      | exact Stable.modify fun _ => hq _ _ ⟨rfl, rfl, rfl, rfl, rfl, rfl⟩
      | apply Stable.bind | apply Stable.ite | intro _

theorem stable_deleteComponents : ∀ fuel i n, Stable R (deleteComponents fuel i n)
  | 0, _, _ => Stable.pure _
  | fuel + 1, i, n => by
    unfold deleteComponents
    with_reducible repeat' first
      | exact Stable.pure _ | exact stable_deleteKt hq hw
      | exact stable_deleteComponents fuel _ _
      | exact Stable.modify fun _ => hq _ _ ⟨rfl, rfl, rfl, rfl, rfl, rfl⟩
      | apply Stable.bind | apply Stable.ite | intro _

omit hq in
theorem stable_flushFrom : ∀ j, Stable R (flushFrom j) := by
  have level : ∀ j, Stable R (flushFrom.flushLevel j) := fun j => by
    unfold flushFrom.flushLevel
    with_reducible repeat' first
      | exact Stable.pure _ | exact Stable.get | exact Stable.bufferOf _ _ | exact hw _ _
      | apply Stable.bind | apply Stable.ite | intro _
  intro j
  induction j with
  | zero => exact level 0
  | succ j ih => exact Stable.bind (level _) fun _ => ih

theorem stable_flushDb : Stable R flushDb := by
  unfold flushDb throwDatabaseClosed
  with_reducible repeat' first
    | exact Stable.pure _ | exact Stable.get | exact Stable.throw _
    | exact stable_flushFrom hw _
    | exact Stable.modify fun _ => hq _ _ ⟨rfl, rfl, rfl, rfl, rfl, rfl⟩
    | apply Stable.bind | apply Stable.ite | intro _

theorem stable_del (key : List UInt8) : Stable R (del key) := by
  unfold del throwDatabaseClosed
  with_reducible repeat' first
    | exact Stable.pure _ | exact Stable.get | exact Stable.throw _
    | exact stable_formKey hq _ | exact stable_deleteKt hq hw
    | exact stable_deleteComponents hq hw _ _ _
    | exact Stable.modify fun _ => hq _ _ ⟨rfl, rfl, rfl, rfl, rfl, rfl⟩
    | apply Stable.bind | apply Stable.ite | intro _

/-- `add` on an open table: everything after the check that would create the table. -/
theorem stable_add (env : Env) (key tag : List UInt8) (alreadyCompressed : Bool) {t : Table}
    (ho : t.handle = .opened) : Wp (add env key tag alreadyCompressed) (fun _ t' => R t t') t := by
  unfold add
  dsimp only
  rw [wp_bind, wp_get, if_neg (by simp [ho]), wp_bind, wp_pure]
  refine (?_ : Stable R _).wp t
  with_reducible repeat' first
    | exact Stable.pure _ | exact Stable.get | exact Stable.throw _ | exact Stable.bufferOf _ _
    | exact stable_formKey hq _ | exact stable_find hq hw _
    | exact stable_addChunks hq hw _ _ _ _ _ _
    | exact stable_deleteComponents hq hw _ _ _
    | exact Stable.modify fun _ => hq _ _ ⟨rfl, rfl, rfl, rfl, rfl, rfl⟩
    | apply Stable.bind | apply Stable.ite | intro _


theorem stable_nextDefault (r : CursorRef) : ∀ fuel j, Stable R (nextDefault r fuel j)
  | 0, _ => Stable.pure _
  | fuel + 1, j => by
    unfold nextDefault
    with_reducible repeat' first
      | exact Stable.pure _ | exact Stable.get | exact Stable.bufferOf _ _
      | exact stable_modifyCur hq _ _ _ | exact stable_blockToCursor hq hw _ _ _
      | exact stable_nextDefault r fuel _
      | apply Stable.bind | apply Stable.ite | intro _

theorem stable_next (r : CursorRef) (j : Nat) : Stable R (next r j) := by
  unfold next nextForSequential
  with_reducible repeat' first
    | exact Stable.pure _ | exact Stable.get | exact Stable.bufferOf _ _
    | exact stable_modifyCur hq _ _ _ | exact stable_nextSeqScan hq _ _ _
    | exact stable_nextDefault hq hw _ _ _
    | apply Stable.bind | apply Stable.ite | intro _ | split

theorem stable_readChunks (r : CursorRef) : ∀ fuel i n tag, Stable R (readChunks r fuel i n tag)
  | 0, _, _, _ => Stable.pure _
  | fuel + 1, i, n, tag => by
    unfold readChunks
    with_reducible repeat' first
      | exact Stable.pure _ | exact Stable.get | exact Stable.throw _ | exact Stable.bufferOf _ _
      | exact stable_next hq hw _ _ | exact stable_readChunks r fuel _ _ _
      | apply Stable.bind | apply Stable.ite | intro _

theorem stable_getExactEntry (env : Env) (key : List UInt8) : Stable R (getExactEntry env key) := by
  unfold getExactEntry readTag throwDatabaseClosed
  with_reducible repeat' first
    | exact Stable.pure _ | exact Stable.get | exact Stable.throw _ | exact Stable.bufferOf _ _
    | exact stable_formKey hq _ | exact stable_find hq hw _
    | exact stable_readChunks hq hw _ _ _ _ _
    | apply Stable.bind | apply Stable.ite | intro _ | split

theorem stable_keyExists (key : List UInt8) : Stable R (keyExists key) := by
  unfold keyExists
  with_reducible repeat' first
    | exact Stable.pure _ | exact stable_formKey hq _ | exact stable_find hq hw _
    | apply Stable.bind | apply Stable.ite | intro _

theorem stable_readRoot : Stable R readRoot := by
  unfold readRoot
  with_reducible repeat' first
    | exact Stable.pure _ | exact Stable.get | exact Stable.bufferOf _ _
    | exact Stable.setOverwritten | exact stable_nextFreeBlock hq
    | exact stable_modifyCur hq _ _ _ | exact stable_blockToCursor hq hw _ _ _
    | apply Stable.bind | apply Stable.ite | intro _



end Frame

end FlintBtree
