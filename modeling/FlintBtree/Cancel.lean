import FlintBtree.Frame
import FlintBtree.Open

/-!
# Cancelling a transaction

`cancel()` drops a transaction: it rereads the base the table was opened at and reloads the root.
The updates of a transaction — `add`, `del`, `flush_db` — never touch that base or the open file
descriptor (`SameBase`), so a `cancel` that returns restores every field it reads from the base.
Whether it returns depends on the cursor: `read_root` reads the root into the buffer the cursor
holds at the base's root level, and a `del` that collapses the root has deleted that buffer.

## Main Results

* `cancel_spec` — a `cancel` that returns restores every field it reads from the base.
* `cancel_returns`, `cancel_bad_address` — `cancel` returns when the cursor holds a buffer at the
  base's root level and the root block is on disk, no newer than the base; with no buffer there it
  throws "Bad address".
* `cancel_returns_to_base` — **after any run of updates that leaves the root level its buffer,
  `cancel` returns and restores the base.**
* `cancel_after_root_collapse` — a `del` that collapses the root makes the next `cancel` throw, and
  leaves a table whose lookups dereference the deleted buffer.
* `cancel_after_failed_commit` — after a `commit` that threw, `cancel` returns but keeps the
  failed revision.
* `reader_sees_writer_reusing_revision` — a writer that cancels back to an older revision stamps
  its blocks with a revision a reader is reading.

## Design Notes

`SameBase` is a frame condition: every quiet step keeps it, and so does `write_block`, the one
update that changes a base file (on the first write of a table that has both bases it deletes the
*other* one), so `Frame.lean` gives it for every function a transaction calls.  The sample runs
are evaluated one step at a time: each table a step leaves is named, so that `decide` never runs a
step twice.
-/

namespace FlintBtree

/-- What the updates of a transaction leave alone: the descriptor, the base the table was opened
at, the revision it reads, and that base's file. -/
structure SameBase (t t' : Table) : Prop where
  handle : t'.handle = t.handle
  writable : t'.writable = t.writable
  baseLetter : t'.baseLetter = t.baseLetter
  revisionNumber : t'.revisionNumber = t.revisionNumber
  baseFile : t'.files.base t.baseLetter = t.files.base t.baseLetter

instance : IsRefl Table SameBase := ⟨fun _ => ⟨rfl, rfl, rfl, rfl, rfl⟩⟩

instance : IsTrans Table SameBase := ⟨fun _ _ _ h₁ h₂ =>
  ⟨h₂.handle.trans h₁.handle, h₂.writable.trans h₁.writable, h₂.baseLetter.trans h₁.baseLetter,
    h₂.revisionNumber.trans h₁.revisionNumber,
    by have h := h₂.baseFile; rw [h₁.baseLetter] at h; exact h.trans h₁.baseFile⟩⟩

theorem Files.base_setBase_other (f : Files) (L : Letter) (b : Option BaseFile) :
    (f.setBase L.other b).base L = f.base L := by
  cases L <;> rfl

/-! ## The frame of each update -/

theorem Quiet.sameBase {t t' : Table} (h : Quiet t t') : SameBase t t' :=
  ⟨h.handle, h.writable, h.baseLetter, h.revisionNumber, by rw [h.files]⟩

theorem sameBase_writeBlock (n : Nat) (p : Block) : Stable SameBase (writeBlock n p) := by
  refine ⟨fun t => ?_⟩
  simp only [writeBlock, wp_bind, wp_get, wp_set, wp_ite, wp_setFiles, wp_modify, wp_pure]
  exact ⟨fun _ => ⟨rfl, rfl, rfl, rfl, Files.base_setBase_other _ _ _⟩,
    fun _ => ⟨rfl, rfl, rfl, rfl, rfl⟩⟩

theorem sameBase_call (env : Env) {op : Op} (hu : op.isUpdate = true) {t : Table}
    (ho : t.handle = .opened) : Wp (op.call env) (fun _ t' => SameBase t t') t := by
  have hq : ∀ t t', Quiet t t' → SameBase t t' := fun _ _ => Quiet.sameBase
  cases op with
  | add key tag alreadyCompressed =>
    exact stable_add hq sameBase_writeBlock env key tag alreadyCompressed ho
  | del key => exact (Stable.bind (stable_del hq sameBase_writeBlock key) fun _ => Stable.pure _).wp t
  | flushDb => exact (stable_flushDb hq sameBase_writeBlock).wp t
  | _ => cases hu

/-- **A transaction's updates keep its base.**  A run of `add`, `del` and `flush_db` that returns
leaves the descriptor open, and the base the table was opened at, and its file, as they were. -/
theorem sameBase_run (env : Env) :
    ∀ (ops : List Op) {t t' : Table}, (∀ op ∈ ops, op.isUpdate = true) → t.handle = .opened →
      run env ops t = .ok () t' → SameBase t t'
  | [], _, _, _, _, h => by cases h; exact IsRefl.refl _
  | op :: ops, t, t', hu, ho, h => by
    obtain ⟨_, t₁, h₁, h₂⟩ := bind_ok h
    have hs : SameBase t t₁ := (sameBase_call env (hu op (List.mem_cons_self _ _)) ho).of_ok h₁
    exact IsTrans.trans _ _ _ hs
      (sameBase_run env ops (fun o ho' => hu o (List.mem_cons_of_mem _ ho')) (hs.handle.trans ho) h₂)

/-! ## What `read_root` keeps -/

/-- What reading the root into the cursor leaves alone.  A write of an evicted block may set
`latest_revision_number` back to `revision_number`, so a table whose two numbers agree keeps
them agreeing. -/
structure SameRoot (t t' : Table) : Prop where
  revisionNumber : t'.revisionNumber = t.revisionNumber
  root : t'.root = t.root
  level : t'.level = t.level
  itemCount : t'.itemCount = t.itemCount
  fakedRootBlock : t'.fakedRootBlock = t.fakedRootBlock
  base : t'.base = t.base
  latest : t.latestRevisionNumber = t.revisionNumber →
    t'.latestRevisionNumber = t'.revisionNumber

instance : IsRefl Table SameRoot := ⟨fun _ => ⟨rfl, rfl, rfl, rfl, rfl, rfl, id⟩⟩

instance : IsTrans Table SameRoot := ⟨fun _ _ _ h₁ h₂ =>
  ⟨h₂.1.trans h₁.1, h₂.2.trans h₁.2, h₂.3.trans h₁.3, h₂.4.trans h₁.4, h₂.5.trans h₁.5,
    h₂.6.trans h₁.6, fun h => h₂.7 (h₁.7 h)⟩⟩

theorem sameRoot_writeBlock (n : Nat) (p : Block) : Stable SameRoot (writeBlock n p) := by
  refine ⟨fun t => ?_⟩
  simp only [writeBlock, wp_bind, wp_get, wp_set, wp_ite, wp_setFiles, wp_modify, wp_pure]
  exact ⟨fun _ => ⟨rfl, rfl, rfl, rfl, rfl, rfl, fun _ => rfl⟩, fun _ => ⟨rfl, rfl, rfl, rfl, rfl, rfl, id⟩⟩

theorem sameRoot_modifyCur (r : CursorRef) (j : Nat) (f : Cursor → Cursor) :
    Stable SameRoot (modifyCur r j f) :=
  Stable.modify fun _ => by cases r <;> exact ⟨rfl, rfl, rfl, rfl, rfl, rfl, id⟩

theorem sameRoot_blockToCursor (r : CursorRef) (j n : Nat) :
    Stable SameRoot (blockToCursor r j n) := by
  unfold blockToCursor
  with_reducible repeat' first
    | exact Stable.pure _ | exact Stable.get | exact Stable.throw _
    | exact Stable.bufferOf _ _ | exact Stable.readBlock _ | exact Stable.setOverwritten
    | exact sameRoot_writeBlock _ _ | exact sameRoot_modifyCur _ _ _
    | apply Stable.bind | apply Stable.ite | intro _

/-- `read_root` of a writer keeps what `SameRoot` names, except that a faked root takes a block
from the allocator. -/
theorem readRoot_spec {t : Table} (hw : t.writable = true) :
    Wp readRoot (fun _ t' => SameRoot
      { t with base := if t.fakedRootBlock then t.base.nextFreeBlock.2 else t.base } t') t := by
  unfold readRoot
  rw [wp_bind, wp_get]
  by_cases hf : t.fakedRootBlock = true
  · simp only [hf, hw, ite_true, wp_bind, wp_bufferOf, Bool.not_true, Bool.false_eq_true,
      ite_false, wp_nextFreeBlock, wp_modifyCur]
    exact fun _ _ => ⟨rfl, rfl, rfl, rfl, rfl, rfl, id⟩
  · simp only [hf, Bool.false_eq_true, ite_false]
    refine wp_bind.2 (((sameRoot_blockToCursor _ _ _).wp t).mono fun _ t₁ h => ?_)
    simp only [wp_bind, wp_get, wp_bufferOf, wp_ite, wp_setOverwritten, wp_pure]
    exact fun _ _ => ⟨fun _ => trivial, fun _ =>
      ⟨h.1, h.2, h.3, h.4, h.5.trans (by simpa using hf), h.6, h.7⟩⟩

/-! ## `cancel` -/

/-- The fields a table opened at base `B` reads from it: the revision, the root, the height, the
item count, the faked-root flag and both bitmaps, the current one with the block a faked root
takes marked in use. -/
structure OpenedAt (B : BaseFile) (t : Table) : Prop where
  revisionNumber : t.revisionNumber = B.revision
  latest : t.latestRevisionNumber = B.revision
  root : t.root = B.root
  level : t.level = B.level
  itemCount : t.itemCount = B.itemCount
  fakedRoot : t.fakedRootBlock = B.haveFakeroot
  bitMap0 : t.base.bitMap0 = B.bitMap
  bitMap : t.base.bitMap =
    if B.haveFakeroot then (Base.ofFile B).nextFreeBlock.2.bitMap else B.bitMap

/-- `cancel` of an open writer rereads its base: when it returns, every field it reads from the
base is as the base has it. -/
theorem cancel_spec {t : Table} {B : BaseFile} (hw : t.writable = true)
    (ho : t.handle = .opened) (hB : t.files.base t.baseLetter = some B) :
    Wp cancel (fun _ t' => OpenedAt B t') t := by
  unfold cancel
  simp only [wp_bind, wp_get, ho, hB, ne_eq, not_true_eq_false, ite_false, wp_pure, wp_modify]
  refine (readRoot_spec ?_).mono fun _ t' h => ?_
  · exact hw
  have hb : t'.base = if B.haveFakeroot then (Base.ofFile B).nextFreeBlock.2 else Base.ofFile B :=
    h.base
  refine ⟨h.revisionNumber, (h.latest rfl).trans h.revisionNumber, h.root, h.level, h.itemCount,
    h.fakedRootBlock, ?_, ?_⟩ <;> rw [hb] <;> split <;> rfl

/-- **`cancel` restores the base.**  Take an open writer whose base file holds `B` (as after a
successful `open()` or `commit`), and any run of `add`, `del` and `flush_db` that returns.  A
`cancel` that then returns leaves the table with every field it reads from `B` as `B` has it. -/
theorem cancel_restores_base (env : Env) (ops : List Op) (hops : ∀ op ∈ ops, op.isUpdate = true)
    {t t₁ t₂ : Table} {B : BaseFile} (hw : t.writable = true) (ho : t.handle = .opened)
    (hB : t.files.base t.baseLetter = some B) (hrun : run env ops t = .ok () t₁)
    (hc : cancel t₁ = .ok () t₂) : OpenedAt B t₂ := by
  have hs := sameBase_run env ops hops ho hrun
  refine (cancel_spec (hs.writable.trans hw) (hs.handle.trans ho) ?_).of_ok hc
  rw [hs.baseLetter, hs.baseFile, hB]

/-- A writer over the files of the two leaves, after `open()`. -/
def twoLeavesWriter : Table :=
  after (run sampleEnv [.open] (Table.new twoLeavesCommitted false .dontCompress))

theorem twoLeavesWriter_run :
    run sampleEnv [.open] (Table.new twoLeavesCommitted false .dontCompress) =
      .ok () twoLeavesWriter :=
  eq_ok_of_returned (by decide)

/-- `cancel` returns when the cursor holds a buffer at the root level of the base and the data
file holds the base's root, no newer than the base: `read_root` reads the root into that buffer. -/
theorem cancel_returns {t : Table} {B : BaseFile} {p b : Block} (ho : t.handle = .opened)
    (hB : t.files.base t.baseLetter = some B) (hfake : B.haveFakeroot = false)
    (hp : (t.C B.level).p = some p) (hroot : t.files.db B.root = some b)
    (hrev : b.revision ≤ B.revision) : Ok cancel (fun _ _ => True) t := by
  simp only [cancel, ok_bind, ok_get, ok_pure, ho, ne_eq, not_true_eq_false, ite_false, hB, ok_modify,
    readRoot, hfake, Bool.false_eq_true, blockToCursor, Table.cur, le_refl, ite_true, hp,
    Option.some_ne_none, and_false, Option.isNone_some, ok_readBlock, hroot]
  refine ⟨b, rfl, ?_⟩
  simp only [ok_modifyCur, ok_bind, ok_get, Table.modifyCur_level, lt_irrefl, ite_false, ok_pure,
    ok_bufferOf, Table.cur_modifyCur, Function.update_same, ok_modify]
  exact ⟨b, rfl, by simp [Table.modifyCur, Nat.not_lt.2 hrev]⟩

/-- `cancel` throws when the cursor holds no buffer at the root level of the base: `read_root`
reads the root into a null pointer, and `pread` fails with "Bad address". -/
theorem cancel_bad_address {t : Table} {B : BaseFile} (ho : t.handle = .opened)
    (hB : t.files.base t.baseLetter = some B) (hfake : B.haveFakeroot = false)
    (hp : (t.C B.level).p = none) :
    outcome (cancel t) =
      .error (.databaseError ("Error reading block " ++ toString B.root ++ ": Bad address")) := by
  refine Spec.outcome_eq ?_
  simp only [cancel, spec_bind, spec_get, spec_pure, ho, ne_eq, not_true_eq_false, ite_false, hB,
    spec_modify, readRoot, hfake, Bool.false_eq_true, blockToCursor, Table.cur, le_refl, ite_true, hp,
    Option.some_ne_none, and_false, Option.isNone_none, spec_throw]

/-- **`cancel` returns to the base while the root level keeps its buffer.**  Take an open writer
whose base file holds `B`, with a root on disk, and any run of `add`, `del` and `flush_db` that
returns.  If the cursor the run leaves still holds a buffer at `B`'s root level, and the data file
still holds `B`'s root, no newer than `B`, then `cancel` returns, and every field it reads from `B`
is as `B` has it. -/
theorem cancel_returns_to_base (env : Env) (ops : List Op) (hops : ∀ op ∈ ops, op.isUpdate = true)
    {t t₁ : Table} {B : BaseFile} {b : Block} (hw : t.writable = true) (ho : t.handle = .opened)
    (hB : t.files.base t.baseLetter = some B) (hfake : B.haveFakeroot = false)
    (hrun : run env ops t = .ok () t₁) (hp : (t₁.C B.level).p.isSome)
    (hroot : t₁.files.db B.root = some b) (hrev : b.revision ≤ B.revision) :
    Ok cancel (fun _ t₂ => OpenedAt B t₂) t₁ := by
  have hs := sameBase_run env ops hops ho hrun
  have hB₁ : t₁.files.base t₁.baseLetter = some B := by rw [hs.baseLetter, hs.baseFile, hB]
  obtain ⟨p, hp⟩ := Option.isSome_iff_exists.1 hp
  obtain ⟨_, t₂, hc, -⟩ := ok_iff.1 (cancel_returns (hs.handle.trans ho) hB₁ hfake hp hroot hrev)
  exact ok_iff.2 ⟨_, t₂, hc, cancel_restores_base env ops hops hw ho hB hrun hc⟩

/-- The writer over the two leaves after deleting `b`, which is not there, and flushing. -/
def twoLeavesFlushed : Table := after (run sampleEnv [.del [98], .flushDb] twoLeavesWriter)

/-- That writer cancels back to the base of revision 1. -/
theorem twoLeavesFlushed_cancels :
    (∀ op ∈ [Op.del [98], .flushDb], op.isUpdate = true) ∧ twoLeavesWriter.writable = true ∧
      twoLeavesWriter.handle = .opened ∧
      twoLeavesWriter.files.base twoLeavesWriter.baseLetter = some twoLeavesBase ∧
      twoLeavesBase.haveFakeroot = false ∧
      run sampleEnv [.del [98], .flushDb] twoLeavesWriter = .ok () twoLeavesFlushed ∧
      (twoLeavesFlushed.C twoLeavesBase.level).p.isSome ∧
      twoLeavesFlushed.files.db twoLeavesBase.root = some twoLeavesRoot ∧
      twoLeavesRoot.revision ≤ twoLeavesBase.revision ∧
      Ok cancel (fun _ t₂ => OpenedAt twoLeavesBase t₂) twoLeavesFlushed := by
  have hops : ∀ op ∈ [Op.del [98], .flushDb], op.isUpdate = true := by decide
  have ho : twoLeavesWriter.handle = .opened := by decide
  have hB : twoLeavesWriter.files.base twoLeavesWriter.baseLetter = some twoLeavesBase := rfl
  have hrun : run sampleEnv [.del [98], .flushDb] twoLeavesWriter = .ok () twoLeavesFlushed :=
    eq_ok_of_returned (by decide)
  have hp : (twoLeavesFlushed.C twoLeavesBase.level).p.isSome := by decide
  have hroot : twoLeavesFlushed.files.db twoLeavesBase.root = some twoLeavesRoot := rfl
  have hrev : twoLeavesRoot.revision ≤ twoLeavesBase.revision := by decide
  exact ⟨hops, rfl, ho, hB, rfl, hrun, hp, hroot, hrev,
    cancel_returns_to_base sampleEnv _ hops rfl ho hB rfl hrun hp hroot hrev⟩

/-! ## `cancel` after the root collapsed -/

/-- The tables `del("m")` passes through on the writer over the two leaves: the key formed, its
leaf found, the cursor's path moved to new blocks, and the item deleted, which empties the leaf,
frees it, and collapses the root. -/
def collapse₁ : Table := { twoLeavesWriter with kt := twoLeavesWriter.kt.formKey [109] }
def collapse₂ : Table := after (find .builtIn collapse₁)
def collapse₃ : Table := after (alter { collapse₂ with seqCount := seqStartPoint, sequential := false })
def collapse₄ : Table := after (deleteItem (collapse₃.level + 1) 0 true collapse₃)
/-- The writer after `del("m")`. -/
def collapsed : Table := { collapse₄ with itemCount := collapse₄.itemCount - 1, btreeModified := true }
/-- The table the `cancel` after it leaves, having thrown. -/
def collapsedCancelled : Table := after (cancel collapsed)

set_option maxRecDepth 40000 in
/-- The steps of `del("m")` return, each from the table the one before left; the root has
collapsed to level 0 with no buffer left at level 1; and a lookup after the `cancel` meets the
deleted buffer. -/
private theorem collapse_facts :
    twoLeavesWriter.handle = .opened ∧
      returnedValue (getExactEntry sampleEnv [97] twoLeavesWriter) = some (some [1]) ∧
      returnedValue (find .builtIn collapse₁) = some true ∧
      (collapse₂.C 0).p.map (fun p => (p.itemAt (collapse₂.C 0).c).componentsOf) = some 1 ∧
      returned (alter { collapse₂ with seqCount := seqStartPoint, sequential := false }) = true ∧
      returned (deleteItem (collapse₃.level + 1) 0 true collapse₃) = true ∧
      collapsed.handle = .opened ∧ collapsed.level = 0 ∧ (collapsed.C 1).p = none ∧
      (collapsed.files.base collapsed.baseLetter).map (fun B => (B.root, B.level, B.haveFakeroot)) =
        some (2, 1, false) ∧
      (match getExactEntry sampleEnv [97] collapsedCancelled with
        | .error e _ => some e
        | .ok _ _ => none) = some .nullBuffer := by
  decide

/-- **`cancel` after a root collapse throws.**  The writer over the two leaves, open at base `A`
(revision 1, root block 2 at level 1, key `a` holding `[1]`), deletes `m`.  Its leaf becomes empty
and is freed, the root is left with one item, and `delete_item` collapses it: it deletes the root's
buffer and the level falls to 0.  `cancel` restores level 1 from the base but not the buffer, so
`read_root` reads block 2 into a null pointer and throws "Error reading block 2: Bad address".  The
table it leaves has no buffer at level 1, and a later `get_exact_entry("a")` dereferences it. -/
theorem cancel_after_root_collapse :
    run sampleEnv [.open, .del [109]] (Table.new twoLeavesCommitted false .dontCompress) =
        .ok () collapsed ∧
      returnedValue (getExactEntry sampleEnv [97] twoLeavesWriter) = some (some [1]) ∧
      collapsed.level = 0 ∧ (collapsed.C 1).p = none ∧
      outcome (cancel collapsed) = .error (.databaseError "Error reading block 2: Bad address") ∧
      (match getExactEntry sampleEnv [97] collapsedCancelled with
        | .error e _ => some e
        | .ok _ _ => none) = some .nullBuffer := by
  obtain ⟨ho, hget, hf, hc, ha, hd, ho', hl, hp, hB, hnull⟩ := collapse_facts
  obtain ⟨c, hc', hc⟩ := Option.map_eq_some'.1 hc
  obtain ⟨B, hB', hB⟩ := Option.map_eq_some'.1 hB
  simp only [Prod.mk.injEq] at hB
  have e₂ : find .builtIn collapse₁ = .ok true collapse₂ := eq_ok_of_returnedValue hf
  have e₃ : alter { collapse₂ with seqCount := seqStartPoint, sequential := false } =
    .ok () collapse₃ := eq_ok_of_returned ha
  have e₄ : deleteItem (collapse₃.level + 1) 0 true collapse₃ = .ok () collapse₄ :=
    eq_ok_of_returned hd
  have hdel : del [109] twoLeavesWriter = .ok true collapsed := by
    refine del_of_deleteKt ho (by decide) (by decide) (deleteKt_of_found e₂ hc' e₃ e₄) ?_ ?_ <;>
      rw [hc]
    · decide
    · rfl
  refine ⟨?_, hget, hl, hp, ?_, hnull⟩
  · rw [show [Op.open, .del [109]] = [.open] ++ [.del [109]] from rfl, run_append,
      bind_eq_of_ok twoLeavesWriter_run]
    simp only [run, Op.call, bind_assoc, bind_eq_of_ok hdel]
    rfl
  · rw [cancel_bad_address ho' hB' hB.2.2 (hB.2.1 ▸ hp), hB.1]
    rfl

/-! ## `cancel` after a failed commit -/

/-- The run before the failed commit: a table created with block size 2048, given key `a`,
flushed and committed at revision 1. -/
def failedCommitRun : List Op :=
  [.createAndOpen 2048, .add [97] [1] false, .flushDb, .commit 1 none]

/-- The tables the calls of `failedCommitRun` leave, one after another. -/
def failedCommitState₁ : Table :=
  after (Op.call sampleEnv (.createAndOpen 2048) (Table.new emptyFiles false .dontCompress))
def failedCommitState₂ : Table := after (Op.call sampleEnv (.add [97] [1] false) failedCommitState₁)
def failedCommitState₃ : Table := after (Op.call sampleEnv .flushDb failedCommitState₂)
def failedCommitState₄ : Table := after (Op.call sampleEnv (.commit 1 none) failedCommitState₃)
/-- The table `commit(2)` leaves when syncing the data file fails. -/
def failedCommitThrown : Table := after (commit 2 (some .fsyncFails) failedCommitState₄)
/-- The table `cancel` leaves after that. -/
def failedCommitCancelled : Table := after (cancel failedCommitThrown)

set_option maxRecDepth 100000 in
/-- The run's calls return, the commit to revision 2 throws and the `cancel` after it returns;
before, `a` is found in the base of revision 1, after, the table claims revision 2 and `a` is
gone.  One evaluation shares the tables the calls leave. -/
private theorem failedCommit_facts :
    returned (Op.call sampleEnv (.createAndOpen 2048) (Table.new emptyFiles false .dontCompress)) =
        true ∧
      returned (Op.call sampleEnv (.add [97] [1] false) failedCommitState₁) = true ∧
      returned (Op.call sampleEnv .flushDb failedCommitState₂) = true ∧
      returned (Op.call sampleEnv (.commit 1 none) failedCommitState₃) = true ∧
      (failedCommitState₄.files.base failedCommitState₄.baseLetter).map (·.revision) = some 1 ∧
      returnedValue (getExactEntry sampleEnv [97] failedCommitState₄) = some (some [1]) ∧
      returned (commit 2 (some .fsyncFails) failedCommitState₄) = false ∧
      returned (cancel failedCommitThrown) = true ∧
      failedCommitCancelled.revisionNumber = 2 ∧
      returnedValue (getExactEntry sampleEnv [97] failedCommitCancelled) = some none := by
  decide

set_option maxRecDepth 100000 in
/-- **`cancel` after a failed commit keeps the failed revision.**  `commit` sets the table's
revision to the new one before it syncs the data file, and on the failure closes the table;
`cancel` of a closed table only copies `revision_number` into `latest_revision_number`.  It
returns normally, but the table still claims revision 2, and key `a`, which the base at revision 1
holds, is no longer found. -/
theorem cancel_after_failed_commit :
    run sampleEnv failedCommitRun (Table.new emptyFiles false .dontCompress) =
        .ok () failedCommitState₄ ∧
      (failedCommitState₄.files.base failedCommitState₄.baseLetter).map (·.revision) = some 1 ∧
      returnedValue (getExactEntry sampleEnv [97] failedCommitState₄) = some (some [1]) ∧
      returned (commit 2 (some .fsyncFails) failedCommitState₄) = false ∧
      cancel failedCommitThrown = .ok () failedCommitCancelled ∧
      failedCommitCancelled.revisionNumber = 2 ∧
      returnedValue (getExactEntry sampleEnv [97] failedCommitCancelled) = some none := by
  obtain ⟨r₁, r₂, r₃, r₄, hB, hget, hfail, hc, hrev, hnone⟩ := failedCommit_facts
  have h₁ : Op.call sampleEnv (.createAndOpen 2048) (Table.new emptyFiles false .dontCompress) =
    .ok () failedCommitState₁ := eq_ok_of_returned r₁
  have h₂ : Op.call sampleEnv (.add [97] [1] false) failedCommitState₁ =
    .ok () failedCommitState₂ := eq_ok_of_returned r₂
  have h₃ : Op.call sampleEnv .flushDb failedCommitState₂ = .ok () failedCommitState₃ :=
    eq_ok_of_returned r₃
  have h₄ : Op.call sampleEnv (.commit 1 none) failedCommitState₃ = .ok () failedCommitState₄ :=
    eq_ok_of_returned r₄
  refine ⟨?_, hB, hget, hfail, eq_ok_of_returned hc, hrev, hnone⟩
  rw [failedCommitRun, run_cons_ok _ h₁, run_cons_ok _ h₂, run_cons_ok _ h₃, run_cons_ok _ h₄]
  rfl

/-! ## A writer that cancels back to an older revision -/

/-- Leaf of revision 2 holding the first key `""` of the table and key `a`. -/
def leafOfA : Block :=
  addItemToBlock 2048 (fakeRoot 2048 2) ⟨some ⟨[97], 1⟩, .chunk 1 false [1]⟩ (dirStart + D2)

/-- Leaf of revision 2 holding key `m`. -/
def leafOfM : Block :=
  addItemToBlock 2048 (emptyRoot 2048 2 0) ⟨some ⟨[109], 1⟩, .chunk 1 false [2]⟩ dirStart

/-- Root of revision 2 over the two leaves, with separator `m`. -/
def rootOfAM : Block :=
  addItemToBlock 2048 (addItemToBlock 2048 (emptyRoot 2048 2 1) (Item.formNullKey 0) dirStart)
    ⟨some ⟨[109], 1⟩, .child 1⟩ (dirStart + D2)

/-- The files of a table committed at revision 1 while empty and at revision 2 with keys `a` and
`m` in two leaves, blocks 0 and 1, under a root, block 2 — the blocks a writer that started from
the faked root and split it once would have used. -/
def splitRevisionsFiles : Files where
  db n := if n = 0 then some leafOfA else if n = 1 then some leafOfM else
    if n = 2 then some rootOfAM else none
  baseA := some ⟨2, 2048, 2, 1, 2, false, false, 2,
    ((Bitmap.empty.set 0 true).set 1 true).set 2 true⟩
  baseB := some ⟨1, 2048, 0, 0, 0, true, true, 0, .empty⟩
  tmp := none

/-- A reader opens the newest revision, 2; then a writer opens revision 1, cancels, adds key `c`
and flushes. -/
def reusedRevisionSteps : List (Party × Op) :=
  [(.reader, .open), (.writer, .openAt 1), (.writer, .cancel), (.writer, .add [99] [3] false),
    (.writer, .flushDb)]

/-- The two tables on the files, before any call. -/
def reusedRevision₀ : Shared :=
  ⟨Table.new splitRevisionsFiles true .dontCompress, Table.new splitRevisionsFiles false .dontCompress⟩

/-- The pairs the calls of `reusedRevisionSteps` leave, one after another. -/
def reusedRevision₁ : Shared := reusedRevision₀.after sampleEnv (.reader, .open)
def reusedRevision₂ : Shared := reusedRevision₁.after sampleEnv (.writer, .openAt 1)
def reusedRevision₃ : Shared := reusedRevision₂.after sampleEnv (.writer, .cancel)
def reusedRevision₄ : Shared := reusedRevision₃.after sampleEnv (.writer, .add [99] [3] false)
def reusedRevision₅ : Shared := reusedRevision₄.after sampleEnv (.writer, .flushDb)

set_option maxRecDepth 100000 in
/-- The calls of `reusedRevisionSteps` return; the reader's lookups before and after, and the
writer's write. -/
private theorem reusedRevision_facts :
    returned (Op.call sampleEnv .open reusedRevision₀.reader) = true ∧
      returned (Op.call sampleEnv (.openAt 1) reusedRevision₁.writer) = true ∧
      returned (Op.call sampleEnv .cancel reusedRevision₂.writer) = true ∧
      returned (Op.call sampleEnv (.add [99] [3] false) reusedRevision₃.writer) = true ∧
      returned (Op.call sampleEnv .flushDb reusedRevision₄.writer) = true ∧
      returnedValue (getExactEntry sampleEnv [99] reusedRevision₁.reader) = some none ∧
      returnedValue (getExactEntry sampleEnv [97] reusedRevision₁.reader) = some (some [1]) ∧
      reusedRevision₅.writer.writes.map (fun w => (w.n, w.revision, w.latest)) = [(0, 2, 1)] ∧
      returnedValue (getExactEntry sampleEnv [99] reusedRevision₅.reader) = some (some [3]) ∧
      returnedValue (getExactEntry sampleEnv [97] reusedRevision₅.reader) = some none := by
  decide

/-- **A reader sees a writer that reuses its revision.**  A reader opens revision 2 of
`splitRevisionsFiles` while its base exists; there key `c` is absent and key `a` has the value
`[1]`.  A writer opened by `open(1)` cancels — which sets `latest_revision_number` back to 1 — and
stamps the faked root it starts from, which takes block 0, with revision 2.  After it adds `c` and
flushes, block 0 holds the writer's leaf, stamped 2 like the reader's root, so `block_to_cursor`
accepts it: the reader returns `c`, which revision 2 does not hold, and no longer finds `a`. -/
theorem reader_sees_writer_reusing_revision :
    Shared.run sampleEnv reusedRevisionSteps reusedRevision₀ = some reusedRevision₅ ∧
      returnedValue (getExactEntry sampleEnv [99] reusedRevision₁.reader) = some none ∧
      returnedValue (getExactEntry sampleEnv [97] reusedRevision₁.reader) = some (some [1]) ∧
      reusedRevision₅.writer.writes.map (fun w => (w.n, w.revision, w.latest)) = [(0, 2, 1)] ∧
      returnedValue (getExactEntry sampleEnv [99] reusedRevision₅.reader) = some (some [3]) ∧
      returnedValue (getExactEntry sampleEnv [97] reusedRevision₅.reader) = some none := by
  obtain ⟨r₁, r₂, r₃, r₄, r₅, hc, ha, hw, hc', ha'⟩ := reusedRevision_facts
  refine ⟨?_, hc, ha, hw, hc', ha'⟩
  rw [reusedRevisionSteps,
    Shared.run_cons (u := reusedRevision₁) (Shared.step_of_returned .reader r₁),
    Shared.run_cons (u := reusedRevision₂) (Shared.step_of_returned .writer r₂),
    Shared.run_cons (u := reusedRevision₃) (Shared.step_of_returned .writer r₃),
    Shared.run_cons (u := reusedRevision₄) (Shared.step_of_returned .writer r₄),
    Shared.run_cons (u := reusedRevision₅) (Shared.step_of_returned .writer r₅)]
  rfl

end FlintBtree
