import FlintBtree.Lookup

/-!
# Opening a base

A reader of a flint table sees the revision `basic_open` picks: with no revision asked for, the
valid base file with the highest revision, base `B` on a tie; with revision `R` asked for, the base
file that holds `R`, base `A` first.  This module follows the reader's constructor, `open()` and
`open(R)` through `basic_open`, the cursor's allocation and `read_root`, and shows that the table
they leave is ready to look keys up in the tree that base roots.  With `Lookup.lean` this says
what every sequence of lookups of a freshly opened reader returns.

## Main Definitions

* `Files.view` — the blocks of the data file, as a reader reads them.
* `Files.Newest` — the base file with the highest revision.
* `Files.Holds` — the base file `open(R)` picks for revision `R`.
* `Loaded` — what `basic_open` takes from the base it picks.

## Main Results

* `basicOpen_newest`, `basicOpen_holds` — `basic_open` loads the base it is asked for.
* `open_reads_newest` — a new reader after `open()` is ready to look keys up in the newest tree.
* `reader_reads_newest_base` — **its lookups return what the newest tree's leaves hold.**
* `reader_reads_requested_revision` — **after `open(R)` they return what revision `R`'s tree holds,
  and `open(R)` returns true.**
* `reader_lacking_revision_finds_nothing` — when no base holds `R`, `open(R)` returns false and
  leaves a table that answers every lookup with "not found", not with an error.

## Design Notes

The faked root of a base that has none is not a block of the data file, so the snapshot the reader
shows cannot hold it; the results here are for a base with a root on disk.  A reader's cursor is
allocated fresh by the constructor, so it carries no `rewrite` flag and no slot hint that `find`
could not start from.
-/
namespace FlintBtree

/-! ## The newest base -/

/-- The tree a reader sees in the data file: every level reads the disk. -/
def Files.view (f : Files) : View := fun _ n => f.db n

/-- Base file `ch` holds `B` and the other base, if valid, is not newer: the base `basic_open`
picks when no revision is asked for, the valid one with the highest revision, `B` on a tie. -/
def Files.Newest (f : Files) (ch : Letter) (B : BaseFile) : Prop :=
  f.base ch = some B ∧
    ∀ o, f.base ch.other = some o → o.revision < B.revision ∨ o.revision = B.revision ∧ ch = .B

/-- Base file `ch` holds `B`, of revision `R`: the base `basic_open` picks when revision `R` is
asked for, base `A` when both hold it. -/
def Files.Holds (f : Files) (R : Nat) (ch : Letter) (B : BaseFile) : Prop :=
  f.base ch = some B ∧ B.revision = R ∧ (ch = .B → ∀ a, f.baseA = some a → a.revision ≠ R)

/-- What `basic_open` takes from the base `B` of letter `ch`, and what it leaves alone. -/
structure Loaded (ch : Letter) (B : BaseFile) (t t' : Table) : Prop where
  files : t'.files = t.files
  handle : t'.handle = t.handle
  writable : t'.writable = t.writable
  C : t'.C = t.C
  baseLetter : t'.baseLetter = ch
  revisionNumber : t'.revisionNumber = B.revision
  root : t'.root = B.root
  level : t'.level = B.level
  fakedRoot : t'.fakedRootBlock = B.haveFakeroot
  sequential : t'.sequential = B.sequential
  blockSize : t'.blockSize = B.blockSize

section BasicOpen

variable (env : Env) {t : Table} {ch : Letter} {B : BaseFile}

/-- When `basic_open` returns true it has loaded a base file of the table. -/
theorem basicOpen_loads (revisionSupplied : Bool) (revision : Nat) :
    Wp (basicOpen env revisionSupplied revision)
      (fun r t' => r = true → ∃ ch B, t.files.base ch = some B ∧ Loaded ch B t t') t := by
  unfold basicOpen
  simp only [wp_bind, wp_get, wp_modify, wp_ite, wp_throw, wp_pure, implies_true, and_self,
    true_and]
  intro _
  split
  · exact fun h => absurd h Bool.false_ne_true
  · next ch _ =>
    split
    · exact fun h => absurd h Bool.false_ne_true
    · next B hB => exact fun _ => ⟨ch, B, hB, rfl, rfl, rfl, rfl, rfl, rfl, rfl, rfl, rfl, rfl, rfl⟩

/-- **`basic_open` with no revision loads the newest base.** -/
theorem basicOpen_newest (hN : t.files.Newest ch B) :
    Ok (basicOpen env false 0) (fun r t' => r = true ∧ Loaded ch B t t') t := by
  obtain ⟨hB, hother⟩ := hN
  have hsome : ¬(t.files.baseA.isNone = true ∧ t.files.baseB.isNone = true) := by
    cases ch <;> simp only [Files.base] at hB <;> simp [hB]
  unfold basicOpen
  simp only [ok_bind, ok_get, ok_modify, if_neg hsome, Bool.false_eq_true, ite_false, ok_pure]
  cases ch <;> simp only [Files.base, Letter.other] at hB hother
  · cases hb : t.files.baseB with
    | none =>
      simp only [hB, hb, Files.base, ok_pure, ok_bind, ok_modify]
      exact ⟨trivial, rfl, rfl, rfl, rfl, rfl, rfl, rfl, rfl, rfl, rfl, rfl⟩
    | some b =>
      have hlt : ¬B.revision ≤ b.revision := by
        rcases hother b hb with h | ⟨-, h⟩
        · exact Nat.not_le.2 h
        · cases h
      simp only [hB, hb, if_neg hlt, Files.base, ok_pure, ok_bind, ok_modify]
      exact ⟨trivial, rfl, rfl, rfl, rfl, rfl, rfl, rfl, rfl, rfl, rfl, rfl⟩
  · cases ha : t.files.baseA with
    | none =>
      simp only [hB, ha, Files.base, ok_pure, ok_bind, ok_modify]
      exact ⟨trivial, rfl, rfl, rfl, rfl, rfl, rfl, rfl, rfl, rfl, rfl, rfl⟩
    | some a =>
      have hle : a.revision ≤ B.revision := (hother a ha).elim Nat.le_of_lt fun h => h.1.le
      simp only [hB, ha, if_pos hle, Files.base, ok_pure, ok_bind, ok_modify]
      exact ⟨trivial, rfl, rfl, rfl, rfl, rfl, rfl, rfl, rfl, rfl, rfl, rfl⟩

/-- **`basic_open` with revision `R` loads the base that holds it.** -/
theorem basicOpen_holds {R : Nat} (hH : t.files.Holds R ch B) :
    Ok (basicOpen env true R) (fun r t' => r = true ∧ Loaded ch B t t') t := by
  obtain ⟨hB, rfl, hA⟩ := hH
  have hsome : ¬(t.files.baseA.isNone = true ∧ t.files.baseB.isNone = true) := by
    cases ch <;> simp only [Files.base] at hB <;> simp [hB]
  unfold basicOpen
  simp only [ok_bind, ok_get, ok_modify, if_neg hsome, if_true, ok_pure]
  cases ch <;> simp only [Files.base] at hB
  · simp only [hB, Option.map_some', if_true, Files.base, ok_bind, ok_modify, ok_pure]
    exact ⟨trivial, rfl, rfl, rfl, rfl, rfl, rfl, rfl, rfl, rfl, rfl, rfl⟩
  · have hA' : t.files.baseA.map (·.revision) ≠ some B.revision := by
      cases ha : t.files.baseA with
      | none => simp
      | some a => simp [hA rfl a ha]
    simp only [hB, hA', Option.map_some', if_true, if_false, Files.base, ok_bind, ok_modify, ok_pure]
    exact ⟨trivial, rfl, rfl, rfl, rfl, rfl, rfl, rfl, rfl, rfl, rfl, rfl⟩

/-- `basic_open` with revision `R`, when a base exists but none holds `R`, returns false and leaves
the handle alone. -/
theorem basicOpen_lacks {R : Nat} (hsome : ∃ ch B, t.files.base ch = some B)
    (hR : ∀ ch B, t.files.base ch = some B → B.revision ≠ R) :
    Ok (basicOpen env true R) (fun r t' => r = false ∧ t'.handle = t.handle) t := by
  obtain ⟨ch, B, hB⟩ := hsome
  have hsome : ¬(t.files.baseA.isNone = true ∧ t.files.baseB.isNone = true) := by
    cases ch <;> simp only [Files.base] at hB <;> simp [hB]
  have hA : t.files.baseA.map (·.revision) ≠ some R := by
    cases ha : t.files.baseA with
    | none => simp
    | some a => simpa using hR .A a ha
  have hB' : t.files.baseB.map (·.revision) ≠ some R := by
    cases hb : t.files.baseB with
    | none => simp
    | some b => simpa using hR .B b hb
  unfold basicOpen
  simp only [ok_bind, ok_get, ok_modify, if_neg hsome, if_true, if_neg hA, if_neg hB', ok_pure]
  exact ⟨trivial, trivial⟩

end BasicOpen

/-! ## A reader's `open()` -/

section Reader

variable (env : Env) (s : CompressStrategy) {files : Files} {ch : Letter} {B : BaseFile}

/-- `read_root` of a reader whose base has a root on disk, with the top level of the cursor holding
a buffer, no block and no rewrite flag: it reads the root block into that level, and passes the
revision check when the root is no newer than the revision opened. -/
theorem readRoot_reader {t : Table} {b : Block} (hw : t.writable = false)
    (hfake : t.fakedRootBlock = false) (hn : (t.C t.level).n = none)
    (hr : (t.C t.level).rewrite = false) (hp : (t.C t.level).p.isSome)
    (hb : t.files.db t.root = some b) (hrev : b.revision ≤ t.revisionNumber) :
    Ok readRoot (fun _ t' =>
      t' = t.modifyCur .builtIn t.level fun x => { x with p := some b, n := some t.root }) t := by
  have hp' : (t.C t.level).p.isNone = false := by
    cases h : (t.C t.level).p <;> simp [h] at hp ⊢
  unfold readRoot blockToCursor
  simp only [ok_bind, ok_get, hfake, Bool.false_eq_true, ite_false, Table.cur, hn, hr, hw,
    reduceCtorEq, false_and, ok_pure, hp', ok_readBlock, hb, ok_modifyCur, Table.modifyCur_level,
    lt_irrefl, ok_bufferOf]
  refine ⟨b, rfl, b, by simp [Table.modifyCur], ?_⟩
  simp only [Table.modifyCur, Nat.not_lt.2 hrev, ite_false, ok_pure]

/-- What `do_open_to_read` does once `basic_open` has loaded a base with a root on disk into a
reader whose cursor has no rewrite flag and no slot hint: the cursor's allocation and `read_root`
leave the table ready to look keys up in that base's tree, and it returns true. -/
theorem loaded_reading {t₀ t₁ : Table} (hl : Loaded ch B t₀ t₁) (hw : t₀.writable = false)
    (hh : t₀.handle = .opened) (hf : t₀.files = files)
    (hC : ∀ k, (t₀.C k).rewrite = false ∧ (t₀.C k).c = -1) (hfake : B.haveFakeroot = false)
    (hseq : B.sequential = false) (hs : Snapshot files.view B.level B.root)
    (hrev : ∀ b, files.db B.root = some b → b.revision ≤ B.revision) {Q : Bool → Table → Prop}
    (hQ : ∀ t', Reading files.view B.level B.root t' → Q true t') :
    Ok (do allocateCursor; readRoot; pure true) Q t₁ := by
  obtain ⟨b, hb, -⟩ := hs.block (n := B.root) le_rfl (by simp [View.blocksAt_top])
  have hw₁ : t₁.writable = false := hl.writable.trans hw
  have hr : ∀ k, (t₁.C k).rewrite = false := fun k => by rw [hl.C]; exact (hC k).1
  have hc : ∀ k, (t₁.C k).c = -1 := fun k => by rw [hl.C]; exact (hC k).2
  simp only [ok_bind, allocateCursor, ok_modify]
  refine Ok.mono (readRoot_reader (b := b) hw₁ (hl.fakedRoot.trans hfake) (by simp)
    (by simp [hr]) (by simp) (by simpa [hl.files, hf, hl.root] using hb)
    (hl.revisionNumber ▸ hrev b hb)) ?_
  rintro _ _ rfl
  refine hQ _ ⟨⟨by simp [hl.level], fun k _ n _ => ?_, fun k h => ?_, fun _ h => ?_⟩, ?_,
    fun k hk => ?_, hl.handle.trans hh, hl.sequential.trans hseq⟩
  · simp [Table.look, hw₁, hl.files, hf, Files.view]
  · by_cases hk : k = t₁.level
    · simp [Table.cur, Table.modifyCur, hk, hr] at h
    · simp [Table.cur, Table.modifyCur, Function.update_noteq hk, hr] at h
      split_ifs at h
      simp [hr] at h
  · simp [hw₁] at h
  · simp [Table.cur, Table.modifyCur, hl.level, hl.root]
  · rcases Nat.lt_or_eq_of_le hk with hlt | rfl
    · simp [View.FindReady, Table.cur, Table.modifyCur, hl.level, Function.update_noteq hlt.ne, hk,
        hr, hc]
    · simp [View.FindReady, Table.cur, Table.modifyCur, hl.level, hl.root, hr, hc, hb]

theorem open_reads_newest (hN : files.Newest ch B) (hfake : B.haveFakeroot = false)
    (hseq : B.sequential = false) (hs : Snapshot files.view B.level B.root)
    (hrev : ∀ b, files.db B.root = some b → b.revision ≤ B.revision) :
    Ok («open» env) (fun _ t' => Reading files.view B.level B.root t') (Table.new files true s) := by
  unfold «open» close doOpenToRead
  simp only [Table.new, ok_bind, ok_modify, ok_get, ok_pure, reduceIte, Bool.not_true,
    Bool.not_false, Bool.false_eq_true, ne_eq, reduceCtorEq, not_false_eq_true]
  refine Ok.mono (basicOpen_newest env hN) ?_
  rintro _ t₁ ⟨rfl, hl⟩
  simp only [Bool.not_true, Bool.false_eq_true, ite_false, ok_bind, ok_pure]
  exact loaded_reading hl rfl rfl rfl (fun k => by dsimp only; split <;> exact ⟨rfl, rfl⟩)
    hfake hseq hs hrev fun _ h => h

/-- **A new reader reads the newest tree.**  Construct a read-only table over files whose newest
base has a root on disk and is not in sequential mode, the tree under that root having the
B-tree invariant, no block reached twice, no child newer than its parent, and a root no newer
than the base's revision.  Then `open()` followed by any sequence of `get_exact_entry` calls for
keys no longer than `BTREE_MAX_KEY_LEN` returns, key by key, what that tree's leaf items hold, or
throws the first error reading them throws. -/
theorem reader_reads_newest_base (hN : files.Newest ch B) (hfake : B.haveFakeroot = false)
    (hseq : B.sequential = false) (hs : Snapshot files.view B.level B.root)
    (hrev : ∀ b, files.db B.root = some b → b.revision ≤ B.revision) {keys : List (List UInt8)}
    (hkeys : ∀ k ∈ keys, k.length ≤ flintBtreeMaxKeyLen) :
    outcome ((do «open» env; keys.mapM (getExactEntry env)) (Table.new files true s)) =
      keys.mapM (storedValue env (files.view.leaves B.level B.root)) :=
  Spec.outcome_eq (spec_bind.2 (Spec.of_ok ((open_reads_newest env s hN hfake hseq hs hrev).mono
    fun _ _ hr => lookups_spec env hs keys hr hkeys)))

/-- The base of revision 1 over the two leaves: root block 2 at level 1, blocks 0 to 2 in use. -/
def twoLeavesBase : BaseFile :=
  ⟨1, 2048, 2, 1, 2, false, false, 2, ((Bitmap.empty.set 0 true).set 1 true).set 2 true⟩

/-- The files of the two leaves with that base as base `A`. -/
def twoLeavesCommitted : Files := { twoLeavesFiles 1 with baseA := some twoLeavesBase }

/-- A reader opening the files of the two leaves and looking up `m`, `a` and then `b` reads
`[2]`, `[1]` and nothing. -/
theorem twoLeaves_reader_reads :
    twoLeavesCommitted.Newest .A twoLeavesBase ∧ twoLeavesBase.haveFakeroot = false ∧
      twoLeavesBase.sequential = false ∧ Snapshot twoLeavesCommitted.view 1 2 ∧
      (∀ b, twoLeavesCommitted.db 2 = some b → b.revision ≤ 1) ∧
      (∀ k ∈ ([[109], [97], [98]] : List (List UInt8)), k.length ≤ flintBtreeMaxKeyLen) ∧
      outcome ((do «open» sampleEnv; [[109], [97], [98]].mapM (getExactEntry sampleEnv))
        (Table.new twoLeavesCommitted true .dontCompress)) = .ok [some [2], some [1], none] := by
  have hN : twoLeavesCommitted.Newest .A twoLeavesBase := ⟨rfl, fun o h => by cases h⟩
  have hs : Snapshot twoLeavesCommitted.view 1 2 := ⟨twoLeaves_tree 1, twoLeaves_nodup 1, by decide⟩
  have hrev : ∀ b, twoLeavesCommitted.db 2 = some b → b.revision ≤ 1 := fun b h => by
    cases h; decide
  have hk : ∀ k ∈ ([[109], [97], [98]] : List (List UInt8)), k.length ≤ flintBtreeMaxKeyLen := by
    decide
  exact ⟨hN, rfl, rfl, hs, hrev, hk,
    (reader_reads_newest_base sampleEnv .dontCompress hN rfl rfl hs hrev hk).trans rfl⟩

/-! ## A reader's `open(R)` -/

/-- A new reader's `open(R)`, when a base file holds revision `R`, returns true and leaves the table
ready to look keys up in that base's tree. -/
theorem openAt_reads_holding {R : Nat} (hH : files.Holds R ch B) (hfake : B.haveFakeroot = false)
    (hseq : B.sequential = false) (hs : Snapshot files.view B.level B.root)
    (hrev : ∀ b, files.db B.root = some b → b.revision ≤ B.revision) :
    Ok (openAt env R) (fun r t' => r = true ∧ Reading files.view B.level B.root t')
      (Table.new files true s) := by
  unfold openAt close doOpenToRead
  simp only [Table.new, ok_bind, ok_modify, ok_get, ok_pure, reduceIte, Bool.not_true,
    Bool.not_false, Bool.false_eq_true, ne_eq, reduceCtorEq, not_false_eq_true]
  refine Ok.mono (basicOpen_holds env hH) ?_
  rintro _ t₁ ⟨rfl, hl⟩
  simp only [Bool.not_true, Bool.false_eq_true, ite_false, ok_bind, ok_pure]
  exact loaded_reading hl rfl rfl rfl (fun k => by dsimp only; split <;> exact ⟨rfl, rfl⟩)
    hfake hseq hs hrev fun _ h => ⟨rfl, h⟩

/-- A new reader's `open(R)`, when a base exists but none holds `R`, returns false and leaves the
table unopened. -/
theorem openAt_lacks {R : Nat} (hsome : ∃ ch B, files.base ch = some B)
    (hR : ∀ ch B, files.base ch = some B → B.revision ≠ R) :
    Ok (openAt env R) (fun r t' => r = false ∧ t'.handle = .unopened) (Table.new files true s) := by
  unfold openAt close doOpenToRead
  simp only [Table.new, ok_bind, ok_modify, ok_get, ok_pure, reduceIte, Bool.not_true,
    Bool.not_false, Bool.false_eq_true, ne_eq, reduceCtorEq, not_false_eq_true]
  refine Ok.mono (basicOpen_lacks env hsome hR) ?_
  rintro _ t₁ ⟨rfl, -⟩
  -- `do_open_to_read` marks the table unopened and returns false, and `open` closes it again
  exact ok_iff.2 ⟨_, _, rfl, rfl, rfl⟩

/-- On an unopened table `get_exact_entry` finds nothing and changes nothing. -/
theorem getExactEntry_unopened {t : Table} (h : t.handle = .unopened) (key : List UInt8) :
    getExactEntry env key t = .ok none t := by
  simp [getExactEntry, h, bind, EStateM.bind, get, getThe, MonadStateOf.get, EStateM.get, pure,
    EStateM.pure]

theorem lookups_unopened {t : Table} (h : t.handle = .unopened) :
    ∀ keys : List (List UInt8), keys.mapM (getExactEntry env) t = .ok (keys.map fun _ => none) t
  | [] => rfl
  | k :: ks => by
    simp only [List.mapM_cons, bind, EStateM.bind, getExactEntry_unopened env h,
      lookups_unopened h ks]
    rfl

/-- **A reader opened at a revision reads that revision.**  Construct a read-only table over files
in which base `ch` holds revision `R` (base `A`, if both do), with a root on disk, not in sequential
mode, the tree under that root having the B-tree invariant, no block reached twice, no child newer
than its parent, and a root no newer than `R`.  Then `open(R)` returns true, and any sequence of
`get_exact_entry` calls after it for keys no longer than `BTREE_MAX_KEY_LEN` returns, key by key,
what that tree's leaf items hold, or throws the first error reading them throws. -/
theorem reader_reads_requested_revision {R : Nat} (hH : files.Holds R ch B)
    (hfake : B.haveFakeroot = false) (hseq : B.sequential = false)
    (hs : Snapshot files.view B.level B.root)
    (hrev : ∀ b, files.db B.root = some b → b.revision ≤ B.revision) {keys : List (List UInt8)}
    (hkeys : ∀ k ∈ keys, k.length ≤ flintBtreeMaxKeyLen) :
    outcome ((do let r ← openAt env R; let vs ← keys.mapM (getExactEntry env); pure (r, vs))
      (Table.new files true s)) =
      (keys.mapM (storedValue env (files.view.leaves B.level B.root))).map (true, ·) := by
  refine Spec.outcome_eq (spec_bind.2 (Spec.of_ok
    ((openAt_reads_holding env s hH hfake hseq hs hrev).mono fun _ _ ⟨hr, hread⟩ => ?_)))
  subst hr
  refine spec_bind.2 ((lookups_spec env hs keys hread hkeys).mono (fun vs _ h => ?_) fun e h => ?_)
  · rw [spec_pure, ← h]; rfl
  · rw [← h]; rfl

/-- A reader of the two leaves opened at revision 1, the revision base `A` holds, looks up `m`, `a`
and then `b` and reads `[2]`, `[1]` and nothing. -/
theorem twoLeaves_reader_reads_revision_one :
    twoLeavesCommitted.Holds 1 .A twoLeavesBase ∧ twoLeavesBase.haveFakeroot = false ∧
      twoLeavesBase.sequential = false ∧ Snapshot twoLeavesCommitted.view 1 2 ∧
      (∀ b, twoLeavesCommitted.db 2 = some b → b.revision ≤ 1) ∧
      (∀ k ∈ ([[109], [97], [98]] : List (List UInt8)), k.length ≤ flintBtreeMaxKeyLen) ∧
      outcome ((do
          let r ← openAt sampleEnv 1
          let vs ← [[109], [97], [98]].mapM (getExactEntry sampleEnv)
          pure (r, vs))
        (Table.new twoLeavesCommitted true .dontCompress)) = .ok (true, [some [2], some [1], none]) := by
  have hH : twoLeavesCommitted.Holds 1 .A twoLeavesBase := ⟨rfl, rfl, fun h => by cases h⟩
  have hs : Snapshot twoLeavesCommitted.view 1 2 := ⟨twoLeaves_tree 1, twoLeaves_nodup 1, by decide⟩
  have hrev : ∀ b, twoLeavesCommitted.db 2 = some b → b.revision ≤ 1 := fun b h => by
    cases h; decide
  have hk : ∀ k ∈ ([[109], [97], [98]] : List (List UInt8)), k.length ≤ flintBtreeMaxKeyLen := by
    decide
  exact ⟨hH, rfl, rfl, hs, hrev, hk,
    (reader_reads_requested_revision sampleEnv .dontCompress hH rfl rfl hs hrev hk).trans rfl⟩

/-- **A reader asked for a revision no base holds finds nothing.**  Construct a read-only table
over files with at least one base file, none of which holds revision `R`.  Then `open(R)` returns
false, and every `get_exact_entry` after it returns "not found" without throwing: the table is
left unopened (`handle = -1`), not closed. -/
theorem reader_lacking_revision_finds_nothing {R : Nat} (hsome : ∃ ch B, files.base ch = some B)
    (hR : ∀ ch B, files.base ch = some B → B.revision ≠ R) (keys : List (List UInt8)) :
    outcome ((do let r ← openAt env R; let vs ← keys.mapM (getExactEntry env); pure (r, vs))
      (Table.new files true s)) = .ok (false, keys.map fun _ => none) := by
  refine Spec.outcome_eq (spec_bind.2 (Spec.of_ok ((openAt_lacks env s hsome hR).mono
    fun _ t' ⟨hr, hh⟩ => ?_)))
  subst hr
  rw [spec_bind, Spec, lookups_unopened env hh keys]
  rfl

/-- A reader of the two leaves asked for revision 2, which no base holds, finds neither `a` nor
`m`. -/
theorem twoLeaves_reader_lacks_revision_two :
    (∃ ch B, twoLeavesCommitted.base ch = some B) ∧
      (∀ ch B, twoLeavesCommitted.base ch = some B → B.revision ≠ 2) ∧
      outcome ((do
          let r ← openAt sampleEnv 2
          let vs ← [[97], [109]].mapM (getExactEntry sampleEnv)
          pure (r, vs))
        (Table.new twoLeavesCommitted true .dontCompress)) = .ok (false, [none, none]) := by
  have hsome : ∃ ch B, twoLeavesCommitted.base ch = some B := ⟨.A, twoLeavesBase, rfl⟩
  have hR : ∀ ch B, twoLeavesCommitted.base ch = some B → B.revision ≠ 2 := by
    rintro (_ | _) B h <;> cases h
    decide
  exact ⟨hsome, hR, reader_lacking_revision_finds_nothing sampleEnv .dontCompress hsome hR _⟩

end Reader

end FlintBtree
