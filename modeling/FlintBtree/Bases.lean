import FlintBtree.Frame
import FlintBtree.Commit

/-!
# The older base before a block write

A writer that opened or committed with both base files on disk still has the older base, and
`open()` would pick the newer.  The blocks a transaction writes are free in the current base's
bitmap only, so they may be blocks of the older base's tree.  `write_block` therefore unlinks the
older base before its first write, and clears `both_bases` so that it does so once.  This module
proves that the flag is kept honest over every run: whenever an open table has `both_bases` clear,
the base other than `base_letter` is gone.  So at every point where a block write may be cut short,
the newest base on disk is the writer's own, holding the revision it is at.

## Main Definitions

* `OtherGone` — on an open table with `both_bases` clear, the other base file does not exist.
* `Unlinking` — what the steps of a transaction do to the bases: leave them, or unlink the other
  one and clear `both_bases`.

## Main Results

* `otherGone_run` — every run that returns keeps `OtherGone`.
* `older_base_gone_before_writes` — **from every state a run reaches, a block write leaves only the
  writer's base at each of its crash points.**
* `reopened_writer_breaks_revision_check` — a writer opened at an older revision writes a block
  with a revision other than the one the code asserts; its commit then fails with
  "Db block overwritten", and a reader of the files it leaves is refused.

## Design Notes

`basic_open` sets `both_bases` from the two files it finds and `commit` sets it, having written the
other base; every other call reaches the flag and the base files only through `write_block`, so
the frame lemmas of `Frame.lean` carry `Unlinking` through them.
-/

namespace FlintBtree

/-- On an open table whose `both_bases` is clear, the base file other than `base_letter` is gone. -/
def OtherGone (t : Table) : Prop :=
  t.handle = .opened → t.bothBases = false → t.files.base t.baseLetter.other = none

/-- What a step of a transaction does to the base files: the descriptor and the base letter stay,
and either the other base and `both_bases` stay too, or the other base is gone and `both_bases` is
clear. -/
structure Unlinking (t t' : Table) : Prop where
  handle : t'.handle = t.handle
  baseLetter : t'.baseLetter = t.baseLetter
  other : t'.files.base t.baseLetter.other = t.files.base t.baseLetter.other ∧
      t'.bothBases = t.bothBases ∨
    t'.files.base t.baseLetter.other = none ∧ t'.bothBases = false

instance : IsRefl Table Unlinking := ⟨fun _ => ⟨rfl, rfl, .inl ⟨rfl, rfl⟩⟩⟩

instance : IsTrans Table Unlinking := ⟨fun _ _ _ h₁ h₂ => by
  refine ⟨h₂.handle.trans h₁.handle, h₂.baseLetter.trans h₁.baseLetter, ?_⟩
  have o₂ := h₂.other
  rw [h₁.baseLetter] at o₂
  rcases o₂ with ⟨e₂, b₂⟩ | h
  · rcases h₁.other with ⟨e₁, b₁⟩ | ⟨e₁, b₁⟩
    · exact .inl ⟨e₂.trans e₁, b₂.trans b₁⟩
    · exact .inr ⟨e₂.trans e₁, b₂.trans b₁⟩
  · exact .inr h⟩

theorem Quiet.unlinking {t t' : Table} (h : Quiet t t') : Unlinking t t' :=
  ⟨h.handle, h.baseLetter, .inl ⟨by rw [h.files], h.bothBases⟩⟩

/-- `write_block` unlinks the other base when `both_bases` is set, and clears it. -/
theorem unlinking_writeBlock (n : Nat) (p : Block) : Stable Unlinking (writeBlock n p) :=
  ⟨fun t => by
    rw [Wp, writeBlock_spec]
    cases hb : t.bothBases
    · exact ⟨rfl, rfl, .inl ⟨by simp, hb.symm⟩⟩
    · exact ⟨rfl, rfl, .inr ⟨by simp, rfl⟩⟩⟩

theorem unlinking_readRoot : Stable Unlinking readRoot :=
  stable_readRoot (fun _ _ => Quiet.unlinking) unlinking_writeBlock

section Gone

variable (env : Env) {t : Table}

theorem OtherGone.of_unlinking {t' : Table} (h : OtherGone t) (hu : Unlinking t t') :
    OtherGone t' := fun ho hb => by
  rw [hu.baseLetter]
  rcases hu.other with ⟨e, b⟩ | ⟨e, -⟩
  · rw [e]
    exact h (hu.handle ▸ ho) (b ▸ hb)
  · exact e

/-- A call that only unlinks keeps the invariant. -/
theorem OtherGone.wp {α : Type} {x : M α} (hx : Stable Unlinking x) (h : OtherGone t) :
    Wp x (fun _ t' => OtherGone t') t :=
  (hx.wp t).mono fun _ _ hu => h.of_unlinking hu

/-- A table not open satisfies the invariant. -/
theorem OtherGone.of_handle (h : t.handle ≠ .opened) : OtherGone t := fun ho => absurd ho h

/-- A table with `both_bases` set satisfies the invariant. -/
theorem OtherGone.of_both (h : t.bothBases = true) : OtherGone t := fun _ hb => by
  rw [h] at hb
  cases hb

/-- When `basic_open` returns true it has set `both_bases` from the two files and `base_letter` to
one that exists, so a clear flag means the other does not. -/
theorem otherGone_basicOpen (revisionSupplied : Bool) (revision : Nat) :
    Wp (basicOpen env revisionSupplied revision) (fun r t' => r = true → OtherGone t') t := by
  unfold basicOpen
  simp only [wp_bind, wp_get, wp_modify, wp_ite, wp_throw, wp_pure, implies_true, and_self,
    true_and]
  intro _
  split
  · exact fun h => absurd h Bool.false_ne_true
  · next ch _ =>
    split
    · exact fun h => absurd h Bool.false_ne_true
    · next B hB =>
      intro _ _ hb
      cases ch <;> simp only [Files.base, Letter.other] at hB ⊢ <;> simp_all

theorem otherGone_doOpenToRead (revisionSupplied : Bool) (revision : Nat) :
    Wp (doOpenToRead env revisionSupplied revision) (fun _ t' => OtherGone t') t := by
  unfold doOpenToRead throwDatabaseClosed
  simp only [wp_bind, wp_get, wp_ite, wp_throw, wp_modify, wp_pure, implies_true, true_and]
  refine fun _ => (otherGone_basicOpen env revisionSupplied revision).mono fun r t₁ h => ?_
  cases r
  · simp only [Bool.not_false, ite_true, wp_bind, wp_modify, wp_ite, wp_pure, wp_throw]
    exact ⟨fun _ => OtherGone.of_handle (by simp), fun _ => trivial⟩
  · simp only [Bool.not_true, Bool.false_eq_true, ite_false, wp_bind, wp_pure, allocateCursor,
      wp_modify]
    exact OtherGone.wp unlinking_readRoot (h rfl)

theorem otherGone_doOpenToWrite (revisionSupplied : Bool) (revision : Nat) (createDb : Bool) :
    Wp (doOpenToWrite env revisionSupplied revision createDb) (fun _ t' => OtherGone t') t := by
  unfold doOpenToWrite throwDatabaseClosed
  simp only [wp_bind, wp_get, wp_ite, wp_throw, wp_modify, wp_setFiles, wp_pure, implies_true,
    true_and]
  refine fun _ => ⟨fun _ => ?_, fun _ => ?_⟩
  all_goals
    refine (otherGone_basicOpen env revisionSupplied revision).mono fun r t₁ h => ?_
    cases r
    · simp only [Bool.not_false, ite_true, wp_bind, wp_modify, wp_ite, wp_throw, wp_pure]
      exact ⟨fun _ => trivial, fun _ => OtherGone.of_handle (by simp)⟩
    · simp only [Bool.not_true, Bool.false_eq_true, ite_false, wp_bind, wp_pure, wp_modify,
        allocateCursor]
      exact OtherGone.wp unlinking_readRoot (h rfl)

theorem otherGone_close (permanent : Bool) : Wp (close permanent) (fun _ t' => OtherGone t') t := by
  unfold close
  simp only [wp_bind, wp_modify, wp_ite, wp_pure]
  refine ⟨fun _ => OtherGone.of_handle (by simp), fun _ => OtherGone.of_handle ?_⟩
  dsimp only
  split <;> simp_all

theorem otherGone_open : Wp («open» env) (fun _ t' => OtherGone t') t := by
  unfold «open»
  simp only [wp_bind]
  refine Wp.of_forall fun _ _ => ?_
  simp only [wp_get, wp_ite, wp_bind, wp_pure]
  exact ⟨fun _ => otherGone_doOpenToRead env _ _, fun _ => otherGone_doOpenToWrite env _ _ _⟩

theorem otherGone_openAt (revision : Nat) : Wp (openAt env revision) (fun _ t' => OtherGone t') t := by
  unfold openAt
  simp only [wp_bind]
  refine Wp.of_forall fun _ _ => ?_
  simp only [wp_get, wp_ite, wp_bind, wp_pure]
  refine ⟨fun _ => (otherGone_doOpenToRead env _ _).mono fun r _ h => ?_,
    fun _ => (otherGone_doOpenToWrite env _ _ _).mono fun r _ h => ?_⟩ <;> cases r <;>
    simp only [Bool.not_false, Bool.not_true, ite_true, ite_false, Bool.false_eq_true, wp_bind,
      wp_pure] <;>
    first | exact h | exact (otherGone_close false).mono fun _ _ h => h

theorem otherGone_createAndOpen (blockSize : Nat) :
    Wp (createAndOpen env blockSize) (fun _ t' => OtherGone t') t := by
  unfold createAndOpen throwDatabaseClosed setBlockSize
  simp only [wp_bind, wp_get, wp_ite, wp_throw, wp_pure, implies_true, true_and]
  refine fun _ => Wp.of_forall fun _ _ => ?_
  simp only [wp_ite, wp_throw, wp_modify, wp_get, wp_setFiles, wp_bind, wp_pure, implies_true,
    true_and]
  exact fun _ => otherGone_doOpenToWrite env _ _ _

theorem otherGone_add (key tag : List UInt8) (alreadyCompressed : Bool) (h : OtherGone t) :
    Wp (add env key tag alreadyCompressed) (fun _ t' => OtherGone t') t := by
  unfold add
  dsimp only
  rw [wp_bind, wp_get, wp_ite]
  refine ⟨fun _ => ?_, fun _ => OtherGone.wp ?_ h⟩
  rw [wp_bind, wp_get, wp_bind]
  refine (otherGone_createAndOpen env _).mono fun _ t₁ h₁ => OtherGone.wp ?_ h₁
  -- what follows `create_and_open` only unlinks
  all_goals with_reducible repeat' first
    | exact Stable.pure _ | exact Stable.get | exact Stable.throw _ | exact Stable.bufferOf _ _
    | exact stable_formKey (fun _ _ => Quiet.unlinking) _
    | exact stable_find (fun _ _ => Quiet.unlinking) unlinking_writeBlock _
    | exact stable_addChunks (fun _ _ => Quiet.unlinking) unlinking_writeBlock _ _ _ _ _ _
    | exact stable_deleteComponents (fun _ _ => Quiet.unlinking) unlinking_writeBlock _ _ _
    | exact Stable.modify fun _ => Quiet.unlinking ⟨rfl, rfl, rfl, rfl, rfl, rfl⟩
    | apply Stable.bind | apply Stable.ite | intro _

/-- `commit` sets `both_bases`: the invariant holds whatever it leaves of the bases, and
`read_root` after it only unlinks. -/
theorem otherGone_commitBody (R : Nat) (fault : Option CommitFault) :
    Wp (commitBody R fault) (fun _ t' => OtherGone t') t := by
  unfold commitBody
  simp only [wp_bind, wp_get, wp_modify, wp_ite, wp_throw, wp_setFiles, wp_pure, implies_true,
    true_and]
  refine ⟨fun _ _ _ _ => ?_, fun _ _ _ _ => ?_⟩
  all_goals exact OtherGone.wp unlinking_readRoot (OtherGone.of_both rfl)

theorem otherGone_commit (R : Nat) (fault : Option CommitFault) :
    Wp (commit R fault) (fun _ t' => OtherGone t') t := by
  unfold commit throwDatabaseClosed
  simp only [wp_bind, wp_get, wp_ite, wp_throw, wp_modify, wp_pure, implies_true, true_and]
  refine fun _ => ⟨fun ho _ => OtherGone.of_handle ho, fun _ => ?_⟩
  refine Wp.tryCatch (otherGone_commitBody R fault) fun _ _ => ?_
  simp only [wp_bind, wp_throw]
  exact Wp.of_forall fun _ _ => trivial

theorem otherGone_cancel (h : OtherGone t) : Wp cancel (fun _ t' => OtherGone t') t := by
  unfold cancel throwDatabaseClosed
  simp only [wp_bind, wp_get, wp_ite, wp_throw, wp_modify, wp_pure, implies_true, true_and]
  refine ⟨fun ho _ => OtherGone.of_handle ho, fun _ => ?_⟩
  split
  · exact wp_throw
  · simp only [wp_bind, wp_modify]
    exact OtherGone.wp unlinking_readRoot h

end Gone

/-! ## Over a run -/

section Run

variable (env : Env) {t : Table}

/-- **One call.**  Every call that returns keeps the invariant. -/
theorem otherGone_call (op : Op) (h : OtherGone t) :
    Wp (op.call env) (fun _ t' => OtherGone t') t := by
  have hq : ∀ t t', Quiet t t' → Unlinking t t' := fun _ _ => Quiet.unlinking
  cases op with
  | add key tag alreadyCompressed => exact otherGone_add env key tag alreadyCompressed h
  | del key =>
    exact OtherGone.wp (Stable.bind (stable_del hq unlinking_writeBlock key) fun _ => Stable.pure _) h
  | getExactEntry key =>
    exact OtherGone.wp (Stable.bind (stable_getExactEntry hq unlinking_writeBlock env key)
      fun _ => Stable.pure _) h
  | keyExists key =>
    exact OtherGone.wp (Stable.bind (stable_keyExists hq unlinking_writeBlock key)
      fun _ => Stable.pure _) h
  | flushDb => exact OtherGone.wp (stable_flushDb hq unlinking_writeBlock) h
  | commit R fault => exact otherGone_commit R fault
  | cancel => exact otherGone_cancel h
  | «open» => exact otherGone_open env
  | openAt revision => exact wp_bind.2 ((otherGone_openAt env revision).mono fun _ _ h' => h')
  | createAndOpen blockSize => exact otherGone_createAndOpen env blockSize
  | close => exact otherGone_close false

/-- Every run that returns keeps the invariant. -/
theorem otherGone_run :
    ∀ (ops : List Op) {t t' : Table}, OtherGone t → run env ops t = .ok () t' → OtherGone t'
  | [], _, _, h, hr => by cases hr; exact h
  | op :: ops, _, _, h, hr => by
    obtain ⟨_, t₁, h₁, h₂⟩ := bind_ok hr
    exact otherGone_run ops ((otherGone_call env op h).of_ok h₁) h₂

/-- **The older base is gone before any block is written.**  Construct a table over any files,
read-only or not, and make any calls that all return, leaving it open.  Then, if `both_bases` is
clear, the base file other than `base_letter` does not exist.  And a block write from there leaves
`both_bases` clear and, at each point where the process may stop during it (after the unlink, after
the block is written), files in which the writer's base is the only one and holds the revision the
writer is at: `open()` after a crash there reads that revision, never the older base whose blocks
the transaction may be reusing. -/
theorem older_base_gone_before_writes (files : Files) (readonly : Bool) (s : CompressStrategy)
    (ops : List Op) (hrun : run env ops (Table.new files readonly s) = .ok () t)
    (ho : t.handle = .opened) :
    (t.bothBases = false → t.files.base t.baseLetter.other = none) ∧
      ∀ n p, Ok (writeBlock n p) (fun _ t' => t'.bothBases = false ∧
        ∃ pre, t'.crashPoints = pre ++ t.crashPoints ∧ pre ≠ [] ∧
          ∀ f ∈ pre, f.base t.baseLetter.other = none ∧
            ∃ B, f.Newest t.baseLetter B ∧ B.revision = t.revisionNumber) t := by
  have hg := otherGone_run env ops (OtherGone.of_handle (by simp [Table.new])) hrun ho
  obtain ⟨B, hB, hrev⟩ :=
    baseCurrent_run env ops (BaseCurrent.of_handle (by simp [Table.new])) hrun ho
  refine ⟨hg, fun n p => ?_⟩
  rw [Ok, writeBlock_spec]
  refine ⟨rfl, _, rfl, by cases t.bothBases <;> simp, fun f hf => ?_⟩
  -- each crash point of the write has lost the other base and kept the writer's
  have hf' : f.base t.baseLetter.other = none ∧ f.base t.baseLetter = some B := by
    cases hb : t.bothBases <;> simp only [hb, Bool.false_eq_true, ite_true, ite_false,
      List.cons_append, List.nil_append, List.mem_cons, List.mem_singleton] at hf <;>
      rcases hf with rfl | rfl | hf
    all_goals first | cases hf | simp [Files.base_setBase_other, hg, hb, hB]
  exact ⟨hf'.1, B, ⟨hf'.2, fun o h => by simp [hf'.1] at h⟩, hrev⟩

end Run

/-- The writer over the two leaves, open with base `A` only, writes a block with no other base on
disk at any point. -/
theorem twoLeavesWriter_writes_over_one_base :
    run sampleEnv [.open] (Table.new twoLeavesCommitted false .dontCompress) =
        .ok () twoLeavesWriter ∧ twoLeavesWriter.handle = .opened ∧
      (twoLeavesWriter.bothBases = false →
        twoLeavesWriter.files.base twoLeavesWriter.baseLetter.other = none) ∧
      ∀ n p, Ok (writeBlock n p) (fun _ t' => t'.bothBases = false ∧
        ∃ pre, t'.crashPoints = pre ++ twoLeavesWriter.crashPoints ∧ pre ≠ [] ∧
          ∀ f ∈ pre, f.base twoLeavesWriter.baseLetter.other = none ∧
            ∃ B, f.Newest twoLeavesWriter.baseLetter B ∧
              B.revision = twoLeavesWriter.revisionNumber) twoLeavesWriter :=
  ⟨twoLeavesWriter_run, by decide,
    older_base_gone_before_writes sampleEnv _ _ _ _ twoLeavesWriter_run (by decide)⟩

/-! ## A writer opened at an older revision -/

/-- A table created with block size 2048 and committed at revision 1 while still empty, then
given key `a`, flushed and committed at revision 2. -/
def twoRevisionsRun : List Op :=
  [.createAndOpen 2048, .commit 1 none, .add [97] [1] false, .flushDb, .commit 2 none]

/-- The tables the calls of `twoRevisionsRun` leave, one after another. -/
def twoRevisions₁ : Table :=
  after (Op.call sampleEnv (.createAndOpen 2048) (Table.new emptyFiles false .dontCompress))
def twoRevisions₂ : Table := after (Op.call sampleEnv (.commit 1 none) twoRevisions₁)
def twoRevisions₃ : Table := after (Op.call sampleEnv (.add [97] [1] false) twoRevisions₂)
def twoRevisions₄ : Table := after (Op.call sampleEnv .flushDb twoRevisions₃)
def twoRevisions₅ : Table := after (Op.call sampleEnv (.commit 2 none) twoRevisions₄)

/-- A writer on those files opened at revision 1, given key `c` and flushed twice. -/
def reopenedRun : List Op := [.openAt 1, .add [99] [3] false, .flushDb, .flushDb]

/-- The tables the calls of `reopenedRun` leave, one after another. -/
def reopened₁ : Table :=
  after (Op.call sampleEnv (.openAt 1) (Table.new twoRevisions₅.files false .dontCompress))
def reopened₂ : Table := after (Op.call sampleEnv (.add [99] [3] false) reopened₁)
def reopened₃ : Table := after (Op.call sampleEnv .flushDb reopened₂)
def reopened₄ : Table := after (Op.call sampleEnv .flushDb reopened₃)

/-- The files the reopened writer's `commit(2)` leaves. -/
def reopenedCommitted : Files := (after (commit 2 none reopened₄)).files

set_option maxRecDepth 100000 in
/-- The calls of `twoRevisionsRun` return, and the files keep revision 2 in base `A` and revision 1
in base `B`. -/
private theorem twoRevisions_facts :
    returned (Op.call sampleEnv (.createAndOpen 2048) (Table.new emptyFiles false .dontCompress)) =
        true ∧
      returned (Op.call sampleEnv (.commit 1 none) twoRevisions₁) = true ∧
      returned (Op.call sampleEnv (.add [97] [1] false) twoRevisions₂) = true ∧
      returned (Op.call sampleEnv .flushDb twoRevisions₃) = true ∧
      returned (Op.call sampleEnv (.commit 2 none) twoRevisions₄) = true ∧
      twoRevisions₅.files.baseA.map (·.revision) = some 2 ∧
      twoRevisions₅.files.baseB.map (·.revision) = some 1 := by
  decide

set_option maxRecDepth 100000 in
/-- The calls of `reopenedRun` return, with the writes listed; the commit that follows throws, and
the files it leaves cannot be opened. -/
private theorem reopened_facts :
    returned (Op.call sampleEnv (.openAt 1) (Table.new twoRevisions₅.files false .dontCompress)) =
        true ∧
      returned (Op.call sampleEnv (.add [99] [3] false) reopened₁) = true ∧
      returned (Op.call sampleEnv .flushDb reopened₂) = true ∧
      returned (Op.call sampleEnv .flushDb reopened₃) = true ∧
      reopened₄.writes.map (fun w => (w.n, w.revision, w.latest)) = [(0, 3, 1), (0, 3, 2)] ∧
      (match commit 2 none reopened₄ with
        | .error e _ => some e
        | .ok _ _ => none) =
        some (.databaseCorruptError "Db block overwritten - are there multiple writers?") ∧
      (match «open» sampleEnv (Table.new reopenedCommitted true .dontCompress) with
        | .error e _ => some e
        | .ok _ _ => none) =
        some (.databaseModifiedError ("The revision being read has been discarded - " ++
          "you should call Xapian::Database::reopen() and retry the operation")) := by
  decide

/-- **A writer opened at an older revision breaks its own revision check.**  Revision 1 of the
files of `twoRevisionsRun` is an empty table and revision 2 holds key `a`.  A writer opened by
`open(1)` gets `latest_revision_number = 2` and stamps the faked root it starts from with 3; its
first `write_block` deletes base `A` and sets `latest_revision_number` back to 1, so the next write
of that block carries 3 where the code asserts 2 (the calls are listed latest first).  Its
`commit(2)` then puts a root stamped 3 under base revision 2: `read_root` raises
"Db block overwritten", and a reader that opens the files afterwards is refused. -/
theorem reopened_writer_breaks_revision_check :
    run sampleEnv twoRevisionsRun (Table.new emptyFiles false .dontCompress) =
        .ok () twoRevisions₅ ∧
      twoRevisions₅.files.baseA.map (·.revision) = some 2 ∧
      twoRevisions₅.files.baseB.map (·.revision) = some 1 ∧
      run sampleEnv reopenedRun (Table.new twoRevisions₅.files false .dontCompress) =
        .ok () reopened₄ ∧
      reopened₄.writes.map (fun w => (w.n, w.revision, w.latest)) = [(0, 3, 1), (0, 3, 2)] ∧
      (match commit 2 none reopened₄ with
        | .error e _ => some e
        | .ok _ _ => none) =
        some (.databaseCorruptError "Db block overwritten - are there multiple writers?") ∧
      (match «open» sampleEnv (Table.new reopenedCommitted true .dontCompress) with
        | .error e _ => some e
        | .ok _ _ => none) =
        some (.databaseModifiedError ("The revision being read has been discarded - " ++
          "you should call Xapian::Database::reopen() and retry the operation")) := by
  obtain ⟨r₁, r₂, r₃, r₄, r₅, hA, hB⟩ := twoRevisions_facts
  obtain ⟨s₁, s₂, s₃, s₄, hw, hc, ho⟩ := reopened_facts
  have h₁ : Op.call sampleEnv (.createAndOpen 2048) (Table.new emptyFiles false .dontCompress) =
    .ok () twoRevisions₁ := eq_ok_of_returned r₁
  have h₂ : Op.call sampleEnv (.commit 1 none) twoRevisions₁ = .ok () twoRevisions₂ :=
    eq_ok_of_returned r₂
  have h₃ : Op.call sampleEnv (.add [97] [1] false) twoRevisions₂ = .ok () twoRevisions₃ :=
    eq_ok_of_returned r₃
  have h₄ : Op.call sampleEnv .flushDb twoRevisions₃ = .ok () twoRevisions₄ := eq_ok_of_returned r₄
  have h₅ : Op.call sampleEnv (.commit 2 none) twoRevisions₄ = .ok () twoRevisions₅ :=
    eq_ok_of_returned r₅
  have k₁ : Op.call sampleEnv (.openAt 1) (Table.new twoRevisions₅.files false .dontCompress) =
    .ok () reopened₁ := eq_ok_of_returned s₁
  have k₂ : Op.call sampleEnv (.add [99] [3] false) reopened₁ = .ok () reopened₂ :=
    eq_ok_of_returned s₂
  have k₃ : Op.call sampleEnv .flushDb reopened₂ = .ok () reopened₃ := eq_ok_of_returned s₃
  have k₄ : Op.call sampleEnv .flushDb reopened₃ = .ok () reopened₄ := eq_ok_of_returned s₄
  refine ⟨?_, hA, hB, ?_, hw, hc, ho⟩
  · rw [twoRevisionsRun, run_cons_ok _ h₁, run_cons_ok _ h₂, run_cons_ok _ h₃, run_cons_ok _ h₄,
      run_cons_ok _ h₅]
    rfl
  · rw [reopenedRun, run_cons_ok _ k₁, run_cons_ok _ k₂, run_cons_ok _ k₃, run_cons_ok _ k₄]
    rfl

end FlintBtree
