import FlintBtree.Cancel

/-!
# The current base and the committed revision

A writer keeps two base files, `A` and `B`, and `base_letter` names the one it opened or last
committed.  This module proves that, over every sequence of calls that return, the base file
`base_letter` names exists and holds `revision_number` whenever the table is open: `basic_open`
sets both from the base it loads, `commit` from the base it writes, `cancel` rereads it, and every
other call leaves the letter, the revision and that file alone.  From there `commit` hands its tree
on: the base it writes is the newest of the two, so a reader that opens the files afterwards loads
the root and the height the writer committed, and with `Open.lean` reads that tree's leaves.

## Main Definitions

* `BaseCurrent` — the base file `base_letter` names holds `revision_number`.
* `SameBases` — the current base is left alone and the other one at most deleted.

## Main Results

* `base_letter_names_current_revision` — **`BaseCurrent` holds after every run that returns.**
* `commit_installs_newest` — a commit that returns leaves its base the newest of the two.
* `reader_reads_committed_tree` — a reader opening the files after the commit reads the committed
  tree's leaves.

## Design Notes

Only calls that return are followed: a call that throws ends the run, as `run` has it.  Calls that
change neither the letter, the revision nor the files' bases are handled by the `SameBase` frame of
`Cancel.lean`; the openers re-establish the invariant from the base `basic_open` loads, whatever the
state they start from.
-/

namespace FlintBtree

theorem sameBase_readRoot : Stable SameBase readRoot :=
  stable_readRoot (fun _ _ => Quiet.sameBase) sameBase_writeBlock

/-! ## The current base -/

/-- Whenever the table is open, the base file `base_letter` names exists and holds
`revision_number`. -/
def BaseCurrent (t : Table) : Prop :=
  t.handle = .opened → ∃ B, t.files.base t.baseLetter = some B ∧ B.revision = t.revisionNumber

section Current

variable (env : Env) {t : Table}

theorem BaseCurrent.of_sameBase {t' : Table} (h : BaseCurrent t) (hs : SameBase t t') :
    BaseCurrent t' := fun ho => by
  obtain ⟨B, hB, hrev⟩ := h (hs.handle.symm.trans ho)
  exact ⟨B, by rw [hs.baseLetter, hs.baseFile, hB], by rw [hs.revisionNumber, hrev]⟩

/-- A call that keeps the current base keeps the invariant. -/
theorem BaseCurrent.wp {α : Type} {x : M α} (hx : Stable SameBase x) (h : BaseCurrent t) :
    Wp x (fun _ t' => BaseCurrent t') t :=
  (hx.wp t).mono fun _ _ hs => h.of_sameBase hs

/-- A table not open satisfies the invariant. -/
theorem BaseCurrent.of_handle (h : t.handle ≠ .opened) : BaseCurrent t := fun ho => absurd ho h

/-- A table loaded from a base of its files holds that base as the current one. -/
theorem Loaded.baseCurrent {ch : Letter} {B : BaseFile} {t' : Table}
    (hB : t.files.base ch = some B) (hl : Loaded ch B t t') : BaseCurrent t' :=
  fun _ => ⟨B, by rw [hl.baseLetter, hl.files, hB], hl.revisionNumber.symm⟩

/-- A postcondition every state satisfies holds after any call. -/
theorem Wp.of_forall {α : Type} {x : M α} {Q : α → Table → Prop} (h : ∀ a t', Q a t') :
    Wp x Q t := by
  unfold Wp; split
  · exact h _ _
  · trivial

theorem baseCurrent_close (permanent : Bool) :
    Wp (close permanent) (fun _ t' => BaseCurrent t') t := by
  unfold close
  simp only [wp_bind, wp_modify, wp_ite, wp_pure]
  refine ⟨fun _ => BaseCurrent.of_handle (by simp), fun _ => BaseCurrent.of_handle ?_⟩
  dsimp only
  split <;> simp_all

theorem baseCurrent_doOpenToRead (revisionSupplied : Bool) (revision : Nat) :
    Wp (doOpenToRead env revisionSupplied revision) (fun _ t' => BaseCurrent t') t := by
  unfold doOpenToRead throwDatabaseClosed
  simp only [wp_bind, wp_get, wp_ite, wp_throw, wp_modify, wp_pure, implies_true, true_and]
  refine fun _ => (basicOpen_loads env revisionSupplied revision).mono fun r t₁ h => ?_
  cases r
  · simp only [Bool.not_false, ite_true, wp_bind, wp_modify, wp_ite, wp_pure, wp_throw]
    exact ⟨fun _ => BaseCurrent.of_handle (by simp), fun _ => trivial⟩
  · obtain ⟨ch, B, hB, hl⟩ := h rfl
    simp only [Bool.not_true, Bool.false_eq_true, ite_false, wp_bind, wp_pure, allocateCursor,
      wp_modify]
    have h₁ := hl.baseCurrent hB
    exact BaseCurrent.wp sameBase_readRoot h₁

theorem baseCurrent_doOpenToWrite (revisionSupplied : Bool) (revision : Nat) (createDb : Bool) :
    Wp (doOpenToWrite env revisionSupplied revision createDb) (fun _ t' => BaseCurrent t') t := by
  unfold doOpenToWrite throwDatabaseClosed
  simp only [wp_bind, wp_get, wp_ite, wp_throw, wp_modify, wp_setFiles, wp_pure, implies_true,
    true_and]
  refine fun _ => ⟨fun _ => ?_, fun _ => ?_⟩
  all_goals
    refine (basicOpen_loads env revisionSupplied revision).mono fun r t₁ h => ?_
    cases r
    · simp only [Bool.not_false, ite_true, wp_bind, wp_modify, wp_ite, wp_throw, wp_pure]
      exact ⟨fun _ => trivial, fun _ => BaseCurrent.of_handle (by simp)⟩
    · obtain ⟨ch, B, hB, hl⟩ := h rfl
      simp only [Bool.not_true, Bool.false_eq_true, ite_false, wp_bind, wp_pure, wp_modify,
        allocateCursor]
      have h₁ := hl.baseCurrent hB
      exact BaseCurrent.wp sameBase_readRoot h₁

theorem baseCurrent_open : Wp («open» env) (fun _ t' => BaseCurrent t') t := by
  unfold «open»
  simp only [wp_bind]
  refine Wp.of_forall fun _ _ => ?_
  simp only [wp_get, wp_ite, wp_bind, wp_pure]
  exact ⟨fun _ => baseCurrent_doOpenToRead env _ _, fun _ => baseCurrent_doOpenToWrite env _ _ _⟩

theorem baseCurrent_openAt (revision : Nat) :
    Wp (openAt env revision) (fun _ t' => BaseCurrent t') t := by
  unfold openAt
  simp only [wp_bind]
  refine Wp.of_forall fun _ _ => ?_
  simp only [wp_get, wp_ite, wp_bind, wp_pure]
  refine ⟨fun _ => (baseCurrent_doOpenToRead env _ _).mono fun r _ h => ?_,
    fun _ => (baseCurrent_doOpenToWrite env _ _ _).mono fun r _ h => ?_⟩ <;> cases r <;>
    simp only [Bool.not_false, Bool.not_true, ite_true, ite_false, Bool.false_eq_true, wp_bind,
      wp_pure] <;>
    first | exact h | exact (baseCurrent_close false).mono fun _ _ h => h

theorem baseCurrent_createAndOpen (blockSize : Nat) :
    Wp (createAndOpen env blockSize) (fun _ t' => BaseCurrent t') t := by
  unfold createAndOpen throwDatabaseClosed setBlockSize
  simp only [wp_bind, wp_get, wp_ite, wp_throw, wp_pure, implies_true, true_and]
  refine fun _ => Wp.of_forall fun _ _ => ?_
  simp only [wp_ite, wp_throw, wp_modify, wp_get, wp_setFiles, wp_bind, wp_pure, implies_true,
    true_and]
  exact fun _ => baseCurrent_doOpenToWrite env _ _ _

theorem baseCurrent_add (key tag : List UInt8) (alreadyCompressed : Bool) (h : BaseCurrent t) :
    Wp (add env key tag alreadyCompressed) (fun _ t' => BaseCurrent t') t := by
  unfold add
  dsimp only
  rw [wp_bind, wp_get, wp_ite]
  refine ⟨fun _ => ?_, fun _ => BaseCurrent.wp ?_ h⟩
  rw [wp_bind, wp_get, wp_bind]
  refine (baseCurrent_createAndOpen env _).mono fun _ t₁ h₁ => BaseCurrent.wp ?_ h₁
  -- what follows `create_and_open` keeps the current base
  all_goals with_reducible repeat' first
    | exact Stable.pure _ | exact Stable.get | exact Stable.throw _ | exact Stable.bufferOf _ _
    | exact stable_formKey (fun _ _ => Quiet.sameBase) _
    | exact stable_find (fun _ _ => Quiet.sameBase) sameBase_writeBlock _
    | exact stable_addChunks (fun _ _ => Quiet.sameBase) sameBase_writeBlock _ _ _ _ _ _
    | exact stable_deleteComponents (fun _ _ => Quiet.sameBase) sameBase_writeBlock _ _ _
    | exact Stable.modify fun _ => ⟨rfl, rfl, rfl, rfl, rfl⟩
    | apply Stable.bind | apply Stable.ite | intro _

theorem baseCurrent_cancel (h : BaseCurrent t) : Wp cancel (fun _ t' => BaseCurrent t') t := by
  unfold cancel throwDatabaseClosed
  simp only [wp_bind, wp_get, wp_ite, wp_throw, wp_modify, wp_pure, implies_true, true_and]
  refine ⟨fun ho _ => BaseCurrent.of_handle ho, fun ho => ?_⟩
  obtain ⟨B, hB, -⟩ := h (not_not.1 ho)
  rw [hB]
  simp only [wp_bind, wp_modify]
  refine (BaseCurrent.wp sameBase_readRoot ?_).mono fun _ _ h => ?_
  · exact fun _ => ⟨B, hB, rfl⟩
  · exact wp_modify.2 h

end Current

/-! ## What `commit` installs -/

/-- What `read_root` leaves of the two bases: the frame `SameBase` of the current one, and the
other base file as it was or deleted. -/
structure SameBases (t t' : Table) : Prop where
  same : SameBase t t'
  other : ∀ o, t'.files.base t.baseLetter.other = some o → t.files.base t.baseLetter.other = some o

instance : IsRefl Table SameBases := ⟨fun _ => ⟨IsRefl.refl _, fun _ h => h⟩⟩

instance : IsTrans Table SameBases := ⟨fun _ _ _ h₁ h₂ => ⟨IsTrans.trans _ _ _ h₁.same h₂.same,
  fun o h => h₁.other o (by rw [← h₁.same.baseLetter] at h ⊢; exact h₂.other o h)⟩⟩

@[simp] theorem Files.base_setBase_self (f : Files) (L : Letter) (b : Option BaseFile) :
    (f.setBase L b).base L = b := by
  cases L <;> rfl

@[simp] theorem Files.base_setTmp (f : Files) (L : Letter) (b : Option BaseFile) :
    ({ f with tmp := b } : Files).base L = f.base L := by
  cases L <;> rfl

@[simp] theorem Letter.other_other (L : Letter) : L.other.other = L := by
  cases L <;> rfl

@[simp] theorem Files.base_setDb (f : Files) (L : Letter) (d : Nat → Option Block) :
    ({ f with db := d } : Files).base L = f.base L := by
  cases L <;> rfl

theorem Quiet.sameBases {t t' : Table} (h : Quiet t t') : SameBases t t' :=
  ⟨h.sameBase, fun _ h' => by rwa [h.files] at h'⟩

/-- A write deletes the other base file, or leaves it. -/
theorem sameBases_writeBlock (n : Nat) (p : Block) : Stable SameBases (writeBlock n p) := by
  refine ⟨fun t => ?_⟩
  simp only [writeBlock, wp_bind, wp_get, wp_set, wp_ite, wp_setFiles, wp_modify, wp_pure]
  refine ⟨fun _ => ⟨⟨rfl, rfl, rfl, rfl, Files.base_setBase_other _ _ _⟩, fun o h => ?_⟩,
    fun _ => ⟨⟨rfl, rfl, rfl, rfl, rfl⟩, fun _ h => h⟩⟩
  simp at h

theorem sameBases_readRoot : Stable SameBases readRoot :=
  stable_readRoot (fun _ _ => Quiet.sameBases) sameBases_writeBlock

/-- The newest base stays the newest while the other one is at most deleted. -/
theorem Files.Newest.of_sameBases {t t' : Table} {B : BaseFile}
    (hN : t.files.Newest t.baseLetter B) (hs : SameBases t t') :
    t'.files.Newest t'.baseLetter B := by
  refine ⟨by rw [hs.same.baseLetter, hs.same.baseFile]; exact hN.1, fun o h => ?_⟩
  rw [hs.same.baseLetter] at h ⊢
  exact hN.2 o (hs.other o h)

section Commit

variable {t : Table} {R : Nat} {fault : Option CommitFault}

theorem commitBody_spec (hcur : BaseCurrent t) (ho : t.handle = .opened)
    (hR : t.revisionNumber < R) :
    Wp (commitBody R fault) (fun _ t' => BaseCurrent t' ∧ t'.handle = .opened ∧
      ∃ B, t'.files.Newest t'.baseLetter B ∧ B.revision = R ∧ B.root = (t.C t.level).block ∧
        B.level = t.level ∧ B.haveFakeroot = t.fakedRootBlock ∧ B.sequential = t.sequential) t := by
  obtain ⟨B₀, hB₀, hrev₀⟩ := hcur ho
  unfold commitBody
  simp only [wp_bind, wp_get, wp_modify, wp_ite, wp_throw, wp_setFiles, wp_pure, implies_true,
    true_and]
  refine ⟨fun _ _ _ _ => ?_, fun _ _ _ _ => ?_⟩
  all_goals
    refine (sameBases_readRoot.wp _).mono fun _ t' hs => ?_
    rw [wp_modify]
    have hB : ∀ (f : Files) (L : Letter) (b : Option BaseFile),
        ({ f.setBase L b with tmp := none } : Files).base L = b := fun f L b =>
      (Files.base_setTmp _ _ _).trans (Files.base_setBase_self _ _ _)
    refine ⟨(BaseCurrent.of_sameBase (fun _ => ⟨_, hB _ _ _, rfl⟩) hs.same : BaseCurrent t'),
      hs.same.handle.trans ho, _,
      (Files.Newest.of_sameBases ⟨hB _ _ _, fun o h => .inl ?_⟩ hs : t'.files.Newest t'.baseLetter _),
      rfl, rfl, rfl, rfl, rfl⟩
    simp only [Letter.other_other, Files.base_setTmp, Files.base_setBase_other, hB₀,
      Option.some.injEq] at h
    exact h ▸ hrev₀.trans_lt hR

/-- A call whose handler always ends by throwing returns only as the call it guards. -/
theorem Wp.tryCatch {α : Type} {x : M α} {h : Error → M α} {Q : α → Table → Prop}
    (hx : Wp x Q t) (hh : ∀ e t', Wp (h e) Q t') : Wp (tryCatch x h) Q t := by
  unfold Wp at hx
  simp only [Wp, MonadExcept.tryCatch, tryCatchThe, MonadExceptOf.tryCatch, EStateM.tryCatch]
  cases hxt : x t with
  | ok a t' => rw [hxt] at hx; exact hx
  | error e t' => exact hh e _

theorem commit_spec (hcur : BaseCurrent t) :
    Wp (commit R fault) (fun _ t' => BaseCurrent t' ∧ (t.handle = .opened →
      ∃ B, t'.files.Newest t'.baseLetter B ∧ B.revision = R ∧ B.root = (t.C t.level).block ∧
        B.level = t.level ∧ B.haveFakeroot = t.fakedRootBlock ∧ B.sequential = t.sequential)) t := by
  unfold commit throwDatabaseClosed
  simp only [wp_bind, wp_get, wp_ite, wp_throw, wp_modify, wp_pure, implies_true, true_and]
  refine fun hR => ⟨fun ho _ => ⟨BaseCurrent.of_handle ho, fun h => absurd h ho⟩, fun ho => ?_⟩
  refine Wp.tryCatch ((commitBody_spec hcur (not_not.1 ho) (Nat.lt_of_not_le hR)).mono
    fun _ _ h => ⟨h.1, fun _ => h.2.2⟩) fun _ _ => ?_
  simp only [wp_bind, wp_throw]
  exact Wp.of_forall fun _ _ => trivial

end Commit

/-! ## Over a run -/

section Run

variable (env : Env) {t : Table}

/-- **One call.**  Every call that returns keeps the invariant. -/
theorem baseCurrent_call (op : Op) (h : BaseCurrent t) :
    Wp (op.call env) (fun _ t' => BaseCurrent t') t := by
  have hq : ∀ t t', Quiet t t' → SameBase t t' := fun _ _ => Quiet.sameBase
  cases op with
  | add key tag alreadyCompressed => exact baseCurrent_add env key tag alreadyCompressed h
  | del key =>
    exact BaseCurrent.wp (Stable.bind (stable_del hq sameBase_writeBlock key)
      fun _ => Stable.pure _) h
  | getExactEntry key =>
    exact BaseCurrent.wp (Stable.bind (stable_getExactEntry hq sameBase_writeBlock env key)
      fun _ => Stable.pure _) h
  | keyExists key =>
    exact BaseCurrent.wp (Stable.bind (stable_keyExists hq sameBase_writeBlock key)
      fun _ => Stable.pure _) h
  | flushDb => exact BaseCurrent.wp (stable_flushDb hq sameBase_writeBlock) h
  | commit R fault => exact (commit_spec h).mono fun _ _ h' => h'.1
  | cancel => exact baseCurrent_cancel h
  | «open» => exact baseCurrent_open env
  | openAt revision => exact wp_bind.2 ((baseCurrent_openAt env revision).mono fun _ _ h' => h')
  | createAndOpen blockSize => exact baseCurrent_createAndOpen env blockSize
  | close => exact baseCurrent_close false

/-- Every run that returns keeps the invariant. -/
theorem baseCurrent_run :
    ∀ (ops : List Op) {t t' : Table}, BaseCurrent t → run env ops t = .ok () t' → BaseCurrent t'
  | [], _, _, h, hr => by cases hr; exact h
  | op :: ops, _, _, h, hr => by
    obtain ⟨_, t₁, h₁, h₂⟩ := bind_ok hr
    exact baseCurrent_run ops ((baseCurrent_call env op h).of_ok h₁) h₂

/-- **The base letter names the current revision.**  Construct a table over any files, read-only
or not, and make any calls that all return.  Whenever the table is then open, the base file
`base_letter` names exists and holds `revision_number`. -/
theorem base_letter_names_current_revision (files : Files) (readonly : Bool) (s : CompressStrategy)
    (ops : List Op) {t : Table} (hrun : run env ops (Table.new files readonly s) = .ok () t)
    (ho : t.handle = .opened) :
    ∃ B, t.files.base t.baseLetter = some B ∧ B.revision = t.revisionNumber :=
  baseCurrent_run env ops (BaseCurrent.of_handle (by simp [Table.new])) hrun ho

end Run

/-- The writer over the two leaves is open at base `A`, which holds its revision. -/
theorem twoLeavesWriter_base_current :
    run sampleEnv [.open] (Table.new twoLeavesCommitted false .dontCompress) =
        .ok () twoLeavesWriter ∧ twoLeavesWriter.handle = .opened ∧
      ∃ B, twoLeavesWriter.files.base twoLeavesWriter.baseLetter = some B ∧
        B.revision = twoLeavesWriter.revisionNumber :=
  ⟨twoLeavesWriter_run, by decide,
    base_letter_names_current_revision sampleEnv _ _ _ _ twoLeavesWriter_run (by decide)⟩

section Handoff

variable (env : Env) (files : Files) (readonly : Bool) (s : CompressStrategy) (ops : List Op)
  {t t' : Table} {R : Nat} {fault : Option CommitFault}

/-- **`commit` installs the newest base.**  After any run of calls that return from a table just
constructed, a `commit(R)` of the open table that returns leaves the base file it wrote the newest
of the two, with revision `R`, the root block and height of the writer's cursor, and its faked-root
and sequential flags. -/
theorem commit_installs_newest (hrun : run env ops (Table.new files readonly s) = .ok () t)
    (ho : t.handle = .opened) (hc : commit R fault t = .ok () t') :
    ∃ B, t'.files.Newest t'.baseLetter B ∧ B.revision = R ∧ B.root = (t.C t.level).block ∧
      B.level = t.level ∧ B.haveFakeroot = t.fakedRootBlock ∧ B.sequential = t.sequential :=
  ((commit_spec (baseCurrent_run env ops (BaseCurrent.of_handle (by simp [Table.new])) hrun)).of_ok hc).2 ho

/-- The writer over the two leaves after committing revision 2. -/
def twoLeavesCommit : Table := after (commit 2 none twoLeavesWriter)

theorem twoLeavesCommit_ok : commit 2 none twoLeavesWriter = .ok () twoLeavesCommit :=
  eq_ok_of_returned (by decide)

/-- The writer over the two leaves commits revision 2 into base `B`, the newest, with its root. -/
theorem twoLeaves_commit_newest :
    run sampleEnv [.open] (Table.new twoLeavesCommitted false .dontCompress) =
        .ok () twoLeavesWriter ∧ twoLeavesWriter.handle = .opened ∧
      commit 2 none twoLeavesWriter = .ok () twoLeavesCommit ∧
      ∃ B, twoLeavesCommit.files.Newest twoLeavesCommit.baseLetter B ∧ B.revision = 2 ∧
        B.root = (twoLeavesWriter.C twoLeavesWriter.level).block ∧
        B.level = twoLeavesWriter.level ∧ B.haveFakeroot = twoLeavesWriter.fakedRootBlock ∧
        B.sequential = twoLeavesWriter.sequential :=
  ⟨twoLeavesWriter_run, by decide, twoLeavesCommit_ok, commit_installs_newest sampleEnv _ _ _ _
    twoLeavesWriter_run (by decide) twoLeavesCommit_ok⟩

/-- **A reader reads the committed tree.**  After any run of calls that return from a table just
constructed, let the open table commit revision `R` and return, with a root on disk and not in
sequential mode.  If the tree under the committed root has the B-tree invariant, no block reached
twice, no child newer than its parent and a root no newer than `R`, then a reader constructed over
the files and opened returns, for any keys no longer than `BTREE_MAX_KEY_LEN`, the values that tree's
leaf items hold. -/
theorem reader_reads_committed_tree (s' : CompressStrategy)
    (hrun : run env ops (Table.new files readonly s) = .ok () t) (ho : t.handle = .opened)
    (hc : commit R fault t = .ok () t') (hfake : t.fakedRootBlock = false)
    (hseq : t.sequential = false) (hs : Snapshot t'.files.view t.level (t.C t.level).block)
    (hrev : ∀ b, t'.files.db (t.C t.level).block = some b → b.revision ≤ R)
    {keys : List (List UInt8)} (hkeys : ∀ k ∈ keys, k.length ≤ flintBtreeMaxKeyLen) :
    outcome ((do «open» env; keys.mapM (getExactEntry env)) (Table.new t'.files true s')) =
      keys.mapM (storedValue env (t'.files.view.leaves t.level (t.C t.level).block)) := by
  obtain ⟨B, hN, hR, hroot, hlevel, hf, hsq⟩ :=
    ((commit_spec (baseCurrent_run env ops (BaseCurrent.of_handle (by simp [Table.new])) hrun)).of_ok hc).2 ho
  rw [← hroot] at hs hrev ⊢
  rw [← hlevel] at hs ⊢
  exact Spec.outcome_eq (spec_bind.2 (Spec.of_ok ((open_reads_newest env s' hN (hf.trans hfake)
    (hsq.trans hseq) hs (hR ▸ hrev)).mono fun _ _ hr => lookups_spec env hs keys hr hkeys)))

end Handoff

/-- A reader opening the files the writer over the two leaves committed reads `[2]` under `m`,
`[1]` under `a` and nothing under `b`. -/
theorem twoLeaves_committed_read :
    run sampleEnv [.open] (Table.new twoLeavesCommitted false .dontCompress) =
        .ok () twoLeavesWriter ∧ twoLeavesWriter.handle = .opened ∧
      commit 2 none twoLeavesWriter = .ok () twoLeavesCommit ∧
      twoLeavesWriter.fakedRootBlock = false ∧ twoLeavesWriter.sequential = false ∧
      Snapshot twoLeavesCommit.files.view twoLeavesWriter.level
        (twoLeavesWriter.C twoLeavesWriter.level).block ∧
      (∀ b, twoLeavesCommit.files.db (twoLeavesWriter.C twoLeavesWriter.level).block = some b →
        b.revision ≤ 2) ∧
      (∀ k ∈ ([[109], [97], [98]] : List (List UInt8)), k.length ≤ flintBtreeMaxKeyLen) ∧
      outcome ((do «open» sampleEnv; [[109], [97], [98]].mapM (getExactEntry sampleEnv))
        (Table.new twoLeavesCommit.files true .dontCompress)) = .ok [some [2], some [1], none] := by
  have hL : twoLeavesWriter.level = 1 := by decide
  have hR : (twoLeavesWriter.C twoLeavesWriter.level).block = 2 := by decide
  have hdb : twoLeavesCommit.files.db = twoLeavesCommitted.db := rfl
  have hs : Snapshot twoLeavesCommit.files.view twoLeavesWriter.level
      (twoLeavesWriter.C twoLeavesWriter.level).block := by
    rw [hR, hL]; unfold Files.view; rw [hdb]
    exact ⟨twoLeaves_tree 1, twoLeaves_nodup 1, by decide⟩
  have hrev : ∀ b, twoLeavesCommit.files.db (twoLeavesWriter.C twoLeavesWriter.level).block =
      some b → b.revision ≤ 2 := by
    rw [hR, hdb]; intro b h; cases h; decide
  have hk : ∀ k ∈ ([[109], [97], [98]] : List (List UInt8)), k.length ≤ flintBtreeMaxKeyLen := by
    decide
  exact ⟨twoLeavesWriter_run, by decide, twoLeavesCommit_ok, by decide, by decide, hs, hrev, hk,
    (reader_reads_committed_tree sampleEnv _ _ _ _ .dontCompress twoLeavesWriter_run (by decide)
      twoLeavesCommit_ok (by decide) (by decide) hs hrev hk).trans rfl⟩

/-! ## What `flush_db` writes -/

section Flush

variable {t : Table}

/-- One level of `flush_db`: a level marked for rewriting has its buffer written to its block. -/
theorem flushLevel_spec (j : Nat) (hp : (t.C j).rewrite = true → (t.C j).p.isSome) :
    Ok (flushFrom.flushLevel j) (fun _ t' => t'.C = t.C ∧ t'.fakedRootBlock = t.fakedRootBlock ∧
      t'.btreeModified = t.btreeModified ∧ t'.handle = t.handle ∧ t'.level = t.level ∧
      t'.files.db = if (t.C j).rewrite then Function.update t.files.db (t.C j).block (t.C j).p
        else t.files.db) t := by
  unfold flushFrom.flushLevel
  simp only [ok_bind, ok_get, ok_ite, ok_pure]
  refine ⟨fun hr => ?_, fun hr => by simp [hr]⟩
  obtain ⟨b, hb⟩ := Option.isSome_iff_exists.1 (hp hr)
  rw [ok_bufferOf]
  exact ⟨b, hb, (ok_of_eq (writeBlock_spec _ _ _)).2 (by simp [hr, hb])⟩

/-- The levels of `flush_db` from `j` down: the last write of each block is the buffer of the
lowest marked level holding it, and blocks no marked level holds are left alone. -/
theorem flushFrom_spec : ∀ (j : Nat) {t : Table},
    (∀ i ≤ j, (t.C i).rewrite = true → (t.C i).p.isSome) →
    Ok (flushFrom j) (fun _ t' => t'.C = t.C ∧ t'.fakedRootBlock = t.fakedRootBlock ∧
      t'.btreeModified = t.btreeModified ∧ t'.handle = t.handle ∧ t'.level = t.level ∧
      (∀ i ≤ j, (t.C i).rewrite = true →
        (∀ i' < i, (t.C i').rewrite = true → (t.C i').block ≠ (t.C i).block) →
        t'.files.db (t.C i).block = (t.C i).p) ∧
      (∀ n, (∀ i ≤ j, (t.C i).rewrite = true → (t.C i).block ≠ n) →
        t'.files.db n = t.files.db n)) t
  | 0, t, hp => by
    refine (flushLevel_spec 0 (hp 0 le_rfl)).mono fun _ t' ⟨hC, hf, hm, hh, hl, hdb⟩ =>
      ⟨hC, hf, hm, hh, hl, fun i hi hr _ => ?_, fun n hn => ?_⟩
    · obtain rfl := Nat.le_zero.1 hi
      simp [hdb, hr]
    · rw [hdb]
      split
      · exact Function.update_noteq (hn 0 le_rfl ‹_›).symm _ _
      · rfl
  | j + 1, t, hp => by
    unfold flushFrom
    rw [ok_bind]
    refine (flushLevel_spec (j + 1) (hp _ le_rfl)).mono fun _ t₁ ⟨hC, hf, hm, hh, hl, hdb⟩ => ?_
    refine (flushFrom_spec j fun i hi => hC ▸ hp i (Nat.le_succ_of_le hi)).mono
      fun _ t' ⟨hC', hf', hm', hh', hl', hw, hk⟩ => ⟨hC'.trans hC, hf'.trans hf, hm'.trans hm,
        hh'.trans hh, hl'.trans hl, fun i hi hr hlow => ?_, fun n hn => ?_⟩
    · rcases Nat.lt_or_eq_of_le hi with hi | rfl
      · rw [← hC] at hr hlow ⊢
        exact hw i (Nat.lt_succ_iff.1 hi) hr hlow
      · rw [hk _ fun i' hi' hr' => by
          rw [hC] at hr' ⊢; exact hlow i' (Nat.lt_succ_of_le hi') hr', hdb, if_pos hr]
        exact Function.update_same _ _ _
    · rw [hk n fun i hi => hC ▸ hn i (Nat.le_succ_of_le hi), hdb]
      split
      · exact Function.update_noteq (hn _ le_rfl ‹_›).symm _ _
      · rfl

/-- **`flush_db` writes the marked levels back.**  On an open table whose levels marked for
rewriting all hold a buffer, `flush_db` returns.  It leaves in the data file, at the block of each
marked level, that level's buffer (where two marked levels hold one block, the lower one's, which
is written last), and every block no marked level holds as it was.  The cursor is left as it was,
its marks included, and a modified tree loses its faked root. -/
theorem flushDb_writes_back (ho : t.handle = .opened)
    (hp : ∀ i ≤ t.level, (t.C i).rewrite = true → (t.C i).p.isSome) :
    Ok flushDb (fun _ t' => t'.C = t.C ∧
      t'.fakedRootBlock = (t.fakedRootBlock && !t.btreeModified) ∧
      (∀ i ≤ t.level, (t.C i).rewrite = true →
        (∀ i' < i, (t.C i').rewrite = true → (t.C i').block ≠ (t.C i).block) →
        t'.files.db (t.C i).block = (t.C i).p) ∧
      (∀ n, (∀ i ≤ t.level, (t.C i).rewrite = true → (t.C i).block ≠ n) →
        t'.files.db n = t.files.db n)) t := by
  unfold flushDb
  rw [ok_bind, ok_get, if_neg fun h => h ho]
  simp only [ok_bind, ok_get, ok_ite, ok_modify, ok_pure]
  refine (flushFrom_spec t.level hp).mono fun _ t' ⟨hC, hf, hm, _, _, hw, hk⟩ => ?_
  simp only [ok_bind, ok_get, ok_ite, ok_modify, ok_pure]
  refine ⟨fun h => ⟨hC, ?_, hw, hk⟩, fun h => ⟨hC, ?_, hw, hk⟩⟩ <;> simp [hf, ← hm, h]

end Flush

/-- That table given key `a`: the leaf that took the faked root's block is marked for rewriting. -/
def createdAdded : Table := after (add sampleEnv [97] [1] false createdSample)

set_option maxRecDepth 4000 in
/-- That table flushes its leaf back. -/
theorem createdAdded_flush :
    createdAdded.handle = .opened ∧ (createdAdded.C 0).rewrite = true ∧
      (∀ i ≤ createdAdded.level, (createdAdded.C i).rewrite = true →
        (createdAdded.C i).p.isSome) ∧
      Ok flushDb (fun _ t' => t'.C = createdAdded.C ∧
        t'.fakedRootBlock = (createdAdded.fakedRootBlock && !createdAdded.btreeModified) ∧
        (∀ i ≤ createdAdded.level, (createdAdded.C i).rewrite = true →
          (∀ i' < i, (createdAdded.C i').rewrite = true →
            (createdAdded.C i').block ≠ (createdAdded.C i).block) →
          t'.files.db (createdAdded.C i).block = (createdAdded.C i).p) ∧
        (∀ n, (∀ i ≤ createdAdded.level, (createdAdded.C i).rewrite = true →
          (createdAdded.C i).block ≠ n) → t'.files.db n = createdAdded.files.db n))
        createdAdded := by
  have ho : createdAdded.handle = .opened := by decide
  have hp : ∀ i ≤ createdAdded.level, (createdAdded.C i).rewrite = true →
      (createdAdded.C i).p.isSome := by decide
  exact ⟨ho, by decide, hp, flushDb_writes_back ho hp⟩

end FlintBtree
