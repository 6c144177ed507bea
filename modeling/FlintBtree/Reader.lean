import FlintBtree.Commit

/-!
# A read-only table never writes

A reader and a writer on one database are two tables on the same files, and `Shared.step` hands
the files each call leaves to the other table.  `write_block` asserts `writable`, and the calls a
reader makes reach it only through `block_to_cursor`, for a cursor level marked for rewriting,
which only `alter` marks.  This module proves that the calls of a read-only table — `open()`,
`open(revision)`, `get_exact_entry`, `key_exists` and `close` — never reach `write_block`: from a
table that cannot write they return one that still cannot, with the files and the record of block
writes as they were.  So in every interleaving of a reader's calls with a writer's, the writer
makes exactly the run it would make alone.

## Main Definitions

* `Reader` — a read-only table with no cursor level marked for rewriting.
* `ReadStep` — what a reader's call does: it keeps `Reader`, the files and the writes.
* `Op.isRead` — the calls a read-only table makes; `callsOf` — one party's calls of an
  interleaving.

## Main Results

* `readStep_call` — every call a read-only table makes is a reader's step.
* `reader_never_disturbs_writer` — **in every interleaving that returns, the writer's calls alone
  return and leave the writer where the interleaving does, and the reader never writes.**

## Design Notes

`ReadStep t t'` holds at once when `t` could write, so a call is shown to be a reader's step by
looking only at tables that cannot write (`Stable.of_reader`): there `block_to_cursor` skips its
write-back and `open` goes to `do_open_to_read`.  `add`, `del`, `flush_db`, `commit`, `cancel` and
`create_and_open` assert `writable` in the source, and `Op.isRead` leaves them out.
-/

namespace FlintBtree

/-! ## Tables that cannot write -/

/-- A table that cannot reach `write_block`: read-only, with no cursor level marked for
rewriting. -/
structure Reader (t : Table) : Prop where
  writable : t.writable = false
  builtIn : ∀ k, (t.C k).rewrite = false
  user : ∀ k, (t.userC k).rewrite = false

/-- A table constructed read-only is a reader. -/
theorem reader_new (files : Files) (s : CompressStrategy) : Reader (Table.new files true s) :=
  ⟨rfl, fun _ => rfl, fun _ => rfl⟩

/-- What a reader's call does: a table that could not write still cannot, and the files and the
record of `write_block` calls are as they were. -/
def ReadStep (t t' : Table) : Prop :=
  Reader t → Reader t' ∧ t'.files = t.files ∧ t'.writes = t.writes

instance : IsRefl Table ReadStep := ⟨fun _ h => ⟨h, rfl, rfl⟩⟩

instance : IsTrans Table ReadStep := ⟨fun _ _ _ h₁ h₂ h => by
  obtain ⟨h', hf, hw⟩ := h₁ h
  obtain ⟨h'', hf', hw'⟩ := h₂ h'
  exact ⟨h'', hf'.trans hf, hw'.trans hw⟩⟩

/-- A change that keeps the write flag, every rewrite flag, the files and the writes. -/
theorem ReadStep.of_eq {t t' : Table} (hw : t'.writable = t.writable)
    (hC : ∀ k, (t'.C k).rewrite = (t.C k).rewrite)
    (hU : ∀ k, (t'.userC k).rewrite = (t.userC k).rewrite) (hf : t'.files = t.files)
    (hws : t'.writes = t.writes) : ReadStep t t' := fun h =>
  ⟨⟨hw.trans h.1, fun k => (hC k).trans (h.2 k), fun k => (hU k).trans (h.3 k)⟩, hf, hws⟩

/-- A call is a reader's step when it is one from every table that cannot write. -/
theorem Stable.of_reader {α : Type} {x : M α}
    (h : ∀ t, Reader t → Wp x (fun _ t' => ReadStep t t') t) : Stable ReadStep x :=
  ⟨fun t => by
    by_cases hr : Reader t
    · exact h t hr
    · exact Wp.of_forall fun _ _ h' => absurd h' hr⟩

/-! ## The calls of a reader -/

/-- A cursor change that keeps the rewrite flag. -/
theorem readStep_modifyCur (r : CursorRef) (j : Nat) (f : Cursor → Cursor)
    (hf : ∀ x, (f x).rewrite = x.rewrite) : Stable ReadStep (modifyCur r j f) := by
  have hu : ∀ (C : Nat → Cursor) k, (Function.update C j (f (C j)) k).rewrite = (C k).rewrite :=
    fun C k => by rcases eq_or_ne k j with rfl | h <;> simp [*]
  exact Stable.modify fun t => by
    cases r
    · exact ReadStep.of_eq rfl (hu t.C) (fun _ => rfl) rfl rfl
    · exact ReadStep.of_eq rfl (fun _ => rfl) (hu t.userC) rfl rfl

/-- `block_to_cursor` of a reader skips the write-back of a level marked for rewriting. -/
theorem readStep_blockToCursor (r : CursorRef) (j n : Nat) :
    Stable ReadStep (blockToCursor r j n) :=
  Stable.of_reader fun t hr => by
    have hc : (t.cur r j).rewrite = false := by cases r; exacts [hr.builtIn j, hr.user j]
    unfold blockToCursor
    rw [wp_bind, wp_get]
    simp only [hc, Bool.false_eq_true, ite_false]
    apply Stable.wp
    with_reducible repeat' first
      | exact Stable.pure _ | exact Stable.get | exact Stable.throw _
      | exact Stable.bufferOf _ _ | exact Stable.readBlock _ | exact Stable.setOverwritten
      | exact readStep_modifyCur _ _ _ fun _ => rfl
      | apply Stable.bind | apply Stable.ite | intro _

theorem readStep_nextFreeBlock : Stable ReadStep nextFreeBlock :=
  ⟨fun _ => ReadStep.of_eq rfl (fun _ => rfl) (fun _ => rfl) rfl rfl⟩

theorem readStep_findLoop (r : CursorRef) (key : Key) : ∀ j, Stable ReadStep (findLoop r key j)
  | 0 => Stable.pure _
  | j + 1 => by
    unfold findLoop
    with_reducible repeat' first
      | exact Stable.pure _ | exact Stable.get | exact Stable.bufferOf _ _
      | exact readStep_modifyCur _ _ _ fun _ => rfl | exact readStep_blockToCursor _ _ _
      | exact readStep_findLoop r key j
      | apply Stable.bind | apply Stable.ite | intro _

theorem readStep_find (r : CursorRef) : Stable ReadStep (find r) := by
  unfold find
  with_reducible repeat' first
    | exact Stable.pure _ | exact Stable.get | exact Stable.bufferOf _ _
    | exact readStep_modifyCur _ _ _ fun _ => rfl | exact readStep_findLoop _ _ _
    | apply Stable.bind | apply Stable.ite | intro _

theorem readStep_nextDefault (r : CursorRef) : ∀ fuel j, Stable ReadStep (nextDefault r fuel j)
  | 0, _ => Stable.pure _
  | fuel + 1, j => by
    unfold nextDefault
    with_reducible repeat' first
      | exact Stable.pure _ | exact Stable.get | exact Stable.bufferOf _ _
      | exact readStep_modifyCur _ _ _ fun _ => rfl | exact readStep_blockToCursor _ _ _
      | exact readStep_nextDefault r fuel _
      | apply Stable.bind | apply Stable.ite | intro _

theorem readStep_nextSeqScan (r : CursorRef) : ∀ fuel n, Stable ReadStep (nextSeqScan r fuel n)
  | 0, _ => Stable.pure _
  | fuel + 1, n => by
    unfold nextSeqScan seqLoad seqCheck readInto
    with_reducible repeat' first
      | exact Stable.pure _ | exact Stable.get | exact Stable.throw _ | exact Stable.bufferOf _ _
      | exact Stable.readBlock _ | exact Stable.setOverwritten
      | exact readStep_modifyCur _ _ _ fun _ => rfl | exact readStep_nextSeqScan r fuel _
      | apply Stable.bind | apply Stable.ite | intro _ | split

theorem readStep_next (r : CursorRef) (j : Nat) : Stable ReadStep (next r j) := by
  unfold next nextForSequential
  with_reducible repeat' first
    | exact Stable.pure _ | exact Stable.get | exact Stable.bufferOf _ _
    | exact readStep_modifyCur _ _ _ fun _ => rfl | exact readStep_nextSeqScan _ _ _
    | exact readStep_nextDefault _ _ _
    | apply Stable.bind | apply Stable.ite | intro _ | split

theorem readStep_readChunks (r : CursorRef) :
    ∀ fuel i n tag, Stable ReadStep (readChunks r fuel i n tag)
  | 0, _, _, _ => Stable.pure _
  | fuel + 1, i, n, tag => by
    unfold readChunks
    with_reducible repeat' first
      | exact Stable.pure _ | exact Stable.get | exact Stable.throw _ | exact Stable.bufferOf _ _
      | exact readStep_next _ _ | exact readStep_readChunks r fuel _ _ _
      | apply Stable.bind | apply Stable.ite | intro _

theorem readStep_formKey (key : List UInt8) : Stable ReadStep (formKey key) := by
  unfold formKey
  with_reducible repeat' first
    | exact Stable.pure _ | exact Stable.throw _
    | exact Stable.modify fun _ => ReadStep.of_eq rfl (fun _ => rfl) (fun _ => rfl) rfl rfl
    | apply Stable.bind | apply Stable.ite | intro _

theorem readStep_getExactEntry (env : Env) (key : List UInt8) :
    Stable ReadStep (getExactEntry env key) := by
  unfold getExactEntry readTag throwDatabaseClosed
  with_reducible repeat' first
    | exact Stable.pure _ | exact Stable.get | exact Stable.throw _ | exact Stable.bufferOf _ _
    | exact readStep_formKey _ | exact readStep_find _ | exact readStep_readChunks _ _ _ _ _
    | apply Stable.bind | apply Stable.ite | intro _ | split

theorem readStep_keyExists (key : List UInt8) : Stable ReadStep (keyExists key) := by
  unfold keyExists
  with_reducible repeat' first
    | exact Stable.pure _ | exact readStep_formKey _ | exact readStep_find _
    | apply Stable.bind | apply Stable.ite | intro _

theorem readStep_readRoot : Stable ReadStep readRoot := by
  unfold readRoot
  with_reducible repeat' first
    | exact Stable.pure _ | exact Stable.get | exact Stable.bufferOf _ _
    | exact Stable.setOverwritten | exact readStep_nextFreeBlock
    | exact readStep_modifyCur _ _ _ fun _ => rfl | exact readStep_blockToCursor _ _ _
    | apply Stable.bind | apply Stable.ite | intro _

section Open

variable (env : Env)

theorem readStep_basicOpen (revisionSupplied : Bool) (revision : Nat) :
    Stable ReadStep (basicOpen env revisionSupplied revision) := by
  unfold basicOpen
  dsimp only
  with_reducible repeat' first
    | exact Stable.pure _ | exact Stable.get | exact Stable.throw _
    | exact Stable.modify fun _ => ReadStep.of_eq rfl (fun _ => rfl) (fun _ => rfl) rfl rfl
    | apply Stable.bind | apply Stable.ite | intro _ | split

theorem readStep_allocateCursor : Stable ReadStep allocateCursor :=
  Stable.modify fun _ => ReadStep.of_eq rfl (fun _ => by dsimp only; split <;> rfl) (fun _ => rfl)
    rfl rfl

theorem readStep_close (permanent : Bool) : Stable ReadStep (close permanent) := by
  unfold close
  with_reducible repeat' first
    | exact Stable.pure _
    | exact Stable.modify fun _ => ReadStep.of_eq rfl (fun _ => rfl) (fun _ => rfl) rfl rfl
    | exact Stable.modify fun _ => ReadStep.of_eq rfl (fun _ => by dsimp only; split <;> rfl)
        (fun _ => rfl) rfl rfl
    | apply Stable.bind | apply Stable.ite | intro _

theorem readStep_doOpenToRead (revisionSupplied : Bool) (revision : Nat) :
    Stable ReadStep (doOpenToRead env revisionSupplied revision) := by
  unfold doOpenToRead throwDatabaseClosed
  with_reducible repeat' first
    | exact Stable.pure _ | exact Stable.get | exact Stable.throw _
    | exact readStep_basicOpen env _ _ | exact readStep_allocateCursor | exact readStep_readRoot
    | exact Stable.modify fun _ => ReadStep.of_eq rfl (fun _ => rfl) (fun _ => rfl) rfl rfl
    | apply Stable.bind | apply Stable.ite | intro _

/-- `open()` of a read-only table goes to `do_open_to_read`. -/
theorem readStep_open : Stable ReadStep («open» env) :=
  Stable.of_reader fun t hr => by
    unfold «open»
    rw [wp_bind]
    refine ((readStep_close false).wp t).mono fun _ t₁ h₁ => ?_
    rw [wp_bind, wp_get, (h₁ hr).1.writable]
    simp only [Bool.not_false, ite_true, wp_bind, wp_pure]
    exact ((readStep_doOpenToRead env _ _).wp t₁).mono fun _ _ h₂ => IsTrans.trans _ _ _ h₁ h₂

theorem readStep_openAt (revision : Nat) : Stable ReadStep (openAt env revision) :=
  Stable.of_reader fun t hr => by
    unfold openAt
    rw [wp_bind]
    refine ((readStep_close false).wp t).mono fun _ t₁ h₁ => ?_
    rw [wp_bind, wp_get, (h₁ hr).1.writable]
    simp only [Bool.not_false, ite_true]
    refine ((?_ : Stable ReadStep _).wp t₁).mono fun _ _ h₂ => IsTrans.trans _ _ _ h₁ h₂
    with_reducible repeat' first
      | exact Stable.pure _ | exact readStep_doOpenToRead env _ _ | exact readStep_close _
      | apply Stable.bind | apply Stable.ite | intro _

/-- The calls a read-only table makes; the others assert `writable`. -/
def Op.isRead : Op → Bool
  | .getExactEntry _ | .keyExists _ | .open | .openAt _ | .close => true
  | _ => false

theorem readStep_call {op : Op} (h : op.isRead = true) : Stable ReadStep (op.call env) := by
  cases op with
  | getExactEntry key => exact Stable.bind (readStep_getExactEntry env key) fun _ => Stable.pure _
  | keyExists key => exact Stable.bind (readStep_keyExists key) fun _ => Stable.pure _
  | «open» => exact readStep_open env
  | openAt revision => exact Stable.bind (readStep_openAt env revision) fun _ => Stable.pure _
  | close => exact readStep_close false
  | _ => cases h

end Open

/-! ## A reader beside a writer -/

/-- The calls one party makes in an interleaving, in order. -/
def callsOf : Party → List (Party × Op) → List Op
  | _, [] => []
  | .reader, (.reader, op) :: cs => op :: callsOf .reader cs
  | .writer, (.writer, op) :: cs => op :: callsOf .writer cs
  | party, _ :: cs => callsOf party cs

/-- **A reader never disturbs the writer.**  Take a reader and a writer on the same files, the
reader unable to write (as a table constructed read-only is), and any interleaving of their calls
in which the reader makes only the calls of a read-only table.  If every call returns, then the
writer's calls made alone from the writer's first table return and leave it exactly where the
interleaving leaves it; the reader is still unable to write, never called `write_block`, and sees
the writer's files. -/
theorem reader_never_disturbs_writer (env : Env) {cs : List (Party × Op)}
    (hcs : ∀ op ∈ callsOf .reader cs, op.isRead = true) {s₀ s : Shared}
    (hr : Reader s₀.reader) (hf : s₀.reader.files = s₀.writer.files)
    (h : Shared.run env cs s₀ = some s) :
    run env (callsOf .writer cs) s₀.writer = .ok () s.writer ∧ Reader s.reader ∧
      s.reader.writes = s₀.reader.writes ∧ s.reader.files = s.writer.files := by
  induction cs generalizing s₀ with
  | nil =>
    cases h
    exact ⟨rfl, hr, rfl, hf⟩
  | cons c cs ih =>
    obtain ⟨party, op⟩ := c
    cases party with
    | reader =>
      simp only [Shared.run, Shared.step] at h
      split at h
      · rename_i r hcall
        rw [Option.some_bind] at h
        obtain ⟨hr', hfr, hwr⟩ := (readStep_call env (hcs op (List.mem_cons_self _ _))).le hcall hr
        have hw : ({ s₀.writer with files := r.files } : Table) = s₀.writer := by rw [hfr, hf]
        obtain ⟨hrun, hrs, hws, hfs⟩ := ih (fun op h => hcs op (List.mem_cons_of_mem _ h)) hr' rfl h
        exact ⟨hw ▸ hrun, hrs, hws.trans hwr, hfs⟩
      · cases h
    | writer =>
      simp only [Shared.run, Shared.step] at h
      split at h
      · rename_i w hcall
        rw [Option.some_bind] at h
        obtain ⟨hrun, hrs, hws, hfs⟩ := ih hcs (by exact ⟨hr.1, hr.2, hr.3⟩) rfl h
        exact ⟨(run_cons_ok env hcall).trans hrun, hrs, hws, hfs⟩
      · cases h

/-- A writer creates a table and commits it empty at revision 1; a reader opens it; the writer
adds key `a` and flushes; the reader looks `a` up; the writer commits revision 2. -/
def sideBySideSteps : List (Party × Op) :=
  [(.writer, .createAndOpen 2048), (.writer, .commit 1 none), (.reader, .open),
    (.writer, .add [97] [1] false), (.writer, .flushDb), (.reader, .getExactEntry [97]),
    (.writer, .commit 2 none)]

/-- The two tables on no files, before any call. -/
def sideBySide₀ : Shared :=
  ⟨Table.new emptyFiles true .dontCompress, Table.new emptyFiles false .dontCompress⟩

/-- The pairs the calls of `sideBySideSteps` leave, one after another. -/
def sideBySide₁ : Shared := sideBySide₀.after sampleEnv (.writer, .createAndOpen 2048)
def sideBySide₂ : Shared := sideBySide₁.after sampleEnv (.writer, .commit 1 none)
def sideBySide₃ : Shared := sideBySide₂.after sampleEnv (.reader, .open)
def sideBySide₄ : Shared := sideBySide₃.after sampleEnv (.writer, .add [97] [1] false)
def sideBySide₅ : Shared := sideBySide₄.after sampleEnv (.writer, .flushDb)
def sideBySide₆ : Shared := sideBySide₅.after sampleEnv (.reader, .getExactEntry [97])
def sideBySide₇ : Shared := sideBySide₆.after sampleEnv (.writer, .commit 2 none)

set_option maxRecDepth 10000 in
/-- The calls of `sideBySideSteps` all return. -/
theorem sideBySide_run : Shared.run sampleEnv sideBySideSteps sideBySide₀ = some sideBySide₇ := by
  have h : returned (Op.call sampleEnv (.createAndOpen 2048) sideBySide₀.writer) = true ∧
      returned (Op.call sampleEnv (.commit 1 none) sideBySide₁.writer) = true ∧
      returned (Op.call sampleEnv .open sideBySide₂.reader) = true ∧
      returned (Op.call sampleEnv (.add [97] [1] false) sideBySide₃.writer) = true ∧
      returned (Op.call sampleEnv .flushDb sideBySide₄.writer) = true ∧
      returned (Op.call sampleEnv (.getExactEntry [97]) sideBySide₅.reader) = true ∧
      returned (Op.call sampleEnv (.commit 2 none) sideBySide₆.writer) = true := by
    decide
  obtain ⟨r₁, r₂, r₃, r₄, r₅, r₆, r₇⟩ := h
  rw [sideBySideSteps,
    Shared.run_cons (u := sideBySide₁) (Shared.step_of_returned .writer r₁),
    Shared.run_cons (u := sideBySide₂) (Shared.step_of_returned .writer r₂),
    Shared.run_cons (u := sideBySide₃) (Shared.step_of_returned .reader r₃),
    Shared.run_cons (u := sideBySide₄) (Shared.step_of_returned .writer r₄),
    Shared.run_cons (u := sideBySide₅) (Shared.step_of_returned .writer r₅),
    Shared.run_cons (u := sideBySide₆) (Shared.step_of_returned .reader r₆),
    Shared.run_cons (u := sideBySide₇) (Shared.step_of_returned .writer r₇)]
  rfl

/-- Beside the writer that creates, fills and commits the table, the reader's `open` and lookup
leave the writer's run as it is alone. -/
theorem sideBySide_reader_beside_writer :
    (∀ op ∈ callsOf .reader sideBySideSteps, op.isRead = true) ∧ Reader sideBySide₀.reader ∧
      sideBySide₀.reader.files = sideBySide₀.writer.files ∧
      Shared.run sampleEnv sideBySideSteps sideBySide₀ = some sideBySide₇ ∧
      (run sampleEnv (callsOf .writer sideBySideSteps) sideBySide₀.writer =
          .ok () sideBySide₇.writer ∧
        Reader sideBySide₇.reader ∧ sideBySide₇.reader.writes = sideBySide₀.reader.writes ∧
        sideBySide₇.reader.files = sideBySide₇.writer.files) :=
  ⟨by decide, reader_new _ _, rfl, sideBySide_run,
    reader_never_disturbs_writer sampleEnv (by decide) (reader_new _ _) rfl sideBySide_run⟩

end FlintBtree
