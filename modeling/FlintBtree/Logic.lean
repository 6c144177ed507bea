import FlintBtree.Table

/-!
# Reasoning about the table's computations

A call that returns leaves a table behind, and most of what this development proves is about that
table.  `after` reads it off a result, whether the call returned or threw.

The lemmas here take a call that returned apart into the calls it made: `bind_ok` for a sequence,
and for each helper of `FlintBtree.Table` a lemma that says exactly what table a returning call
leaves and what it returns.  Callers cite these and never unfold the helper.

`Stable R x` says that every returning call of `x` leaves a table related by `R` to the one it
started from.  It is closed under the monad's operations, so a frame condition — the fields a
function never changes — is proved once per function from the conditions of the functions it
calls.
-/

namespace FlintBtree

/-- The table a call leaves, whether it returned or threw. -/
def after {α : Type} : EStateM.Result Error Table α → Table
  | .ok _ t => t
  | .error _ t => t

/-- Whether a call returned. -/
def returned {α : Type} : EStateM.Result Error Table α → Bool
  | .ok _ _ => true
  | .error _ _ => false

/-- The value a call returned, if it returned. -/
def returnedValue {α : Type} : EStateM.Result Error Table α → Option α
  | .ok a _ => some a
  | .error _ _ => none

theorem eq_ok_of_returned {r : EStateM.Result Error Table Unit} (h : returned r = true) :
    r = .ok () (after r) := by
  cases r with
  | ok => rfl
  | error => cases h

theorem eq_ok_of_returnedValue {α : Type} {r : EStateM.Result Error Table α} {a : α}
    (h : returnedValue r = some a) : r = .ok a (after r) := by
  cases r <;> simp_all [returnedValue, after]

section Inversion

variable {α β : Type} {t t' : Table}

theorem bind_ok {x : M α} {f : α → M β} {b : β} (h : (x >>= f) t = .ok b t') :
    ∃ a t₁, x t = .ok a t₁ ∧ f a t₁ = .ok b t' := by
  simp only [bind, EStateM.bind] at h
  split at h
  · exact ⟨_, _, ‹_›, h⟩
  · cases h

/-- A call that returned hands its value and table to the rest of the computation. -/
theorem bind_eq_of_ok {x : M α} {f : α → M β} {a : α} (h : x t = .ok a t') :
    (x >>= f) t = f a t' := by
  simp only [bind, EStateM.bind, h]

theorem pure_ok {a b : α} (h : (pure a : M α) t = .ok b t') : b = a ∧ t' = t := by
  cases h; exact ⟨rfl, rfl⟩

theorem get_ok {s : Table} (h : (get : M Table) t = .ok s t') : s = t ∧ t' = t := by
  cases h; exact ⟨rfl, rfl⟩

theorem set_ok {s : Table} {u : PUnit} (h : (set s : M PUnit) t = .ok u t') : t' = s := by
  cases h; rfl

theorem modify_ok {f : Table → Table} {u : PUnit} (h : (modify f : M PUnit) t = .ok u t') :
    t' = f t := by
  cases h; rfl

theorem modifyGet_ok {f : Table → α × Table} {a : α} (h : (modifyGet f : M α) t = .ok a t') :
    a = (f t).1 ∧ t' = (f t).2 := by
  cases h; exact ⟨rfl, rfl⟩

theorem throw_ok {e : Error} {a : α} (h : (throw e : M α) t = .ok a t') : False := by
  cases h

theorem modifyCur_ok {r : CursorRef} {j : Nat} {f : Cursor → Cursor} {u : Unit}
    (h : modifyCur r j f t = .ok u t') : t' = t.modifyCur r j f :=
  modify_ok h

theorem bufferOf_ok {r : CursorRef} {j : Nat} {b : Block} (h : bufferOf r j t = .ok b t') :
    (t.cur r j).p = some b ∧ t' = t := by
  obtain ⟨s, t₁, hs, hk⟩ := bind_ok h
  obtain ⟨rfl, rfl⟩ := get_ok hs
  cases hp : (t₁.cur r j).p with
  | none => rw [hp] at hk; exact (throw_ok hk).elim
  | some b' => rw [hp] at hk; obtain ⟨rfl, rfl⟩ := pure_ok hk; exact ⟨rfl, rfl⟩

theorem setFiles_ok {f : Files → Files} {u : Unit} (h : setFiles f t = .ok u t') :
    t' = { t with files := f t.files, crashPoints := f t.files :: t.crashPoints } :=
  modify_ok h

theorem nextFreeBlock_ok {n : Nat} (h : nextFreeBlock t = .ok n t') :
    n = t.base.nextFreeBlock.1 ∧ t' = { t with base := t.base.nextFreeBlock.2 } :=
  modifyGet_ok h

theorem freeBlock_ok {n : Nat} {u : Unit} (h : freeBlock n t = .ok u t') :
    t' = { t with base := t.base.freeBlock n } :=
  modify_ok h

theorem readBlock_ok {n : Nat} {b : Block} (h : readBlock n t = .ok b t') :
    t.files.db n = some b ∧ t' = t := by
  obtain ⟨s, t₁, hs, hk⟩ := bind_ok h
  obtain ⟨rfl, rfl⟩ := get_ok hs
  cases hp : t₁.files.db n with
  | none => rw [hp] at hk; exact (throw_ok hk).elim
  | some b' => rw [hp] at hk; obtain ⟨rfl, rfl⟩ := pure_ok hk; exact ⟨rfl, rfl⟩

theorem setOverwritten_ok {u : Unit} (h : setOverwritten t = .ok u t') : False := by
  obtain ⟨s, t₁, hs, hk⟩ := bind_ok h
  obtain ⟨rfl, rfl⟩ := get_ok hs
  by_cases hw : t₁.writable = true <;> simp only [hw, ite_true, ite_false] at hk
  · obtain ⟨_, _, h₁, -⟩ := bind_ok hk; exact throw_ok h₁
  · exact throw_ok hk

end Inversion

/-! ## Block writes -/

/-- What `write_block(n, p)` does: it records the call, deletes the other base on the first write
of a table that has both (setting `latest_revision_number` back to `revision_number`), and writes
`p` at `n`. -/
theorem writeBlock_spec (n : Nat) (p : Block) (t : Table) :
    writeBlock n p t = .ok ()
      { t with
        writes := ⟨n, p.revision, t.latestRevisionNumber, t.base.blockFreeAtStart n⟩ :: t.writes,
        bothBases := false,
        latestRevisionNumber := if t.bothBases then t.revisionNumber else t.latestRevisionNumber,
        files := { (if t.bothBases then t.files.setBase t.baseLetter.other none else t.files) with
          db := Function.update t.files.db n (some p) },
        crashPoints := (if t.bothBases then
            [{ (t.files.setBase t.baseLetter.other none) with
              db := Function.update t.files.db n (some p) }, t.files.setBase t.baseLetter.other none]
          else [{ t.files with db := Function.update t.files.db n (some p) }]) ++ t.crashPoints } := by
  cases hb : t.bothBases <;> cases L : t.baseLetter <;>
    simp [writeBlock, hb, L, bind, EStateM.bind, get, getThe, MonadStateOf.get, EStateM.get, set,
      EStateM.set, setFiles, modify, modifyGet, MonadStateOf.modifyGet, EStateM.modifyGet, pure,
      EStateM.pure, Files.setBase, Letter.other]

/-- What `write_block(n, p)` changes that a cursor reads: block `n` of the data file. -/
theorem writeBlock_ok (n : Nat) (p : Block) (t : Table) : ∃ t', writeBlock n p t = .ok () t' ∧
    t'.files.db = Function.update t.files.db n (some p) ∧ t'.C = t.C ∧ t'.userC = t.userC ∧
    t'.level = t.level ∧ t'.writable = t.writable :=
  ⟨_, writeBlock_spec n p t, rfl, rfl, rfl, rfl, rfl⟩

/-! ## Weakest preconditions -/

section Wp

variable {α β : Type} {Q Q' : α → Table → Prop} {t : Table}

/-- The weakest precondition of `x` for `Q`, for the calls that return: from `t`, `x` throws, or
returns a value and leaves a table that together satisfy `Q`. -/
def Wp (x : M α) (Q : α → Table → Prop) (t : Table) : Prop :=
  match x t with
  | .ok a t' => Q a t'
  | .error _ _ => True

theorem Wp.of_ok {x : M α} {a : α} {t' : Table} (h : Wp x Q t) (hx : x t = .ok a t') : Q a t' := by
  simpa only [Wp, hx] using h

theorem Wp.mono {x : M α} (h : Wp x Q t) (hQ : ∀ a t', Q a t' → Q' a t') : Wp x Q' t := by
  unfold Wp at *
  split <;> simp_all

theorem Wp.and {x : M α} (h : Wp x Q t) (h' : Wp x Q' t) : Wp x (fun a t' => Q a t' ∧ Q' a t') t := by
  unfold Wp at *
  split <;> simp_all

@[simp] theorem wp_pure {a : α} : Wp (pure a) Q t ↔ Q a t := Iff.rfl

@[simp] theorem wp_bind {x : M α} {f : α → M β} {Q : β → Table → Prop} :
    Wp (x >>= f) Q t ↔ Wp x (fun a => Wp (f a) Q) t := by
  simp only [Wp, bind, EStateM.bind]
  rcases x t with ⟨a, t'⟩ | ⟨e, t'⟩ <;> rfl

@[simp] theorem wp_get {Q : Table → Table → Prop} : Wp get Q t ↔ Q t t := Iff.rfl

@[simp] theorem wp_set {s : Table} {Q : PUnit → Table → Prop} : Wp (set s) Q t ↔ Q .unit s :=
  Iff.rfl

@[simp] theorem wp_modify {f : Table → Table} {Q : PUnit → Table → Prop} :
    Wp (modify f) Q t ↔ Q .unit (f t) := Iff.rfl

@[simp] theorem wp_modifyGet {f : Table → α × Table} : Wp (modifyGet f) Q t ↔ Q (f t).1 (f t).2 :=
  Iff.rfl

@[simp] theorem wp_throw {e : Error} : Wp (throw e : M α) Q t := trivial

@[simp] theorem wp_ite {c : Prop} [Decidable c] {x y : M α} :
    Wp (if c then x else y) Q t ↔ (c → Wp x Q t) ∧ (¬c → Wp y Q t) := by
  by_cases hc : c <;> simp [hc]

@[simp] theorem wp_bufferOf {r : CursorRef} {j : Nat} {Q : Block → Table → Prop} :
    Wp (bufferOf r j) Q t ↔ ∀ b, (t.cur r j).p = some b → Q b t := by
  simp only [bufferOf, wp_bind, wp_get]
  cases (t.cur r j).p <;> simp [Wp, pure, EStateM.pure, throw, throwThe, MonadExceptOf.throw,
    EStateM.throw]

@[simp] theorem wp_readBlock {n : Nat} {Q : Block → Table → Prop} :
    Wp (readBlock n) Q t ↔ ∀ b, t.files.db n = some b → Q b t := by
  simp only [readBlock, wp_bind, wp_get]
  cases t.files.db n <;> simp [Wp, pure, EStateM.pure, throw, throwThe, MonadExceptOf.throw,
    EStateM.throw]

@[simp] theorem wp_setOverwritten {Q : Unit → Table → Prop} : Wp setOverwritten Q t := by
  simp [setOverwritten]

@[simp] theorem wp_modifyCur {r : CursorRef} {j : Nat} {f : Cursor → Cursor}
    {Q : Unit → Table → Prop} : Wp (modifyCur r j f) Q t ↔ Q () (t.modifyCur r j f) := Iff.rfl

@[simp] theorem wp_setFiles {f : Files → Files} {Q : Unit → Table → Prop} :
    Wp (setFiles f) Q t ↔ Q () { t with files := f t.files, crashPoints := f t.files :: t.crashPoints } :=
  Iff.rfl

@[simp] theorem wp_nextFreeBlock {Q : Nat → Table → Prop} :
    Wp nextFreeBlock Q t ↔ Q t.base.nextFreeBlock.1 { t with base := t.base.nextFreeBlock.2 } :=
  Iff.rfl

@[simp] theorem wp_freeBlock {n : Nat} {Q : Unit → Table → Prop} :
    Wp (freeBlock n) Q t ↔ Q () { t with base := t.base.freeBlock n } := Iff.rfl

end Wp

/-! ## Calls that return -/

section Ok

variable {α β : Type} {Q Q' : α → Table → Prop} {t : Table}

/-- `x` returns from `t`, with a value and a table that together satisfy `Q`: the weakest
precondition for total correctness. -/
def Ok (x : M α) (Q : α → Table → Prop) (t : Table) : Prop :=
  match x t with
  | .ok a t' => Q a t'
  | .error _ _ => False

theorem ok_iff {x : M α} : Ok x Q t ↔ ∃ a t', x t = .ok a t' ∧ Q a t' := by
  unfold Ok
  split <;> simp_all [and_assoc]

theorem ok_of_eq {x : M α} {a : α} {t' : Table} (h : x t = .ok a t') : Ok x Q t ↔ Q a t' := by
  simp only [Ok, h]

theorem Ok.eq {x : M α} {a : α} {s : Table} (h : Ok x (fun b t' => b = a ∧ t' = s) t) :
    x t = .ok a s := by
  obtain ⟨_, _, hx, rfl, rfl⟩ := ok_iff.1 h
  exact hx

theorem ok_congr {x y : M α} {s : Table} (h : x t = y s) : Ok x Q t ↔ Ok y Q s := by
  simp only [Ok, h]

theorem Ok.mono {x : M α} (h : Ok x Q t) (hQ : ∀ a t', Q a t' → Q' a t') : Ok x Q' t := by
  unfold Ok at *
  split <;> simp_all

@[simp] theorem ok_pure {a : α} : Ok (pure a) Q t ↔ Q a t := Iff.rfl

@[simp] theorem ok_bind {x : M α} {f : α → M β} {Q : β → Table → Prop} :
    Ok (x >>= f) Q t ↔ Ok x (fun a => Ok (f a) Q) t := by
  simp only [Ok, bind, EStateM.bind]
  rcases x t with ⟨a, t'⟩ | ⟨e, t'⟩ <;> rfl

@[simp] theorem ok_get {Q : Table → Table → Prop} : Ok get Q t ↔ Q t t := Iff.rfl

@[simp] theorem ok_modify {f : Table → Table} {Q : PUnit → Table → Prop} :
    Ok (modify f) Q t ↔ Q .unit (f t) := Iff.rfl

@[simp] theorem ok_modifyGet {f : Table → α × Table} : Ok (modifyGet f) Q t ↔ Q (f t).1 (f t).2 :=
  Iff.rfl

@[simp] theorem ok_throw {e : Error} : Ok (throw e : M α) Q t ↔ False := Iff.rfl

@[simp] theorem ok_ite {c : Prop} [Decidable c] {x y : M α} :
    Ok (if c then x else y) Q t ↔ (c → Ok x Q t) ∧ (¬c → Ok y Q t) := by
  by_cases hc : c <;> simp [hc]

@[simp] theorem ok_bufferOf {r : CursorRef} {j : Nat} {Q : Block → Table → Prop} :
    Ok (bufferOf r j) Q t ↔ ∃ b, (t.cur r j).p = some b ∧ Q b t := by
  simp only [bufferOf, ok_bind, ok_get]
  cases (t.cur r j).p <;> simp [Ok, pure, EStateM.pure, throw, throwThe, MonadExceptOf.throw,
    EStateM.throw]

@[simp] theorem ok_readBlock {n : Nat} {Q : Block → Table → Prop} :
    Ok (readBlock n) Q t ↔ ∃ b, t.files.db n = some b ∧ Q b t := by
  simp only [readBlock, ok_bind, ok_get]
  cases t.files.db n <;> simp [Ok, pure, EStateM.pure, throw, throwThe, MonadExceptOf.throw,
    EStateM.throw]

@[simp] theorem ok_setOverwritten {Q : Unit → Table → Prop} : Ok setOverwritten Q t ↔ False := by
  simp only [setOverwritten, ok_bind, ok_get]
  split <;> simp

@[simp] theorem ok_modifyCur {r : CursorRef} {j : Nat} {f : Cursor → Cursor}
    {Q : Unit → Table → Prop} : Ok (modifyCur r j f) Q t ↔ Q () (t.modifyCur r j f) := Iff.rfl

@[simp] theorem ok_setFiles {f : Files → Files} {Q : Unit → Table → Prop} :
    Ok (setFiles f) Q t ↔ Q () { t with files := f t.files, crashPoints := f t.files :: t.crashPoints } :=
  Iff.rfl

@[simp] theorem ok_nextFreeBlock {Q : Nat → Table → Prop} :
    Ok nextFreeBlock Q t ↔ Q t.base.nextFreeBlock.1 { t with base := t.base.nextFreeBlock.2 } :=
  Iff.rfl

@[simp] theorem ok_freeBlock {n : Nat} {Q : Unit → Table → Prop} :
    Ok (freeBlock n) Q t ↔ Q () { t with base := t.base.freeBlock n } := Iff.rfl

end Ok

/-! ## Calls that return or throw -/

section Spec

variable {α β : Type} {Q Q' : α → Table → Prop} {E E' : Error → Prop} {t : Table}

/-- What a call returns or throws, leaving aside the table. -/
def outcome : EStateM.Result Error Table α → Except Error α
  | .ok a _ => .ok a
  | .error e _ => .error e

/-- `x` from `t` either returns a value and a table that together satisfy `Q`, or throws an
error that satisfies `E`: `Ok` and `Wp` are the cases `E = False` and `E = True`. -/
def Spec (x : M α) (Q : α → Table → Prop) (E : Error → Prop) (t : Table) : Prop :=
  match x t with
  | .ok a t' => Q a t'
  | .error e _ => E e

theorem Ok.and_wp {x : M α} (h : Ok x Q t) (h' : Wp x Q' t) :
    Ok x (fun a t' => Q a t' ∧ Q' a t') t := by
  unfold Ok at h
  unfold Wp at h'
  unfold Ok
  split <;> simp_all

theorem Spec.of_ok {x : M α} (h : Ok x Q t) : Spec x Q E t := by
  unfold Ok at h
  unfold Spec
  split <;> simp_all

theorem Spec.mono {x : M α} (h : Spec x Q E t) (hQ : ∀ a t', Q a t' → Q' a t')
    (hE : ∀ e, E e → E' e) : Spec x Q' E' t := by
  unfold Spec at *
  split <;> simp_all

theorem Spec.wp {x : M α} (h : Spec x Q E t) : Wp x Q t := by
  unfold Spec at h
  unfold Wp
  split <;> simp_all

/-- A call specified by its result `r` has `r` as its outcome. -/
theorem Spec.outcome_eq {x : M α} {r : Except Error α}
    (h : Spec x (fun a _ => .ok a = r) (fun e => .error e = r) t) : outcome (x t) = r := by
  unfold Spec at h
  split at h <;> rename_i heq <;> rw [heq] <;> exact h

@[simp] theorem spec_pure {a : α} : Spec (pure a) Q E t ↔ Q a t := Iff.rfl

@[simp] theorem spec_bind {x : M α} {f : α → M β} {Q : β → Table → Prop} :
    Spec (x >>= f) Q E t ↔ Spec x (fun a => Spec (f a) Q E) E t := by
  simp only [Spec, bind, EStateM.bind]
  rcases x t with ⟨a, t'⟩ | ⟨e, t'⟩ <;> rfl

@[simp] theorem spec_get {Q : Table → Table → Prop} : Spec get Q E t ↔ Q t t := Iff.rfl

@[simp] theorem spec_modify {f : Table → Table} {Q : PUnit → Table → Prop} :
    Spec (modify f) Q E t ↔ Q .unit (f t) := Iff.rfl

@[simp] theorem spec_throw {e : Error} : Spec (throw e : M α) Q E t ↔ E e := Iff.rfl

@[simp] theorem spec_ite {c : Prop} [Decidable c] {x y : M α} :
    Spec (if c then x else y) Q E t ↔ (c → Spec x Q E t) ∧ (¬c → Spec y Q E t) := by
  by_cases hc : c <;> simp [hc]

end Spec

/-! ## Stable relations -/

section Stable

variable (R : Table → Table → Prop)

/-- Every call of `x` that returns leaves a table related by `R` to the one it started from. -/
structure Stable {α : Type} (x : M α) : Prop where
  wp : ∀ t, Wp x (fun _ t' => R t t') t

variable {R} {α β : Type}

theorem Stable.le {x : M α} (h : Stable R x) {t : Table} {a : α} {t' : Table}
    (hx : x t = .ok a t') : R t t' :=
  (h.wp t).of_ok hx

theorem Stable.pure [IsRefl Table R] (a : α) : Stable R (pure a : M α) :=
  ⟨fun _ => IsRefl.refl _⟩

theorem Stable.get [IsRefl Table R] : Stable R (get : M Table) := ⟨fun _ => IsRefl.refl _⟩

theorem Stable.throw (e : Error) : Stable R (throw e : M α) := ⟨fun _ => trivial⟩

theorem Stable.modify {f : Table → Table} (hf : ∀ t, R t (f t)) : Stable R (modify f : M PUnit) :=
  ⟨fun _ => hf _⟩

theorem Stable.bind [IsTrans Table R] {x : M α} {f : α → M β} (hx : Stable R x)
    (hf : ∀ a, Stable R (f a)) : Stable R (x >>= f) :=
  ⟨fun t => wp_bind.2 <| (hx.wp t).mono fun a _ h =>
    ((hf a).wp _).mono fun _ _ h' => IsTrans.trans _ _ _ h h'⟩

theorem Stable.ite {c : Prop} [Decidable c] {x y : M α} (hx : Stable R x) (hy : Stable R y) :
    Stable R (if c then x else y) := by
  split <;> assumption

theorem Stable.bufferOf [IsRefl Table R] (r : CursorRef) (j : Nat) : Stable R (bufferOf r j) :=
  ⟨fun _ => wp_bufferOf.2 fun _ _ => IsRefl.refl _⟩

theorem Stable.readBlock [IsRefl Table R] (n : Nat) : Stable R (readBlock n) :=
  ⟨fun _ => wp_readBlock.2 fun _ _ => IsRefl.refl _⟩

theorem Stable.setOverwritten : Stable R setOverwritten := ⟨fun _ => wp_setOverwritten⟩

end Stable

end FlintBtree
