import FlintBtree.Find
import FlintBtree.Run

/-!
# Looking keys up

`get_exact_entry(key)` finds the leaf slot of `(key, 1)` with `find` and, when that key is there,
`read_tag` joins the chunk of its item with those of the items after it, stepping to each with
`next(C, 0)`, as many as the item's component count says.  This module proves that on a table
that shows an unchanging snapshot of the tree the value a lookup returns — or the error it
throws — is the one the snapshot's leaf items hold under the key, `storedValue`, which is a
function of the leaf list alone.  A lookup leaves the table ready for the next one, so any
sequence of lookups returns, key by key, what the leaf list says.

## Main Definitions

* `readFrom`, `storedValue` — the value a list of leaf items holds under a key.
* `Reading` — a table ready to look keys up in a snapshot.

## Main Results

* `getExactEntry_spec` — one lookup returns the stored value and leaves the table ready.
* `lookups_read_leaves` — **any sequence of lookups returns the stored values.**
* `deleting_absent_key_changes_no_lookup` — **`del` of a key that reads nothing returns false, and
  every lookup after it reads what it read before.**
* `deleteKt_of_found`, `del_of_deleteKt` — what `delete_kt` and `del` return once the calls they
  make have returned, so that a run of `del` can be followed one call at a time.

## Design Notes

`read_tag` steps with `next`, which takes `next_for_sequential` in a table whose `sequential`
flag is set; that path moves level 0 of the cursor alone, so the levels above no longer form a
path and the next step cannot be described by the tree.  `Reading` therefore asks for the flag to
be clear, as it is in every table whose base was committed after a non-sequential insertion.
`read_tag` trusts the component count of the first item: it joins that many items whatever
their keys, and `storedValue` says the same.
-/

namespace FlintBtree

/-! ## The stored value -/

/-- The value stored from the first of `items` on, as `read_tag` reads it: the chunk of that item
and of as many items after it as its component count says, joined, and inflated when the first
item is compressed. -/
def readFrom (env : Env) : List Item → Except Error (List UInt8)
  | [] => .ok []
  | it :: rest =>
    if rest.length < it.componentsOf - 1 then
      .error (.databaseCorruptError "Unexpected end of table when reading continuation of tag")
    else
      let tag := (it :: rest.take (it.componentsOf - 1)).flatMap Item.chunk
      if !it.getCompressed then .ok tag
      else match env.inflate tag with
        | .ok u => .ok u
        | .error msg => .error (.databaseError ("inflate failed (" ++ msg ++ ")"))

/-- The value the leaf items `S` hold under `key`: nothing when no item has the key `(key, 1)`,
otherwise what `readFrom` reads from that item on. -/
def storedValue (env : Env) (S : List Item) (key : List UInt8) :
    Except Error (Option (List UInt8)) :=
  match S.dropWhile fun it => !it.keyOf.eq ⟨key, 1⟩ with
  | [] => .ok none
  | items => some <$> readFrom env items

/-- In a list in strictly increasing key order, the items before one with key `K` all have other
keys, so `storedValue` reads from that item. -/
theorem dropWhile_of_sorted {S : List Item} (hS : S.Pairwise fun x y => x.keyOf.lt y.keyOf = true)
    {K : Key} {p : Nat} {it : Item} (hp : S[p]? = some it) (heq : it.keyOf.eq K = true) :
    S.dropWhile (fun x => !x.keyOf.eq K) = S.drop p := by
  obtain ⟨hlt, rfl⟩ := List.getElem?_eq_some_iff.1 hp
  have hmem : S[p] ∈ S.drop p := by rw [List.drop_eq_getElem_cons hlt]; exact List.mem_cons_self _ _
  rw [← List.take_append_drop p S] at hS
  conv_lhs => rw [← List.take_append_drop p S]
  rw [List.dropWhile_append_of_pos fun a ha => ?_, List.drop_eq_getElem_cons hlt,
    List.dropWhile_cons_of_neg (by simp [heq])]
  have hrank := (Key.lt_iff_rank_lt _ _).1 ((List.pairwise_append.1 hS).2.2 a ha _ hmem)
  rw [(Key.eq_iff_rank_eq _ _).1 heq] at hrank
  rw [Bool.not_eq_true', ← Bool.not_eq_true, Key.eq_iff_rank_eq]
  exact ne_of_lt hrank

/-- Once the scan has found the key, the value is read from there on. -/
theorem storedValue_of_found {env : Env} {S items : List Item} {key : List UInt8}
    (hd : S.dropWhile (fun x => !x.keyOf.eq ⟨key, 1⟩) = items) (hne : items ≠ []) :
    storedValue env S key = some <$> readFrom env items := by
  unfold storedValue; rw [hd]
  cases items with
  | nil => exact absurd rfl hne
  | cons _ _ => rfl

/-! ## What a lookup does not change -/

/-- What a lookup never changes: the handle and the sequential flag. -/
structure SameMode (t t' : Table) : Prop where
  handle : t'.handle = t.handle
  sequential : t'.sequential = t.sequential

instance : IsRefl Table SameMode := ⟨fun _ => ⟨rfl, rfl⟩⟩

instance : IsTrans Table SameMode :=
  ⟨fun _ _ _ h₁ h₂ => ⟨h₂.handle.trans h₁.handle, h₂.sequential.trans h₁.sequential⟩⟩

theorem sameMode_modifyCur (r : CursorRef) (j : Nat) (f : Cursor → Cursor) :
    Stable SameMode (modifyCur r j f) :=
  Stable.modify fun _ => by cases r <;> exact ⟨rfl, rfl⟩

theorem sameMode_writeBlock (n : Nat) (p : Block) : Stable SameMode (writeBlock n p) :=
  ⟨fun t => by rw [Wp, writeBlock_spec]; exact ⟨rfl, rfl⟩⟩

theorem sameMode_blockToCursor (r : CursorRef) (j n : Nat) :
    Stable SameMode (blockToCursor r j n) := by
  unfold blockToCursor
  with_reducible repeat' first
    | exact Stable.pure _ | exact Stable.get | exact Stable.throw _
    | exact Stable.bufferOf _ _ | exact Stable.readBlock _ | exact Stable.setOverwritten
    | exact sameMode_writeBlock _ _ | exact sameMode_modifyCur _ _ _
    | apply Stable.bind | apply Stable.ite | intro _

theorem sameMode_findLoop (r : CursorRef) (key : Key) : ∀ j, Stable SameMode (findLoop r key j)
  | 0 => Stable.pure _
  | j + 1 => by
    unfold findLoop
    with_reducible repeat' first
      | exact Stable.pure _ | exact Stable.get | exact Stable.bufferOf _ _
      | exact sameMode_modifyCur _ _ _ | exact sameMode_blockToCursor _ _ _
      | exact sameMode_findLoop r key j
      | apply Stable.bind | apply Stable.ite | intro _

theorem sameMode_find (r : CursorRef) : Stable SameMode (find r) := by
  unfold find
  with_reducible repeat' first
    | exact Stable.pure _ | exact Stable.get | exact Stable.bufferOf _ _
    | exact sameMode_modifyCur _ _ _ | exact sameMode_findLoop _ _ _
    | apply Stable.bind | apply Stable.ite | intro _

theorem sameMode_nextDefault (r : CursorRef) : ∀ fuel j, Stable SameMode (nextDefault r fuel j)
  | 0, _ => Stable.pure _
  | fuel + 1, j => by
    unfold nextDefault
    with_reducible repeat' first
      | exact Stable.pure _ | exact Stable.get | exact Stable.bufferOf _ _
      | exact sameMode_modifyCur _ _ _ | exact sameMode_blockToCursor _ _ _
      | exact sameMode_nextDefault r fuel _
      | apply Stable.bind | apply Stable.ite | intro _

/-! ## A table ready to look keys up -/

/-- A table ready to look keys up in the snapshot: shown through the built-in cursor with the root
at the top level, every level one `find` can start from, open, and not in sequential mode. -/
structure Reading (v : View) (L R : Nat) (t : Table) : Prop where
  shows : Shows t .builtIn v L R
  root : (t.cur .builtIn L).n = some R
  ready : ∀ k ≤ L, v.FindReady L R k (t.cur .builtIn k)
  opened : t.handle = .opened
  sequential : t.sequential = false

section Ready

variable {v : View} {L R : Nat}

/-- A slot offset is odd, as `find_in_block` wants its hint. -/
theorem slotOf_odd (i : Nat) : slotOf i % 2 = 1 := by
  simp only [slotOf, dirStart, D2]
  omega

/-- A level of a path can start a `find`. -/
theorem View.LevelAt.findReady {C : Nat → Cursor} {pos : Nat → Nat} {k : Nat}
    (h : v.LevelAt L R C pos k) : v.FindReady L R k (C k) := by
  obtain ⟨n, b, hq, hb, hn, hp, -, -, hc⟩ := h
  refine ⟨by simp [hp], fun n' _ hn' => ?_, fun _ => ⟨n, List.getElem?_mem hq, hn⟩,
    .inr (.inr (hc ▸ slotOf_odd _))⟩
  obtain rfl : n = n' := Option.some.inj (hn.symm.trans hn')
  rw [hp, hb]

/-- A path from level `j` has the root at the top level. -/
theorem View.PathFrom.root {C : Nat → Cursor} {pos : Nat → Nat} {j : Nat}
    (h : v.PathFrom L R C pos j) (hj : j ≤ L) : (C L).n = some R := by
  obtain ⟨n, b, hq, -, hn, -⟩ := h.2 L hj le_rfl
  rw [h.1, View.blocksAt_top] at hq
  simp only [List.getElem?_cons_zero, Option.some.injEq] at hq
  rw [hn, hq]

/-- A table whose cursor is a path to a leaf item is ready to look keys up. -/
theorem Reading.of_path {t : Table} {pos : Nat → Nat} (ht : Shows t .builtIn v L R)
    (hpath : v.PathFrom L R (t.cur .builtIn) pos 0) (ho : t.handle = .opened)
    (hseq : t.sequential = false) : Reading v L R t :=
  ⟨ht, hpath.root (Nat.zero_le L), fun k hk => (hpath.2 k (Nat.zero_le k) hk).findReady, ho, hseq⟩

/-- `form_key` changes nothing a lookup reads. -/
theorem Reading.setKt {t : Table} (hr : Reading v L R t) (it : Item) :
    Reading v L R { t with kt := it } :=
  ⟨⟨hr.1.1, hr.1.2, hr.1.3, hr.1.4⟩, hr.2, hr.3, hr.4, hr.5⟩

/-- A cursor left by `find`'s descent — levels from 1 up a path, level 0 holding the leaf the path
points to, with a slot hint `find_in_block` accepts — in a table that is open and not in
sequential mode, is ready to look keys up. -/
theorem Reading.of_descent (hs : Snapshot v L R) {t : Table} {pos : Nat → Nat}
    (ht : Shows t .builtIn v L R) (hpath : v.PathFrom L R (t.cur .builtIn) pos 1)
    (hchild : v.ChildHeld L R (t.cur .builtIn) pos 1) (hc : (t.cur .builtIn 0).c % 2 = 1)
    (ho : t.handle = .opened) (hseq : t.sequential = false) : Reading v L R t := by
  obtain ⟨n, hq, hn, hp⟩ := hchild
  simp only [Nat.sub_self] at hq hn hp
  have hmem := List.getElem?_mem hq
  obtain ⟨b, hb, -⟩ := hs.block (Nat.zero_le L) hmem
  refine ⟨ht, ?_, fun k hk => ?_, ho, hseq⟩
  · rcases Nat.eq_zero_or_pos L with rfl | hL
    · rw [View.blocksAt_top, List.mem_singleton] at hmem
      rw [hn, hmem]
    · exact hpath.root hL
  · rcases Nat.eq_zero_or_pos k with rfl | hk0
    · exact ⟨by simp [hp, hb], fun n' _ hn' => by rw [← Option.some.inj (hn.symm.trans hn'), hp],
        fun _ => ⟨n, hmem, hn⟩, .inr (.inr hc)⟩
    · exact (hpath.2 k hk0 hk).findReady

end Ready

/-! ## Finding the key -/

section Find

variable {v : View} {L R : Nat}

/-- **`find(C)` in a table ready to look keys up.**  When it returns true the cursor is a path to
a leaf item with the key of `kt`.  When it returns false no leaf item has that key, and the cursor
is as `find`'s descent leaves it: a path from level 1 with the leaf below it and a slot hint. -/
theorem find_lands (hs : Snapshot v L R) {t : Table} (hr : Reading v L R t) :
    Ok (find .builtIn) (fun found t' => Shows t' .builtIn v L R ∧
      (found = true → ∃ pos, v.PathFrom L R (t'.cur .builtIn) pos 0 ∧
        ∃ it, (v.leaves L R)[pos 0]? = some it ∧ it.keyOf.eq t.kt.keyOf = true) ∧
      (found = false → (∀ it ∈ v.leaves L R, it.keyOf.eq t.kt.keyOf = false) ∧
        ∃ pos, v.PathFrom L R (t'.cur .builtIn) pos 1 ∧ v.ChildHeld L R (t'.cur .builtIn) pos 1 ∧
          (t'.cur .builtIn 0).c % 2 = 1)) t := by
  have hpath : v.PathFrom L R (t.cur .builtIn) (fun _ => 0) (L + 1) :=
    ⟨rfl, fun k hk hkL => by omega⟩
  have hchild : v.ChildHeld L R (t.cur .builtIn) (fun _ => 0) (L + 1) :=
    ⟨R, by simp, hr.root, (hr.ready L le_rfl).2.1 R (by simp) hr.root⟩
  unfold find
  simp only [ok_bind, ok_get]
  rw [hr.shows.level]
  refine Ok.mono (findLoop_spec hs t.kt.keyOf L t _ le_rfl hr.shows hpath hchild
    (View.routes_top hs.tree _) hr.ready) ?_
  rintro _ t₁ ⟨hs₁, pos, hpath₁, hchild₁, hroute, hready₀⟩
  obtain ⟨n, hq, hn, hp⟩ := id hchild₁
  simp only [Nat.sub_self] at hq hn hp
  obtain ⟨b, hb, -, -⟩ := hs.block (Nat.zero_le _) (List.getElem?_mem hq)
  obtain ⟨n', _, _, hq', ⟨b', hb', -, -, hsorted, -⟩, -⟩ := id hroute
  obtain rfl : n = n' := Option.some.inj (hq.symm.trans hq')
  obtain rfl : b = b' := Option.some.inj (hb.symm.trans hb')
  -- `find_in_block` cuts the leaf after its last item at most the key
  obtain ⟨k, hk, hcut⟩ := exists_cut_from t.kt.keyOf (Nat.zero_le b.dir.length)
    (by simpa [Block.items, List.pairwise_map] using hsorted)
  have hfind := findInBlock_eq hcut hk hready₀.2.2.2 true rfl
  simp only [Nat.zero_add] at hfind hk hcut
  obtain ⟨-, -, hfound⟩ := hroute.leaf hq hb hk fun i h => hcut i h (Nat.zero_le _)
  simp only [ok_bind, ok_bufferOf, ok_get, ok_modifyCur, ok_ite, ok_pure]
  refine ⟨b, hp.trans hb, ?_⟩
  rw [hfind]
  -- the table once the leaf slot is set, whatever the answer
  have hpath₂ : v.PathFrom L R ((t₁.modifyCur .builtIn 0 fun x => { x with c := slotOf k - D2 }).cur
      .builtIn) pos 1 :=
    ⟨hpath₁.1, fun j hj hjL => (hpath₁.2 j hj hjL).congr (by simp [show j ≠ 0 by omega]) rfl rfl⟩
  have hchild₂ : v.ChildHeld L R ((t₁.modifyCur .builtIn 0 fun x =>
      { x with c := slotOf k - D2 }).cur .builtIn) pos 1 :=
    ⟨n, by simpa using hq, by simp [hn], by simp [hp]⟩
  have hodd : (slotOf k - D2) % 2 = 1 := by simp only [slotOf, dirStart, D2]; omega
  have hnone : ¬(0 < k ∧ (b.itemAt (slotOf k - D2)).keyOf.eq t.kt.keyOf = true) →
      ∀ it ∈ v.leaves L R, it.keyOf.eq t.kt.keyOf = false := fun h it hit => by
    simpa using fun he => h (hfound.2 ⟨it, hit, he⟩)
  refine ⟨fun hlt => ⟨hs₁.setC 0 _, fun h => absurd h Bool.false_ne_true, fun _ =>
      ⟨hnone fun h => by simp only [slotOf, dirStart, D2] at hlt; omega, pos, hpath₂, hchild₂,
        by simpa using hodd⟩⟩,
    fun hge => ⟨hs₁.setC 0 _, fun heq => ?_, fun hne => ⟨hnone fun h => by simp_all, pos, hpath₂,
      hchild₂, by simpa using hodd⟩⟩⟩
  -- the key is there: the slot is that of the item before the cut
  have hk0 : 0 < k := by simp only [slotOf, dirStart, D2] at hge; omega
  have hlev : v.LevelAt L R ((t₁.modifyCur .builtIn 0 fun x => { x with c := slotOf k - D2 }).cur
      .builtIn) (Function.update pos 0 (v.start L R 0 (pos 1) + (k - 1))) 0 := by
    refine ⟨n, b, by simpa using hq, hb, by simp [hn], by simp [hp, hb], by simp, by simp; omega, ?_⟩
    simp only [Table.cur_modifyCur, Function.update_same, Nat.zero_add,
      Function.update_noteq Nat.one_ne_zero, slotOf_sub_D2 hk0]
    congr 1
    omega
  have hpath₃ := hpath₂.extend (Nat.zero_le L) (fun _ _ => rfl) hlev
  refine ⟨_, hpath₃, _, ?_, heq⟩
  rw [← hpath₃.leafItem]
  simp [Table.leafItem, hp, hb]

end Find

/-! ## Reading the chunks -/

section Chunks

variable {v : View} {L R : Nat}

/-- With the sequential flag clear, `next` is `next_default`. -/
theorem next_of_sequential_false {r : CursorRef} {j : Nat} {t : Table}
    (h : t.sequential = false) : next r j t = nextDefault r (t.level + 1) j t := by
  simp only [next, bind, EStateM.bind, get, getThe, MonadStateOf.get, EStateM.get, h,
    Bool.false_eq_true, ite_false]

theorem spec_bufferOf_of_eq {Q : Block → Table → Prop} {E : Error → Prop}
    {r : CursorRef} {j : Nat} {t : Table} {b : Block} (h : (t.cur r j).p = some b) :
    Spec (bufferOf r j) Q E t ↔ Q b t := by
  simp only [bufferOf, spec_bind, spec_get, h]
  rfl

theorem spec_next_of_sequential_false {Q : Bool → Table → Prop} {E : Error → Prop}
    {r : CursorRef} {j : Nat} {t : Table} (h : t.sequential = false) :
    Spec (next r j) Q E t ↔ Spec (nextDefault r (t.level + 1) j) Q E t := by
  unfold Spec
  rw [next_of_sequential_false h]

/-- **The loop of `read_tag`** from a cursor on the leaf item at position `pos 0`, with components
`i .. n` still to read: it appends the chunks of the next `n + 1 - i` leaf items and leaves the
cursor on the last of them, or throws when the leaf items end first. -/
theorem readChunks_spec (hs : Snapshot v L R) :
    ∀ (fuel i n : Nat) (tag : List UInt8) (t : Table) (pos : Nat → Nat), n + 1 - i ≤ fuel →
      Shows t .builtIn v L R → v.PathFrom L R (t.cur .builtIn) pos 0 → t.sequential = false →
      Spec (readChunks .builtIn fuel i n tag)
        (fun a t' => pos 0 + (n + 1 - i) < (v.leaves L R).length ∧
          a = tag ++ (((v.leaves L R).drop (pos 0 + 1)).take (n + 1 - i)).flatMap Item.chunk ∧
          SameMode t t' ∧ Shows t' .builtIn v L R ∧
          ∃ pos', v.PathFrom L R (t'.cur .builtIn) pos' 0)
        (fun e => (v.leaves L R).length ≤ pos 0 + (n + 1 - i) ∧
          e = .databaseCorruptError "Unexpected end of table when reading continuation of tag") t
  | 0, i, n, tag, t, pos, hf, ht, hpath, _ => by
    have hk : n + 1 - i = 0 := by omega
    simp only [readChunks, spec_pure, hk]
    exact ⟨hpath.lt_length, by simp, refl t, ht, pos, hpath⟩
  | fuel + 1, i, n, tag, t, pos, hf, ht, hpath, hseq => by
    by_cases hni : n < i
    · have hk : n + 1 - i = 0 := by omega
      simp only [readChunks, if_pos hni, spec_pure, hk]
      exact ⟨hpath.lt_length, by simp, refl t, ht, pos, hpath⟩
    have hk : n + 1 - i = (n + 1 - (i + 1)) + 1 := by omega
    simp only [readChunks, if_neg hni, spec_bind, spec_pure]
    rw [spec_next_of_sequential_false hseq]
    refine (Spec.of_ok ((nextDefault_leaf hs ht hpath).and_wp
      ((sameMode_nextDefault _ _ 0).wp t))).mono (fun a t₁ ⟨hQ, hm₁⟩ => ?_) fun _ h => h
    split_ifs at hQ with hlt
    · obtain ⟨rfl, hs₁, pos₁, hpath₁, hpos₁, -⟩ := hQ
      have hleaf := hpath₁.leafItem
      rw [hpos₁] at hleaf
      obtain ⟨n₁, b₁, -, -, -, hp₁, -⟩ := hpath₁.2 0 le_rfl (Nat.zero_le L)
      simp only [Table.leafItem, hp₁, Option.map_some'] at hleaf
      simp only [Bool.not_true, Bool.false_eq_true, ite_false, spec_bind, spec_get, spec_pure,
        spec_bufferOf_of_eq hp₁]
      refine Spec.mono (readChunks_spec hs fuel (i + 1) n _ t₁ pos₁ (by omega) hs₁ hpath₁
        (hm₁.sequential.trans hseq)) ?_ fun e ⟨hle, he⟩ => ⟨by omega, he⟩
      rintro a t' ⟨hlt', ha, hm', hs', hpath'⟩
      refine ⟨by omega, ?_, IsTrans.trans _ _ _ hm₁ hm', hs', hpath'⟩
      have hitem := Option.some.inj (hleaf.trans (List.getElem?_eq_getElem hlt))
      rw [ha, hpos₁, hk, List.drop_eq_getElem_cons hlt, List.take_succ_cons, List.flatMap_cons,
        List.append_assoc, hitem]
    · obtain ⟨rfl, rfl⟩ := hQ
      simp only [Bool.not_false, ite_true, spec_bind, spec_throw]
      exact ⟨by omega, trivial⟩

/-- **`read_tag(C, tag, false)`** from a cursor on the leaf item at position `pos 0`: it returns or
throws what `readFrom` reads from that item on, and leaves the cursor on a leaf item. -/
theorem readTag_spec (env : Env) (hs : Snapshot v L R) {t : Table} {pos : Nat → Nat}
    (ht : Shows t .builtIn v L R) (hpath : v.PathFrom L R (t.cur .builtIn) pos 0)
    (hseq : t.sequential = false) :
    Spec (readTag env .builtIn false)
      (fun a t' => .ok a.1 = readFrom env ((v.leaves L R).drop (pos 0)) ∧ SameMode t t' ∧
        Shows t' .builtIn v L R ∧ ∃ pos', v.PathFrom L R (t'.cur .builtIn) pos' 0)
      (fun e => .error e = readFrom env ((v.leaves L R).drop (pos 0))) t := by
  have hlt := hpath.lt_length
  obtain ⟨n₀, b, -, -, -, hp, -⟩ := hpath.2 0 le_rfl (Nat.zero_le L)
  have hleaf := hpath.leafItem
  simp only [Table.leafItem, hp, Option.map_some'] at hleaf
  have hitem := Option.some.inj (hleaf.trans (List.getElem?_eq_getElem hlt))
  rw [List.drop_eq_getElem_cons hlt]
  simp only [readTag, spec_bind, spec_bufferOf_of_eq hp, spec_get]
  rw [hitem]
  generalize (v.leaves L R)[pos 0] = it at hlt ⊢
  have hc : it.componentsOf + 1 - 2 = it.componentsOf - 1 := by omega
  refine Spec.mono (readChunks_spec hs _ 2 _ _ t pos (by omega) ht hpath hseq) ?_ ?_
  · rintro tag t' ⟨hlt', rfl, hm, hs', hpath'⟩
    have hlen : ¬((v.leaves L R).drop (pos 0 + 1)).length < it.componentsOf - 1 := by
      rw [List.length_drop]
      omega
    rw [readFrom, if_neg hlen, hc, ← List.flatMap_cons]
    cases hcomp : it.getCompressed
    · simp only [Bool.not_false, Bool.true_or, ite_true, spec_pure]
      exact ⟨trivial, hm, hs', hpath'⟩
    · simp only [Bool.not_true, Bool.or_false, Bool.false_eq_true, ite_false, spec_bind,
        spec_pure]
      split
      · next u hu => simp only [hu, spec_pure]; exact ⟨trivial, hm, hs', hpath'⟩
      · next msg hu => simp only [hu, spec_throw]
  · rintro e ⟨hle, rfl⟩
    rw [readFrom, if_pos (by rw [List.length_drop]; omega)]

end Chunks

/-! ## Lookups -/

/-- The reader of the two leaves with its built-in cursor on the first leaf item. -/
def twoLeavesLookup : Table :=
  { twoLeavesReader 1 with C := twoLeavesCursor, handle := .opened, sequential := false }

theorem twoLeaves_snapshot : Snapshot (twoLeavesView 1) 1 2 :=
  ⟨twoLeaves_tree 1, twoLeaves_nodup 1, by decide⟩

theorem twoLeavesLookup_reading : Reading (twoLeavesView 1) 1 2 twoLeavesLookup :=
  ⟨⟨rfl, fun _ _ _ _ => rfl, fun k h => absurd h (by
    simp only [Table.cur, twoLeavesLookup, twoLeavesCursor]; split_ifs <;> decide),
    fun _ hw => absurd hw (by decide)⟩, rfl, by decide, rfl, rfl⟩

section Lookups

variable {v : View} {L R : Nat}

/-- **One lookup.**  In a table ready to look keys up in the snapshot, `get_exact_entry(key)`
returns or throws what the snapshot's leaf items hold under `key`, and when it returns it leaves
the table ready for the next lookup. -/
theorem getExactEntry_spec (env : Env) (hs : Snapshot v L R) {t : Table} (hr : Reading v L R t)
    {key : List UInt8} (hkey : key.length ≤ flintBtreeMaxKeyLen) :
    Spec (getExactEntry env key)
      (fun a t' => .ok a = storedValue env (v.leaves L R) key ∧ Reading v L R t')
      (fun e => .error e = storedValue env (v.leaves L R) key) t := by
  have hlong : ¬flintBtreeMaxKeyLen < key.length := by omega
  simp only [getExactEntry, formKey, spec_bind, spec_get]
  rw [if_neg fun h => h hr.opened]
  simp only [if_neg hlong, spec_bind, spec_pure, spec_modify]
  refine (Spec.of_ok ((find_lands hs (hr.setKt _)).and_wp ((sameMode_find _).wp _))).mono
    (fun found t₁ ⟨⟨hs₁, hyes, hno⟩, hm⟩ => ?_) fun _ h => h
  have ho₁ : t₁.handle = .opened := hm.handle.trans hr.opened
  have hseq₁ : t₁.sequential = false := hm.sequential.trans hr.sequential
  have hkey₁ : ({ t with kt := t.kt.formKey key } : Table).kt.keyOf = ⟨key, 1⟩ := rfl
  rw [hkey₁] at hyes hno
  cases found
  · obtain ⟨hall, pos, hpath, hchild, hc⟩ := hno rfl
    simp only [Bool.not_false, ite_true, spec_pure]
    refine ⟨?_, Reading.of_descent hs hs₁ hpath hchild hc ho₁ hseq₁⟩
    rw [storedValue, (List.dropWhile_eq_nil_iff).2 fun it hit => by simp [hall it hit]]
  · obtain ⟨pos, hpath, it, hit, heq⟩ := hyes rfl
    simp only [Bool.not_true, Bool.false_eq_true, ite_false, spec_bind, spec_pure]
    have hdrop := dropWhile_of_sorted hs.leaves_sorted hit heq
    have hne : (v.leaves L R).drop (pos 0) ≠ [] := by
      rw [List.drop_eq_getElem_cons (List.getElem?_eq_some_iff.1 hit).1]
      exact List.cons_ne_nil _ _
    refine Spec.mono (readTag_spec env hs hs₁ hpath hseq₁) ?_ ?_
    · rintro a t₂ ⟨ha, hm₂, hs₂, pos₂, hpath₂⟩
      refine ⟨?_, Reading.of_path hs₂ hpath₂ (hm₂.handle.trans ho₁) (hm₂.sequential.trans hseq₁)⟩
      rw [storedValue_of_found hdrop hne, ← ha]; rfl
    · intro e he
      rw [storedValue_of_found hdrop hne, ← he]; rfl

/-- `key_exists(key)` in a table ready to look keys up: whether a leaf item holds the key, with the
table left ready. -/
theorem keyExists_spec (hs : Snapshot v L R) {t : Table} (hr : Reading v L R t)
    {key : List UInt8} (hkey : key.length ≤ flintBtreeMaxKeyLen) :
    Ok (keyExists key) (fun b t' =>
      (b = true ↔ ∃ it ∈ v.leaves L R, it.keyOf.eq ⟨key, 1⟩ = true) ∧ Reading v L R t') t := by
  have hlong : ¬flintBtreeMaxKeyLen < key.length := by omega
  simp only [keyExists, formKey, ok_bind, ok_get, if_neg hlong, ok_pure, ok_modify]
  refine ((find_lands hs (hr.setKt _)).and_wp ((sameMode_find _).wp _)).mono
    fun found t₁ ⟨⟨hs₁, hyes, hno⟩, hm⟩ => ?_
  have ho₁ : t₁.handle = .opened := hm.handle.trans hr.opened
  have hseq₁ : t₁.sequential = false := hm.sequential.trans hr.sequential
  have hkey₁ : ({ t with kt := t.kt.formKey key } : Table).kt.keyOf = ⟨key, 1⟩ := rfl
  rw [hkey₁] at hyes hno
  cases found
  · obtain ⟨hall, pos, hpath, hchild, hc⟩ := hno rfl
    refine ⟨⟨fun h => absurd h Bool.false_ne_true, fun ⟨it, hit, heq⟩ => ?_⟩,
      Reading.of_descent hs hs₁ hpath hchild hc ho₁ hseq₁⟩
    rw [hall it hit] at heq
    exact absurd heq Bool.false_ne_true
  · obtain ⟨pos, hpath, it, hit, heq⟩ := hyes rfl
    exact ⟨iff_of_true rfl ⟨it, List.getElem?_mem hit, heq⟩, Reading.of_path hs₁ hpath ho₁ hseq₁⟩

/-- No value is stored under `key` exactly when no leaf item has the key. -/
theorem storedValue_eq_none_iff {env : Env} {S : List Item} {key : List UInt8} :
    storedValue env S key = .ok none ↔ ∀ it ∈ S, it.keyOf.eq ⟨key, 1⟩ = false := by
  unfold storedValue
  split
  · rename_i h
    simpa using List.dropWhile_eq_nil_iff.1 h
  · rename_i items h
    refine iff_of_false ?_ fun hall => h ?_
    · generalize readFrom env _ = r
      cases r <;> simp [Functor.map, Except.map]
    · exact List.dropWhile_eq_nil_iff.2 fun it hit => by simp [hall it hit]

/-- **`key_exists` agrees with `get_exact_entry`.**  On a table that shows a snapshot of the tree,
with the built-in cursor on a path of it and the sequential flag clear, `key_exists(key)` for a
key no longer than `BTREE_MAX_KEY_LEN` returns true exactly when `get_exact_entry(key)` from the
same table does not come back with "not found", and leaves the table ready for the next lookup. -/
theorem keyExists_agrees_with_getExactEntry (env : Env) (hs : Snapshot v L R) {t : Table}
    (hr : Reading v L R t) {key : List UInt8} (hkey : key.length ≤ flintBtreeMaxKeyLen) :
    Ok (keyExists key) (fun b t' =>
      (b = true ↔ outcome (getExactEntry env key t) ≠ .ok none) ∧ Reading v L R t') t := by
  have hget : outcome (getExactEntry env key t) = storedValue env (v.leaves L R) key :=
    ((getExactEntry_spec env hs hr hkey).mono (fun _ _ h => h.1) fun _ h => h).outcome_eq
  refine (keyExists_spec hs hr hkey).mono fun b t' ⟨hb, hr'⟩ => ⟨?_, hr'⟩
  rw [hb, hget, Ne, storedValue_eq_none_iff]
  simp

/-- In the snapshot of two leaves, `key_exists` finds `a`, as `get_exact_entry` does. -/
theorem twoLeaves_keyExists_a :
    Snapshot (twoLeavesView 1) 1 2 ∧ Reading (twoLeavesView 1) 1 2 twoLeavesLookup ∧
      ([97] : List UInt8).length ≤ flintBtreeMaxKeyLen ∧
      Ok (keyExists [97]) (fun b t' =>
        (b = true ↔ outcome (getExactEntry sampleEnv [97] twoLeavesLookup) ≠ .ok none) ∧
          Reading (twoLeavesView 1) 1 2 t') twoLeavesLookup :=
  ⟨twoLeaves_snapshot, twoLeavesLookup_reading, by decide,
    keyExists_agrees_with_getExactEntry sampleEnv twoLeaves_snapshot twoLeavesLookup_reading
      (by decide)⟩

/-- The lookups of `keys` one after the other, each from the table the one before left. -/
theorem lookups_spec (env : Env) (hs : Snapshot v L R) :
    ∀ (keys : List (List UInt8)) {t : Table}, Reading v L R t →
      (∀ k ∈ keys, k.length ≤ flintBtreeMaxKeyLen) →
      Spec (keys.mapM (getExactEntry env))
        (fun a _ => .ok a = keys.mapM (storedValue env (v.leaves L R)))
        (fun e => .error e = keys.mapM (storedValue env (v.leaves L R))) t
  | [], _, _, _ => by simp only [List.mapM_nil, spec_pure]; rfl
  | k :: ks, t, hr, hkeys => by
    simp only [List.mapM_cons, spec_bind, spec_pure]
    refine Spec.mono (getExactEntry_spec env hs hr (hkeys k (List.mem_cons_self _ _))) ?_ ?_
    · rintro a t' ⟨ha, hr'⟩
      simp only [spec_bind, spec_pure]
      refine (lookups_spec env hs ks hr' fun k' h => hkeys k' (List.mem_cons_of_mem _ h)).mono
        (fun as _ has => ?_) fun e he => ?_
      · rw [← ha, ← has]; rfl
      · rw [← ha, ← he]; rfl
    · intro e he
      rw [← he]; rfl

/-- **Lookups read the leaves.**  On a table that shows a snapshot of the tree, with the built-in
cursor on a path of it and the sequential flag clear, any sequence of `get_exact_entry` calls for
keys no longer than `BTREE_MAX_KEY_LEN` returns, key by key, the values the snapshot's leaf items
hold, or throws the first error reading them throws. -/
theorem lookups_read_leaves (env : Env) (hs : Snapshot v L R) {t : Table} (hr : Reading v L R t)
    {keys : List (List UInt8)} (hkeys : ∀ k ∈ keys, k.length ≤ flintBtreeMaxKeyLen) :
    outcome (keys.mapM (getExactEntry env) t) = keys.mapM (storedValue env (v.leaves L R)) :=
  (lookups_spec env hs keys hr hkeys).outcome_eq

/-- In the snapshot of two leaves, looking up `m`, `a` and then `b` reads `[2]`, `[1]` and
nothing. -/
theorem twoLeaves_lookups :
    Snapshot (twoLeavesView 1) 1 2 ∧ Reading (twoLeavesView 1) 1 2 twoLeavesLookup ∧
      (∀ k ∈ ([[109], [97], [98]] : List (List UInt8)), k.length ≤ flintBtreeMaxKeyLen) ∧
      outcome ([[109], [97], [98]].mapM (getExactEntry sampleEnv) twoLeavesLookup) =
        .ok [some [2], some [1], none] := by
  have hk : ∀ k ∈ ([[109], [97], [98]] : List (List UInt8)), k.length ≤ flintBtreeMaxKeyLen := by
    decide
  exact ⟨twoLeaves_snapshot, twoLeavesLookup_reading, hk,
    (lookups_read_leaves sampleEnv twoLeaves_snapshot twoLeavesLookup_reading hk).trans rfl⟩

end Lookups

/-! ## Deleting a key -/

section Delete

variable {v : View} {L R : Nat}

/-- `delete_kt()` when `find` lands on the key: it leaves sequential mode, reads the component
count of the item, moves the cursor's path with `alter` and deletes the item, climbing as
`delete_item(0, true)` does. -/
theorem deleteKt_of_found {t t₁ t₂ t₃ : Table} {p : Block} (hf : find .builtIn t = .ok true t₁)
    (hp : (t₁.C 0).p = some p)
    (ha : alter { t₁ with seqCount := seqStartPoint, sequential := false } = .ok () t₂)
    (hd : deleteItem (t₂.level + 1) 0 true t₂ = .ok () t₃) :
    deleteKt t = .ok (p.itemAt (t₁.C 0).c).componentsOf t₃ := by
  refine Ok.eq ?_
  simp only [deleteKt, ok_bind, ok_of_eq hf, ok_modify, ite_true, ok_get, ok_bufferOf]
  refine ⟨p, hp, (ok_of_eq ha).2 ?_⟩
  simp only [ok_bind, ok_get, ok_of_eq hd, ok_pure, and_self]

/-- `del(key)` on an open table, for a key it looks up: `form_key`, then `delete_kt`, and, when
that deleted an item of `n` components, the deletion of components `2 .. n`. -/
theorem del_of_deleteKt {t t₁ t₂ : Table} {key : List UInt8} {n : Nat} (ho : t.handle = .opened)
    (hk : key.length ≤ flintBtreeMaxKeyLen) (hne : key ≠ [])
    (hd : deleteKt { t with kt := t.kt.formKey key } = .ok n t₁) (hn : n ≠ 0)
    (hc : deleteComponents n 2 n t₁ = .ok () t₂) :
    del key t = .ok true { t₂ with itemCount := t₂.itemCount - 1, btreeModified := true } := by
  refine Ok.eq ?_
  simp only [del, ok_bind, ok_get]
  rw [if_neg fun h => h ho, if_neg (Nat.not_lt.2 hk), if_neg (by simpa using hne)]
  simp only [formKey, if_neg (Nat.not_lt.2 hk), ok_bind, ok_pure, ok_modify, ok_of_eq hd, if_neg hn,
    ok_of_eq hc, and_self]

/-- Leaving sequential mode, as `delete_kt` does, changes nothing a lookup reads. -/
theorem Reading.setSeq {t : Table} (hr : Reading v L R t) (n : Int) :
    Reading v L R { t with seqCount := n, sequential := false } :=
  ⟨⟨hr.1.1, hr.1.2, hr.1.3, hr.1.4⟩, hr.2, hr.3, hr.4, rfl⟩

/-- `del(key)` in a table ready to look keys up, for a key no leaf item holds: `delete_kt`'s `find`
comes back false, so `del` returns false, and the table is left ready.  A key too long or empty
returns false before `find`. -/
theorem del_absent (hs : Snapshot v L R) {t : Table} (hr : Reading v L R t) {key : List UInt8}
    (habsent : ∀ it ∈ v.leaves L R, it.keyOf.eq ⟨key, 1⟩ = false) :
    Ok (del key) (fun b t' => b = false ∧ Reading v L R t') t := by
  simp only [del, ok_bind, ok_get]
  rw [if_neg fun h => h hr.opened]
  split
  · exact ⟨rfl, hr⟩
  split
  · exact ⟨rfl, hr⟩
  rename_i hlong _
  simp only [formKey, if_neg hlong, ok_bind, ok_modify, deleteKt, ok_pure]
  refine ((find_lands hs (hr.setKt _)).and_wp ((sameMode_find _).wp _)).mono
    fun found t₁ ⟨⟨hs₁, hyes, hno⟩, hm⟩ => ?_
  have hkey₁ : ({ t with kt := t.kt.formKey key } : Table).kt.keyOf = ⟨key, 1⟩ := rfl
  rw [hkey₁] at hyes hno
  cases found
  · obtain ⟨-, pos, hpath, hchild, hc⟩ := hno rfl
    simp only [ok_bind, ok_modify, Bool.false_eq_true, ite_false, ok_pure, ite_true]
    exact ⟨trivial, (Reading.of_descent hs hs₁ hpath hchild hc (hm.handle.trans hr.opened)
      (hm.sequential.trans hr.sequential)).setSeq _⟩
  · obtain ⟨pos, -, it, hit, heq⟩ := hyes rfl
    rw [habsent it (List.getElem?_mem hit)] at heq
    exact absurd heq Bool.false_ne_true

/-- **Deleting a key that is not there changes no lookup.**  On a table that shows a snapshot of
the tree, with the built-in cursor on a path of it and the sequential flag clear, `del(key)` for a
key under which the leaf items hold nothing returns false without throwing, and any sequence of
`get_exact_entry` calls after it for keys no longer than `BTREE_MAX_KEY_LEN` returns, key by key,
what the snapshot's leaf items hold, or throws the first error reading them throws. -/
theorem deleting_absent_key_changes_no_lookup (env : Env) (hs : Snapshot v L R) {t : Table}
    (hr : Reading v L R t) {key : List UInt8} (habsent : storedValue env (v.leaves L R) key = .ok none)
    {keys : List (List UInt8)} (hkeys : ∀ k ∈ keys, k.length ≤ flintBtreeMaxKeyLen) :
    outcome ((do
        let b ← del key
        let vs ← keys.mapM (getExactEntry env)
        pure (b, vs)) t) =
      (keys.mapM (storedValue env (v.leaves L R))).map (false, ·) := by
  refine Spec.outcome_eq (spec_bind.2 (Spec.of_ok ((del_absent hs hr
    (storedValue_eq_none_iff.1 habsent)).mono fun _ _ ⟨hb, hread⟩ => ?_)))
  subst hb
  refine spec_bind.2 ((lookups_spec env hs keys hread hkeys).mono (fun vs _ h => ?_) fun e h => ?_)
  · rw [spec_pure, ← h]; rfl
  · rw [← h]; rfl

/-- In the snapshot of two leaves, deleting `b`, which is not there, returns false, and looking up
`m`, `a` and `b` afterwards still reads `[2]`, `[1]` and nothing. -/
theorem twoLeaves_delete_b_changes_no_lookup :
    Snapshot (twoLeavesView 1) 1 2 ∧ Reading (twoLeavesView 1) 1 2 twoLeavesLookup ∧
      storedValue sampleEnv ((twoLeavesView 1).leaves 1 2) [98] = .ok none ∧
      (∀ k ∈ ([[109], [97], [98]] : List (List UInt8)), k.length ≤ flintBtreeMaxKeyLen) ∧
      outcome ((do
          let b ← del [98]
          let vs ← [[109], [97], [98]].mapM (getExactEntry sampleEnv)
          pure (b, vs)) twoLeavesLookup) = .ok (false, [some [2], some [1], none]) := by
  have hk : ∀ k ∈ ([[109], [97], [98]] : List (List UInt8)), k.length ≤ flintBtreeMaxKeyLen := by
    decide
  have hb : storedValue sampleEnv ((twoLeavesView 1).leaves 1 2) [98] = .ok none := rfl
  exact ⟨twoLeaves_snapshot, twoLeavesLookup_reading, hb, hk,
    (deleting_absent_key_changes_no_lookup sampleEnv twoLeaves_snapshot twoLeavesLookup_reading hb
      hk).trans rfl⟩

end Delete

end FlintBtree
