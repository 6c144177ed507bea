import FlintBtree.Block

/-!
# Space accounting of a block

The header of a block promises a layout: the directory ends at `D = DIR_END`, the `MAX_FREE`
gap `M` follows it, every item lies above the gap and below the end of the block, no two items
share a byte, and `TOTAL_FREE = block_size - D - (bytes of the items)` with `M ≤ TOTAL_FREE`
(spec §3, "Item invariants").  `SpaceInv` is that promise.  Every block-local mutator keeps it:
`compact` (which also makes `M = T` and keeps the item sequence), `addItemToBlock` when the item
fits in `TOTAL_FREE`, `deleteSlot`, the two short replacements of `add_kt`, `nullFirstKey`, the
halves of a split and the two kinds of new block.

The argument for every mutator is the same: its new directory is a permutation of the old one
with one entry added, removed or exchanged, so the facts about the other entries carry over
(`Layout.perm`), and only the one entry needs a look.
-/

namespace FlintBtree

/-! ## Layouts -/

/-- Two directory entries do not share a byte. -/
def Apart (x y : Nat × Item) : Prop := x.1 + x.2.size ≤ y.1 ∨ y.1 + y.2.size ≤ x.1

theorem Apart.symm {x y : Nat × Item} (h : Apart x y) : Apart y x := Or.symm h

/-- The entries of `l` lie pairwise apart inside `[lo, hi)`. -/
def Layout (lo hi : Int) (l : List (Nat × Item)) : Prop :=
  (∀ e ∈ l, lo ≤ e.1 ∧ (e.1 : Int) + e.2.size ≤ hi) ∧ l.Pairwise Apart

theorem Layout.perm {lo hi : Int} {l l' : List (Nat × Item)} (h : List.Perm l l') :
    Layout lo hi l ↔ Layout lo hi l' := by
  simp only [Layout, h.mem_iff, h.pairwise_iff Apart.symm]

@[simp] theorem layout_nil (lo hi : Int) : Layout lo hi [] := by simp [Layout]

theorem layout_cons {lo hi : Int} {x : Nat × Item} {l : List (Nat × Item)} :
    Layout lo hi (x :: l) ↔
      (lo ≤ x.1 ∧ (x.1 : Int) + x.2.size ≤ hi) ∧ (∀ e ∈ l, Apart x e) ∧ Layout lo hi l := by
  simp only [Layout, List.mem_cons, forall_eq_or_imp, List.pairwise_cons]
  tauto

theorem Layout.mono {lo lo' hi hi' : Int} {l : List (Nat × Item)} (h : Layout lo hi l)
    (hlo : lo' ≤ lo) (hhi : hi ≤ hi') : Layout lo' hi' l :=
  ⟨fun e he => ⟨le_trans hlo (h.1 e he).1, le_trans (h.1 e he).2 hhi⟩, h.2⟩

/-- **The space invariant of a block**: the items lie pairwise apart between the end of the
`MAX_FREE` gap and the end of the block, `TOTAL_FREE` counts everything else, and the gap is
part of the free space. -/
structure SpaceInv (blockSize : Nat) (b : Block) : Prop where
  layout : Layout (b.dirEnd + b.maxFree) blockSize b.dir
  total : b.totalFree + b.dirEnd + b.used = blockSize
  maxFree_le : b.maxFree ≤ b.totalFree

/-- In a block of at most 64 KiB the header values fit their 16-bit fields. -/
theorem SpaceInv.fits {B : Nat} {b : Block} (h : SpaceInv B b) (hB : B ≤ 65536) :
    dirStart ≤ b.dirEnd ∧ b.dirEnd < 65536 ∧ b.maxFree ≤ b.totalFree ∧ b.totalFree < 65536 := by
  have := h.total; have := h.maxFree_le
  simp only [Block.dirEnd, dirStart, D2] at *
  omega

/-! ## 16-bit stores -/

theorem setint2_eq {x : Int} (h0 : 0 ≤ x) (h1 : x < 65536) : ((setint2 x : Nat) : Int) = x := by
  simp only [setint2, Int.emod_eq_of_lt h0 h1, Int.toNat_of_nonneg h0]

theorem setint2_eq_of {x : Int} {n : Nat} (hx : x = n) (h : n < 65536) : setint2 x = n := by
  subst hx
  simp only [setint2]
  rw [Int.emod_eq_of_lt (by omega) (by omega)]
  rfl

theorem setint2_natCast {n : Nat} (h : n < 65536) : setint2 n = n := by
  have := setint2_eq (x := n) (by omega) (by omega)
  omega

/-! ## Directory lists -/

section Dir

variable {l : List (Nat × Item)} {i : Nat}

theorem used_eq (b : Block) : b.used = (b.dir.map (·.2.size)).sum := by
  simp [Block.used, Block.items, Function.comp_def]

theorem sum_size_perm {l l' : List (Nat × Item)} (h : List.Perm l l') :
    (l.map (·.2.size)).sum = (l'.map (·.2.size)).sum :=
  (h.map _).sum_eq

/-- Opening a slot at `i` is a permutation of putting the entry in front. -/
theorem insert_perm (x : Nat × Item) : List.Perm (l.take i ++ x :: l.drop i) (x :: l) := by
  have h := @List.perm_middle _ x (l.take i) (l.drop i)
  rwa [List.take_append_drop] at h

/-- Closing slot `i < length` is a permutation of taking its entry out. -/
theorem remove_perm (h : i < l.length) :
    List.Perm l (l[i] :: (l.take i ++ l.drop (i + 1))) := by
  conv_lhs => rw [← List.take_append_drop i l, List.drop_eq_getElem_cons h]
  exact List.perm_middle

theorem set_perm (h : i < l.length) (x : Nat × Item) :
    List.Perm (l.set i x) (x :: (l.take i ++ l.drop (i + 1))) := by
  rw [List.set_eq_take_append_cons_drop, if_pos h]
  exact List.perm_middle

end Dir

/-! ## Compaction -/

theorem compactDir_fst (e : Int) (l : List (Nat × Item)) :
    (compactDir e l).1 = e - (l.map (·.2.size)).sum := by
  induction l generalizing e with
  | nil => simp [compactDir]
  | cons x l ih => simp only [compactDir, ih, List.map_cons, List.sum_cons]; push_cast; omega

theorem compactDir_items (e : Int) (l : List (Nat × Item)) :
    (compactDir e l).2.map (·.2) = l.map (·.2) := by
  induction l generalizing e with
  | nil => rfl
  | cons x l ih => simp [compactDir, ih]

theorem compactDir_length (e : Int) (l : List (Nat × Item)) :
    (compactDir e l).2.length = l.length := by
  simpa using congrArg List.length (compactDir_items e l)

/-- `compact`'s loop lays the items out without gaps, downwards from `e`. -/
theorem compactDir_layout (e : Int) (l : List (Nat × Item)) (h0 : 0 ≤ (compactDir e l).1)
    (h1 : e ≤ 65536) : Layout (compactDir e l).1 e (compactDir e l).2 := by
  induction l generalizing e with
  | nil => simp [compactDir]
  | cons x l ih =>
    obtain ⟨o, it⟩ := x
    have hfst := compactDir_fst (e - it.size) l
    simp only [compactDir] at h0 ⊢
    have hsum : (0 : Int) ≤ (l.map (·.2.size)).sum := by omega
    have h3 := it.three_le_size
    have ho : ((setint2 (e - it.size) : Nat) : Int) = e - it.size :=
      setint2_eq (by omega) (by omega)
    refine layout_cons.2 ⟨⟨by omega, by simp only [ho]; omega⟩, fun e' he' => ?_, ?_⟩
    · have := ((ih _ h0 (by omega)).1 e' he').2
      exact Or.inr (by simp only at ho ⊢; omega)
    · exact (ih _ h0 (by omega)).mono le_rfl (by omega)


/-! ## Compaction keeps the items and lays them out -/

section Compact

variable {B : Nat} {p : Block}

@[simp] theorem compact_items : (compact B p).items = p.items := by
  simp [compact, Block.items, compactDir_items]

@[simp] theorem compact_dirEnd : (compact B p).dirEnd = p.dirEnd := by
  simp [compact, Block.dirEnd, compactDir_length]

@[simp] theorem compact_used : (compact B p).used = p.used := by
  simp [Block.used]

@[simp] theorem compact_revision : (compact B p).revision = p.revision := rfl

@[simp] theorem compact_level : (compact B p).level = p.level := rfl

theorem compact_maxFree : (compact B p).maxFree = (compact B p).totalFree := rfl

theorem compact_totalFree (h : p.dirEnd + p.used ≤ B) (hB : B ≤ 65536) :
    (compact B p).totalFree = B - p.dirEnd - p.used := by
  have hfst := compactDir_fst B p.dir
  rw [← used_eq] at hfst
  have : 11 ≤ p.dirEnd := by simp [Block.dirEnd, dirStart]
  have := setint2_eq (x := (compactDir B p.dir).1 - p.dirEnd) (by omega) (by omega)
  simp only [compact]
  omega

/-- **`compact` lays out any block whose directory and items fit**, with `MAX_FREE = TOTAL_FREE`
and the items in the same order. -/
theorem spaceInv_compact (h : p.dirEnd + p.used ≤ B) (hB : B ≤ 65536) :
    SpaceInv B (compact B p) := by
  have hT := compact_totalFree h hB
  have hfst := compactDir_fst B p.dir
  rw [← used_eq] at hfst
  refine ⟨?_, by simp only [compact_dirEnd, compact_used]; omega, le_of_eq compact_maxFree⟩
  have hl := compactDir_layout (B : Int) p.dir (by omega) (by omega)
  rw [compact_maxFree, hT, compact_dirEnd]
  refine hl.mono (by omega) le_rfl

end Compact

/-! ## The mutators -/

section Mutators

variable {B : Nat} {p : Block} {c : Int} {kt : Item}

theorem itemAt_eq (h : slotIndex c < p.dir.length) : p.itemAt c = p.dir[slotIndex c].2 := by
  simp [Block.itemAt, List.getElem?_eq_getElem h]

theorem dirEnd_insertSlot (e : Nat × Item) : (p.insertSlot c e).dirEnd = p.dirEnd + D2 := by
  simp only [Block.insertSlot, Block.dirEnd, List.length_append, List.length_take,
    List.length_cons, List.length_drop, D2]
  omega

theorem dirEnd_removeSlot (h : slotIndex c < p.dir.length) :
    (p.removeSlot c).dirEnd + D2 = p.dirEnd := by
  simp only [Block.removeSlot, Block.dirEnd, List.length_append, List.length_take,
    List.length_drop, D2]
  omega

@[simp] theorem dirEnd_setSlot (e : Nat × Item) : (p.setSlot c e).dirEnd = p.dirEnd := by
  simp [Block.setSlot, Block.dirEnd]

/-- `add_item_to_block` first makes room in the gap: after the optional `compact`, the block
still has the invariant, the same directory, free space and items, and a gap of `needed`. -/
theorem makeRoom_spec (h : SpaceInv B p) (hB : B ≤ 65536) (hroom : kt.size + D2 ≤ p.totalFree) :
    let q := makeRoom B p (kt.size + D2)
    SpaceInv B q ∧ q.dirEnd = p.dirEnd ∧ q.totalFree = p.totalFree ∧ q.used = p.used ∧
      q.items = p.items ∧ kt.size + D2 ≤ q.maxFree := by
  have ht := h.total
  unfold makeRoom
  split
  · have hfit : p.dirEnd + p.used ≤ B := by omega
    refine ⟨spaceInv_compact hfit hB, compact_dirEnd, by rw [compact_totalFree hfit hB]; omega,
      compact_used, compact_items, ?_⟩
    rw [compact_maxFree, compact_totalFree hfit hB]; omega
  · exact ⟨h, rfl, rfl, rfl, rfl, by omega⟩

/-- **`add_item_to_block` keeps the invariant** when the item and its slot fit in
`TOTAL_FREE`, the precondition `add_item` checks before it calls it. -/
theorem spaceInv_addItemToBlock (h : SpaceInv B p) (hB : B ≤ 65536)
    (hroom : kt.size + D2 ≤ p.totalFree) : SpaceInv B (addItemToBlock B p kt c) := by
  obtain ⟨hq, hqD, hqT, hqU, -, hqM⟩ := makeRoom_spec h hB hroom
  simp only [addItemToBlock]
  generalize makeRoom B p (kt.size + D2) = q at hq hqD hqT hqU hqM ⊢
  generalize ho : setint2 ((q.dirEnd : Int) + D2 + ((q.maxFree : Int) - (kt.size + D2))) = o
  have hqt := hq.total
  have hqm := hq.maxFree_le
  have h3 := kt.three_le_size
  have hD : 11 ≤ q.dirEnd := by simp [Block.dirEnd, dirStart]
  have hM := setint2_eq (x := (q.maxFree : Int) - (kt.size + D2)) (by omega) (by omega)
  have hT := setint2_eq (x := (p.totalFree : Int) - (kt.size + D2)) (by omega) (by omega)
  have ho' := setint2_eq (x := (q.dirEnd : Int) + D2 + ((q.maxFree : Int) - (kt.size + D2)))
    (by omega) (by simp only [D2] at *; omega)
  rw [ho] at ho'
  have hperm := insert_perm (l := q.dir) (i := slotIndex c) (o, kt)
  have hU : (q.insertSlot c (o, kt)).used = q.used + kt.size := by
    rw [used_eq, used_eq, Block.insertSlot, sum_size_perm hperm]
    simp only [List.map_cons, List.sum_cons]; omega
  have hDi := dirEnd_insertSlot (p := q) (c := c) (o, kt)
  refine ⟨?_, ?_, ?_⟩
  · show Layout ((q.insertSlot c (o, kt)).dirEnd + _) _ (q.insertSlot c (o, kt)).dir
    rw [hDi, Block.insertSlot, Layout.perm hperm, layout_cons]
    refine ⟨⟨by simp only [D2] at *; omega, by simp only [D2] at *; omega⟩,
      fun e he => Or.inl ?_, hq.layout.mono (by simp only [D2] at *; omega) le_rfl⟩
    have := (hq.layout.1 e he).1
    simp only [D2] at *; omega
  · show _ + (q.insertSlot c (o, kt)).dirEnd + (q.insertSlot c (o, kt)).used = B
    rw [hU, hDi]; simp only [D2] at *; omega
  · show setint2 _ ≤ setint2 _
    simp only [D2] at *; omega

/-- `delete_item`'s slot removal keeps the invariant. -/
theorem spaceInv_deleteSlot (h : SpaceInv B p) (hB : B ≤ 65536)
    (hc : slotIndex c < p.dir.length) : SpaceInv B (deleteSlot p c) := by
  have hperm := remove_perm hc
  have hdE := dirEnd_removeSlot (p := p) hc
  have ht := h.total
  have hm := h.maxFree_le
  have hU : p.used = (p.removeSlot c).used + (p.itemAt c).size := by
    rw [used_eq, used_eq, sum_size_perm hperm, itemAt_eq hc]
    simp only [Block.removeSlot, List.map_cons, List.sum_cons]; omega
  have hpos : 13 ≤ p.dirEnd := by
    simp only [Block.dirEnd, dirStart, D2]; omega
  have hM : (deleteSlot p c).maxFree = p.maxFree + D2 := by
    simp only [deleteSlot]; exact setint2_eq_of (by push_cast; rfl) (by simp only [D2] at *; omega)
  have hT : (deleteSlot p c).totalFree = p.totalFree + (p.itemAt c).size + D2 := by
    simp only [deleteSlot]; exact setint2_eq_of (by push_cast; rfl) (by simp only [D2] at *; omega)
  have hD : (deleteSlot p c).dirEnd = (p.removeSlot c).dirEnd := rfl
  have hUd : (deleteSlot p c).used = (p.removeSlot c).used := rfl
  refine ⟨?_, by rw [hT, hD, hUd]; omega, by rw [hM, hT]; omega⟩
  rw [hM, hD]
  exact (layout_cons.1 ((Layout.perm hperm).1 h.layout)).2.2.mono (by push_cast; omega) le_rfl

/-- Exchanging the entry of slot `c` for `x` keeps the layout when `x` sits inside the bytes
the old entry took. -/
theorem layout_setSlot {lo hi : Int} (hl : Layout lo hi p.dir) (hc : slotIndex c < p.dir.length)
    {x : Nat × Item} (hlo : p.dir[slotIndex c].1 ≤ x.1)
    (hhi : x.1 + x.2.size ≤ p.dir[slotIndex c].1 + p.dir[slotIndex c].2.size) :
    Layout lo hi (p.setSlot c x).dir := by
  obtain ⟨⟨hy1, hy2⟩, happ, hrest⟩ := layout_cons.1 ((Layout.perm (remove_perm hc)).1 hl)
  rw [Block.setSlot, Layout.perm (set_perm hc x), layout_cons]
  refine ⟨⟨by omega, by omega⟩, fun e he => ?_, hrest⟩
  rcases happ e he with h1 | h1
  · exact Or.inl (by omega)
  · exact Or.inr (by omega)

theorem size_le_used (hc : slotIndex c < p.dir.length) : p.dir[slotIndex c].2.size ≤ p.used := by
  rw [used_eq, sum_size_perm (remove_perm hc)]
  simp

theorem used_setSlot (hc : slotIndex c < p.dir.length) (x : Nat × Item) :
    (p.setSlot c x).used + p.dir[slotIndex c].2.size = p.used + x.2.size := by
  rw [used_eq, used_eq, Block.setSlot, sum_size_perm (set_perm hc x),
    sum_size_perm (remove_perm hc)]
  simp only [List.map_cons, List.sum_cons]; omega

/-- `add_kt`'s simple replacement keeps the invariant: the new item is no longer than the one
it overwrites. -/
theorem spaceInv_replaceInPlace (h : SpaceInv B p) (hB : B ≤ 65536)
    (hc : slotIndex c < p.dir.length) (hle : kt.size ≤ (p.itemAt c).size) :
    SpaceInv B (replaceInPlace p c kt) := by
  rw [itemAt_eq hc] at hle
  have ht := h.total
  have hm := h.maxFree_le
  have hD : 11 ≤ p.dirEnd := by simp [Block.dirEnd, dirStart]
  have hsz := size_le_used hc
  have hT : (replaceInPlace p c kt).totalFree =
      p.totalFree + (p.dir[slotIndex c].2.size - kt.size) := by
    simp only [replaceInPlace]; exact setint2_eq_of (by rw [itemAt_eq hc]; omega) (by omega)
  have hx : (p.dir.getD (slotIndex c) (0, default)).1 = p.dir[slotIndex c].1 := by
    simp [List.getElem?_eq_getElem hc]
  have hU := used_setSlot hc ((p.dir.getD (slotIndex c) (0, default)).1, kt)
  have hDs : (replaceInPlace p c kt).dirEnd = p.dirEnd := dirEnd_setSlot _
  have hUs : (replaceInPlace p c kt).used = (p.setSlot c (p.dir[slotIndex c].1, kt)).used := by
    rw [← hx]; rfl
  rw [hx] at hU
  refine ⟨?_, by rw [hT, hDs, hUs]; simp only at hU; omega, by rw [hT]; exact le_trans hm (by omega)⟩
  rw [hDs]
  show Layout (p.dirEnd + p.maxFree) B (p.setSlot c (_, kt)).dir
  rw [hx]
  exact layout_setSlot h.layout hc le_rfl (by simp only; omega)

/-- `add_kt`'s second replacement keeps the invariant when the new item fits in the
`MAX_FREE` gap, the condition of its branch. -/
theorem spaceInv_replaceIntoMaxFree (h : SpaceInv B p) (hB : B ≤ 65536)
    (hc : slotIndex c < p.dir.length) (hfit : kt.size ≤ p.maxFree) :
    SpaceInv B (replaceIntoMaxFree p c kt) := by
  have ht := h.total
  have hm := h.maxFree_le
  have hD : 11 ≤ p.dirEnd := by simp [Block.dirEnd, dirStart]
  have hdir := h.layout.1 _ (List.getElem_mem hc)
  have hsz := size_le_used hc
  have h3 := (p.dir[slotIndex c].2).three_le_size
  have hM : (replaceIntoMaxFree p c kt).maxFree = p.maxFree - kt.size := by
    simp only [replaceIntoMaxFree]; exact setint2_eq_of (by omega) (by omega)
  have hT : (replaceIntoMaxFree p c kt).totalFree =
      p.totalFree + p.dir[slotIndex c].2.size - kt.size := by
    simp only [replaceIntoMaxFree]
    exact setint2_eq_of (by rw [itemAt_eq hc]; omega) (by omega)
  have hO : setint2 ((p.dirEnd : Int) + ((p.maxFree : Int) - kt.size)) =
      p.dirEnd + (p.maxFree - kt.size) := setint2_eq_of (by omega) (by omega)
  have hU := used_setSlot hc (p.dirEnd + (p.maxFree - kt.size), kt)
  have hDs : (replaceIntoMaxFree p c kt).dirEnd = p.dirEnd := dirEnd_setSlot _
  have hUs : (replaceIntoMaxFree p c kt).used =
      (p.setSlot c (p.dirEnd + (p.maxFree - kt.size), kt)).used := by
    rw [← hO]; rfl
  obtain ⟨-, -, hrest⟩ := layout_cons.1 ((Layout.perm (remove_perm hc)).1 h.layout)
  refine ⟨?_, by rw [hT, hDs, hUs]; simp only at hU; omega, by rw [hM, hT]; omega⟩
  rw [hDs, hM]
  show Layout _ B (p.setSlot c (setint2 _, kt)).dir
  rw [hO, Block.setSlot, Layout.perm (set_perm hc _), layout_cons]
  refine ⟨⟨by push_cast; omega, by push_cast; omega⟩, fun e he => Or.inl ?_,
    hrest.mono (by omega) le_rfl⟩
  have := (hrest.1 e he).1
  simp only; omega

/-- `enter_key`'s null-key rewrite keeps the invariant: the first item is a separator with a
key, and the null item is `newkey_len + C2` bytes shorter. -/
theorem spaceInv_nullFirstKey (h : SpaceInv B p) (hB : B ≤ 65536) (hne : 0 < p.dir.length)
    {k : Key} {n : Nat} (hk : p.dir[0].2 = ⟨some k, .child n⟩) :
    SpaceInv B (nullFirstKey p) := by
  have hc : slotIndex dirStart < p.dir.length := by simpa [slotIndex, dirStart] using hne
  have hi : slotIndex dirStart = 0 := by simp [slotIndex, dirStart]
  have ht := h.total
  have hm := h.maxFree_le
  have hsz := size_le_used hc
  have hD : 11 ≤ p.dirEnd := by simp [Block.dirEnd, dirStart]
  have hold : p.dir[slotIndex dirStart].2.size = k.body.length + 9 := by
    simp only [hi, hk, Item.size, I2, K1, C2, bytesPerBlockNumber]; omega
  have hT : (nullFirstKey p).totalFree = p.totalFree + (k.body.length + C2) := by
    simp only [nullFirstKey]
    exact setint2_eq_of (by simp [itemAt_eq hc, hi, hk, Item.keyOf]) (by simp only [C2]; omega)
  have hx : (p.dir.getD 0 (0, default)).1 = p.dir[slotIndex dirStart].1 := by
    simp [hi, List.getElem?_eq_getElem hne]
  generalize hy : (p.dir.getD 0 (0, default)).1 = y at hx
  have hU := used_setSlot hc (y, Item.formNullKey (p.itemAt dirStart).blockGivenBy)
  have hDs : (nullFirstKey p).dirEnd = p.dirEnd := dirEnd_setSlot _
  have hUs : (nullFirstKey p).used =
      (p.setSlot dirStart (y, Item.formNullKey (p.itemAt dirStart).blockGivenBy)).used := by
    rw [← hy]; rfl
  have hMs : (nullFirstKey p).maxFree = p.maxFree := rfl
  simp only [Item.size_formNullKey] at hU
  refine ⟨?_, by rw [hT, hDs, hUs]; simp only [C2]; omega, by rw [hT, hMs]; omega⟩
  rw [hDs]
  show Layout _ B (p.setSlot dirStart (_, _)).dir
  rw [hy]
  exact layout_setSlot h.layout hc (by simp only; omega) (by simp only [Item.size_formNullKey]; omega)

theorem used_take_add_used_drop (l : List (Nat × Item)) (i : Nat) :
    ((l.take i).map (·.2.size)).sum + ((l.drop i).map (·.2.size)).sum = (l.map (·.2.size)).sum := by
  rw [← List.sum_append, ← List.map_append, List.take_append_drop]

/-- The lower half of a split is laid out afresh by `compact`. -/
theorem spaceInv_lowerHalf (h : SpaceInv B p) (hB : B ≤ 65536) (m : Int) :
    SpaceInv B (lowerHalf B p m) := by
  have ht := h.total
  have hs := used_take_add_used_drop p.dir (slotIndex m)
  rw [← used_eq] at hs
  refine spaceInv_compact ?_ hB
  simp only [used_eq, Block.dirEnd, List.length_take, D2] at ht hs ⊢
  omega

/-- The upper half of a split is laid out afresh by `compact`. -/
theorem spaceInv_upperHalf (h : SpaceInv B p) (hB : B ≤ 65536) (m : Int) :
    SpaceInv B (upperHalf B p m) := by
  have ht := h.total
  have hs := used_take_add_used_drop p.dir (slotIndex m)
  rw [← used_eq] at hs
  refine spaceInv_compact ?_ hB
  simp only [used_eq, Block.dirEnd, List.length_drop, D2] at ht hs ⊢
  omega

@[simp] theorem lowerHalf_items (m : Int) :
    (lowerHalf B p m).items = p.items.take (slotIndex m) := by
  rw [lowerHalf, compact_items]; simp [Block.items, List.map_take]

@[simp] theorem upperHalf_items (m : Int) :
    (upperHalf B p m).items = p.items.drop (slotIndex m) := by
  rw [upperHalf, compact_items]; simp [Block.items, List.map_drop]

/-- `read_root`'s faked root satisfies the invariant in every block `set_block_size` allows. -/
theorem spaceInv_fakeRoot (rev : Nat) (h20 : 20 ≤ B) (hB : B ≤ 65536) :
    SpaceInv B (fakeRoot B rev) := by
  have hM : (fakeRoot B rev).maxFree = B - 20 := by
    simp only [fakeRoot]; exact setint2_eq_of (by simp only [I2, K1, C2, dirStart, D2]; omega) (by omega)
  have hT : (fakeRoot B rev).totalFree = B - 20 := by
    simp only [fakeRoot]; exact setint2_eq_of (by simp only [I2, K1, C2, dirStart, D2]; omega) (by omega)
  have hO : setint2 ((B : Int) - I2 - K1 - C2 - C2) = B - 7 :=
    setint2_eq_of (by simp only [I2, K1, C2]; omega) (by omega)
  refine ⟨?_, ?_, by rw [hM, hT]⟩
  · rw [hM]
    simp only [fakeRoot, hO, Block.dirEnd, List.length_singleton, layout_cons, List.not_mem_nil,
      IsEmpty.forall_iff, implies_true, layout_nil, and_true, Item.size_fakeRootItem, dirStart, D2]
    omega
  · rw [hT]
    simp only [fakeRoot, Block.dirEnd, Block.used, Block.items, List.length_singleton, List.map,
      Item.size_fakeRootItem, List.sum_cons, List.sum_nil, dirStart, D2]
    omega

/-- `split_root`'s new root, before its first item, satisfies the invariant. -/
theorem spaceInv_emptyRoot (rev level : Nat) (h11 : 11 ≤ B) (hB : B ≤ 65536) :
    SpaceInv B (emptyRoot B rev level) :=
  spaceInv_compact (by simp [Block.dirEnd, Block.used, Block.items, dirStart, h11]) hB

end Mutators

end FlintBtree
