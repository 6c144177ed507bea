import FlintBtree.Scan
import FlintBtree.Search

/-!
# Finding a key

`find(C_)` descends from the root that the top level of cursor `C_` holds down to a leaf: at each
branch level `find_in_block` picks the last entry whose separator is at most the key, and
`block_to_cursor` loads that entry's child one level down.  At the leaf `find_in_block` picks the
last item whose key is at most the key, and `find` says whether that item has the key.

## Main Definitions

* `View.Routes` — the descent for a key has reached a block of a level: the key lies in the
  block's bounds, the leaves left of it are below the key and those right of it above.
* `View.FindReady` — a level of a cursor that `find` can start from, whatever it held before.
* `View.FindsKey` — where `find` leaves the cursor, and what its answer means.

## Main Results

* `ChildrenOk.route` — one level of the descent, on the entries of a branch block.
* `blockToCursor_ready` — `block_to_cursor` from any level `find` can start from.
* `findLoop_spec` — the descent from level `j` keeps the split of the leaves at the block it
  reaches.

## Design Notes

The descent is stated by positions, as for `next_default`: the block the cursor holds at level `j`
is at position `q` of the level, and the leaf items split into those under the blocks before `q`,
under the block, and under the blocks after it.  The split is what `find` carries down, after the
routing argument for branch blocks: the separator of entry `i` is at most the key and that of
entry `i + 1` above it, so the leaves under the entries before `i` are below the key and those
under the entries after `i` above it.
-/

namespace FlintBtree

open Block

/-! ## Routing in a tree with the invariant -/

section Route

variable {v : View}

/-- The entries of a branch block with the invariant cover a non-empty range of keys when each
child does. -/
theorem ChildrenOk.exists_inBounds {P : Option Key → Option Key → Nat → Prop}
    (hP : ∀ lo hi n, P lo hi n → ∃ k, InBounds lo hi k) :
    ∀ {lo hi : Option Key} {l : List Item}, ChildrenOk P lo hi l → ∃ k, InBounds lo hi k
  | _, _, [], h => h.elim
  | _, _, [_], h => hP _ _ _ h
  | _, _, _ :: _ :: _, ⟨h, hs, _⟩ => by
    obtain ⟨k, hk⟩ := hP _ _ _ h
    rw [inBounds_iff] at hk hs
    exact ⟨k, inBounds_iff.2 ⟨hk.1, fun x hx => lt_trans (hk.2 _ rfl) (hs.2 x hx)⟩⟩

/-- A subtree with the invariant has a leaf item, so its bounds leave room for a key. -/
theorem Subtree.exists_inBounds : ∀ {j : Nat} {lo hi : Option Key} {n : Nat},
    Subtree v j lo hi n → ∃ k, InBounds lo hi k
  | 0, _, _, _, ⟨b, _, _, hne, _, hin⟩ => by
    obtain ⟨e, he⟩ := List.exists_mem_of_ne_nil _ hne
    exact ⟨e.2.keyOf, hin _ (List.mem_map_of_mem _ he)⟩
  | _ + 1, _, _, _, ⟨_, _, _, hc⟩ => hc.exists_inBounds fun _ _ _ h => Subtree.exists_inBounds h

/-- **The separators of a branch block with the invariant increase strictly** and lie in its
bounds: each opens the non-empty range of a child. -/
theorem ChildrenOk.separators {P : Option Key → Option Key → Nat → Prop}
    (hP : ∀ lo hi n, P lo hi n → ∃ k, InBounds lo hi k) :
    ∀ {lo hi : Option Key} {l : List Item}, ChildrenOk P lo hi l →
      ((l.drop 1).map Item.keyOf).Pairwise (fun a b => a.rank < b.rank) ∧
        ∀ s ∈ (l.drop 1).map Item.keyOf, InBounds lo hi s
  | _, _, [], h => h.elim
  | _, _, [_], _ => by simp
  | _, _, _ :: it' :: rest, ⟨_, hs, hr⟩ => by
    obtain ⟨ihs, ihb⟩ := ChildrenOk.separators hP hr
    -- the entry after `it'` opens above the range of `it'`'s child, which starts at `it'`
    have hfirst : ∀ s ∈ rest.map Item.keyOf, it'.keyOf.rank < s.rank := by
      match rest, hr with
      | [], _ => simp
      | it'' :: rest', ⟨h', _, _⟩ =>
        obtain ⟨k, hk⟩ := hP _ _ _ h'
        simp only [inBounds_iff, Option.mem_def, Option.some.injEq, forall_eq'] at hk
        have hlt : it'.keyOf.rank < it''.keyOf.rank := lt_of_le_of_lt hk.1 hk.2
        simp only [List.drop_one, List.tail_cons, List.map_cons, List.pairwise_cons] at ihs
        simp only [List.map_cons, List.mem_cons, forall_eq_or_imp]
        exact ⟨hlt, fun s hsm => lt_trans hlt (ihs.1 s hsm)⟩
    simp only [List.drop_one, List.tail_cons] at ihs ihb
    simp only [List.drop_one, List.tail_cons, List.map_cons, List.pairwise_cons, List.mem_cons,
      forall_eq_or_imp]
    rw [inBounds_iff] at hs
    refine ⟨⟨hfirst, ihs⟩, inBounds_iff.2 hs, fun s hsm => ?_⟩
    have := inBounds_iff.1 (ihb s hsm)
    simp only [Option.mem_def, Option.some.injEq, forall_eq'] at this
    exact inBounds_iff.2 ⟨fun l hl => (hs.1 l hl).trans this.1, this.2⟩

/-- **One level of the descent.**  In a branch block whose entries route `[lo, hi)`, with `key`
in `[lo, hi)`, take entry `i`: the separators of entries `1 .. i` are at most `key` and those
after above it.  The child of entry `i` is a subtree whose bounds hold `key`, the leaves under the
entries before it are below `key`, and those under the entries after it above. -/
theorem ChildrenOk.route {j : Nat} {key : Key} :
    ∀ {lo hi : Option Key} {l : List Item} (i : Nat), ChildrenOk (Subtree v j) lo hi l →
      InBounds lo hi key → i < l.length →
      (∀ k (h : k < l.length), 1 ≤ k → (l[k].keyOf.le key = true ↔ k ≤ i)) →
      ∃ it, l[i]? = some it ∧ ∃ lo' hi', Subtree v j lo' hi' it.blockGivenBy ∧
        InBounds lo' hi' key ∧
        (∀ e ∈ (l.take i).flatMap (fun it => v.leaves j it.blockGivenBy), e.keyOf.lt key = true) ∧
        ∀ f ∈ (l.drop (i + 1)).flatMap (fun it => v.leaves j it.blockGivenBy),
          key.lt f.keyOf = true
  | _, _, [], _, h, _, _, _ => h.elim
  | lo, hi, [it], i, h, hk, hil, _ => by
    obtain rfl : i = 0 := by simp only [List.length_singleton] at hil; omega
    exact ⟨it, rfl, lo, hi, h, hk, by simp, by simp⟩
  | lo, hi, it :: it' :: rest, i, ⟨h0, hs, hr⟩, hk, hil, hcut => by
    have h1 := hcut 1 (by simp) le_rfl
    simp only [List.getElem_cons_succ, List.getElem_cons_zero] at h1
    rw [inBounds_iff] at hk
    cases i with
    | zero =>
      -- the second separator is above `key`: the first child
      have hlt : key.rank < it'.keyOf.rank := by
        rw [← not_le, ← Key.le_iff_rank_le, h1]; omega
      refine ⟨it, rfl, lo, some it'.keyOf, h0, inBounds_iff.2 ⟨hk.1, by simpa using hlt⟩,
        by simp, fun f hf => ?_⟩
      have hf' := (ChildrenOk.sortedIn (fun _ _ _ h => Subtree.sorted h) hr).2 f (by simpa using hf)
      simp only [inBounds_iff, Option.mem_def, Option.some.injEq, forall_eq'] at hf'
      exact (Key.lt_iff_rank_lt _ _).2 (lt_of_lt_of_le hlt hf'.1)
    | succ i =>
      have hle : it'.keyOf.rank ≤ key.rank := (Key.le_iff_rank_le _ _).1 (h1.2 (by omega))
      obtain ⟨c, hc, lo', hi', hsub, hk', hpre, hpost⟩ := ChildrenOk.route i hr
        (inBounds_iff.2 ⟨by simpa using hle, hk.2⟩) (by simpa using hil)
        fun k h hk1 => by simpa using hcut (k + 1) (by simpa using h) (by omega)
      refine ⟨c, by simpa using hc, lo', hi', hsub, hk', fun e he => ?_, by simpa using hpost⟩
      simp only [List.take_succ_cons, List.flatMap_cons, List.mem_append] at he
      rcases he with he | he
      · -- under the first child, below the second separator
        have he' := (Subtree.sorted h0).2 e he
        simp only [inBounds_iff, Option.mem_def, Option.some.injEq, forall_eq'] at he'
        exact (Key.lt_iff_rank_lt _ _).2 (lt_of_lt_of_le he'.2 hle)
      · exact hpre e he

end Route

/-! ## The descent by positions -/

/-- The first `q` parts of a concatenation and `i` elements of the next. -/
theorem take_flatMap_start {α β : Type} (l : List α) (f : α → List β) {q : Nat} {a : α}
    (hq : l[q]? = some a) {i : Nat} (hi : i ≤ (f a).length) :
    (l.flatMap f).take (((l.take q).map fun x => (f x).length).sum + i) =
      (l.take q).flatMap f ++ (f a).take i := by
  induction l generalizing q with
  | nil => simp at hq
  | cons x l ih =>
    cases q with
    | zero =>
      simp only [List.getElem?_cons_zero, Option.some.injEq] at hq
      subst hq
      simp [List.take_append_of_le_length hi]
    | succ q =>
      simp only [List.getElem?_cons_succ] at hq
      simp only [List.flatMap_cons, List.take_succ_cons, List.map_cons, List.sum_cons,
        Nat.add_assoc, List.take_append, ih hq, List.append_assoc]

/-- What follows the first `q` parts of a concatenation and `i` elements of the next. -/
theorem drop_flatMap_start {α β : Type} (l : List α) (f : α → List β) {q : Nat} {a : α}
    (hq : l[q]? = some a) {i : Nat} (hi : i ≤ (f a).length) :
    (l.flatMap f).drop (((l.take q).map fun x => (f x).length).sum + i) =
      (f a).drop i ++ (l.drop (q + 1)).flatMap f := by
  induction l generalizing q with
  | nil => simp at hq
  | cons x l ih =>
    cases q with
    | zero =>
      simp only [List.getElem?_cons_zero, Option.some.injEq] at hq
      subst hq
      simp [List.drop_append_of_le_length hi]
    | succ q =>
      simp only [List.getElem?_cons_succ] at hq
      simp only [List.flatMap_cons, List.take_succ_cons, List.map_cons, List.sum_cons,
        Nat.add_assoc, List.drop_append, ih hq, List.drop_succ_cons]

namespace View

variable (v : View)

/-- The descent of `find` for `key` has reached position `q` of level `j`: the block there is a
subtree whose bounds hold `key`, the leaf items under the blocks before it are below `key`, and
those under the blocks after it above. -/
def Routes (L R : Nat) (key : Key) (j q : Nat) : Prop :=
  ∃ n lo hi, (v.blocksAt L R j)[q]? = some n ∧ Subtree v j lo hi n ∧ InBounds lo hi key ∧
    (∀ e ∈ ((v.blocksAt L R j).take q).flatMap (v.leaves j), e.keyOf.lt key = true) ∧
    ∀ f ∈ ((v.blocksAt L R j).drop (q + 1)).flatMap (v.leaves j), key.lt f.keyOf = true

variable {v}

/-- The descent starts at the root, whose bounds hold every key. -/
theorem routes_top {L R : Nat} (h : Subtree v L none none R) (key : Key) :
    v.Routes L R key L 0 :=
  ⟨R, none, none, by simp, h, ⟨by simp, by simp⟩, by simp, by simp⟩

/-- The leaf items under the first `q` blocks of level `j + 1` and the first `i` entries of the
next are those under the first `start + i` blocks of level `j`. -/
theorem take_blocksAt_succ {L R j q n : Nat} {b : Block} (hj : j < L)
    (hq : (v.blocksAt L R (j + 1))[q]? = some n) (hb : v (j + 1) n = some b) {i : Nat}
    (hi : i ≤ b.dir.length) :
    ((v.blocksAt L R j).take (v.start L R (j + 1) q + i)).flatMap (v.leaves j) =
      ((v.blocksAt L R (j + 1)).take q).flatMap (v.leaves (j + 1)) ++
        (b.items.take i).flatMap fun it => v.leaves j it.blockGivenBy := by
  have hw : ∀ m, v.width (j + 1) m = (v.children (j + 1) m).length := fun m => by simp
  rw [v.blocksAt_succ hj, start, List.map_congr_left fun m _ => hw m,
    take_flatMap_start _ _ hq (by simp [View.children, hb, Block.items, hi])]
  simp [List.flatMap_append, List.flatMap_assoc, View.leaves, View.children, hb, ← List.map_take, List.flatMap_map]

/-- The leaf items under the entries after the first `i` of a block at position `q` of level
`j + 1`, and under the blocks after it, are those under the blocks of level `j` after
`start + i`. -/
theorem drop_blocksAt_succ {L R j q n : Nat} {b : Block} (hj : j < L)
    (hq : (v.blocksAt L R (j + 1))[q]? = some n) (hb : v (j + 1) n = some b) {i : Nat}
    (hi : i < b.dir.length) :
    ((v.blocksAt L R j).drop (v.start L R (j + 1) q + i + 1)).flatMap (v.leaves j) =
      (b.items.drop (i + 1)).flatMap (fun it => v.leaves j it.blockGivenBy) ++
        ((v.blocksAt L R (j + 1)).drop (q + 1)).flatMap (v.leaves (j + 1)) := by
  have hw : ∀ m, v.width (j + 1) m = (v.children (j + 1) m).length := fun m => by simp
  rw [v.blocksAt_succ hj, start, List.map_congr_left fun m _ => hw m, Nat.add_assoc,
    drop_flatMap_start _ _ hq (by simp [View.children, hb, Block.items]; omega)]
  simp [List.flatMap_append, List.flatMap_assoc, View.leaves, View.children, hb, ← List.map_drop, List.flatMap_map]

/-- **One level of the descent, by positions.**  At position `q` of level `j + 1`, entry `i`,
the last whose separator is at most `key`, routes to position `start + i` of level `j`, where its
child is. -/
theorem Routes.step {L R : Nat} {key : Key} {j q n : Nat} {b : Block} (hj : j < L)
    (hr : v.Routes L R key (j + 1) q) (hq : (v.blocksAt L R (j + 1))[q]? = some n)
    (hb : v (j + 1) n = some b) {i : Nat} (hi : i < b.dir.length)
    (hcut : ∀ k (h : k < b.dir.length), 1 ≤ k → (b.dir[k].2.keyOf.le key = true ↔ k ≤ i)) :
    (v.blocksAt L R j)[v.start L R (j + 1) q + i]? = some (b.itemAt (slotOf i)).blockGivenBy ∧
      v.Routes L R key j (v.start L R (j + 1) q + i) := by
  obtain ⟨n', lo, hi₀, hq', ⟨b', hb', -, hc⟩, hk, hpre, hpost⟩ := hr
  obtain rfl : n = n' := Option.some.inj (hq.symm.trans hq')
  obtain rfl : b = b' := Option.some.inj (hb.symm.trans hb')
  obtain ⟨it, hit, lo', hi', hsub, hk', hpre', hpost'⟩ := hc.route i hk
    (by simpa [Block.items] using hi)
    fun k h hk1 => by simpa [Block.items] using hcut k (by simpa [Block.items] using h) hk1
  have hchild := v.child_getElem? (j := j + 1) (Nat.succ_pos j) hj hq hb hi
  rw [Nat.add_sub_cancel] at hchild
  have hit' : b.itemAt (slotOf i) = it := by
    rw [itemAt_slotOf hi]
    simpa [Block.items, List.getElem?_eq_getElem hi] using hit
  rw [hit'] at hchild ⊢
  refine ⟨hchild, it.blockGivenBy, lo', hi', hchild, hsub, hk', fun e he => ?_, fun f hf => ?_⟩
  · rw [take_blocksAt_succ hj hq hb hi.le, List.mem_append] at he
    exact he.elim (hpre e) (hpre' e)
  · rw [drop_blocksAt_succ hj hq hb hi, List.mem_append] at hf
    exact hf.elim (hpost' f) (hpost f)

/-- A level `k` of a cursor that `find` can start from, whatever it held before: it has a buffer;
a block of level `k` of the snapshot that it holds, it holds as the snapshot has it; it is marked
for rewriting only while it holds a block of level `k`; and its slot is `-1` or a slot offset. -/
def FindReady (L R k : Nat) (x : Cursor) : Prop :=
  x.p.isSome = true ∧ (∀ n ∈ v.blocksAt L R k, x.n = some n → x.p = v k n) ∧
    (x.rewrite = true → ∃ n ∈ v.blocksAt L R k, x.n = some n) ∧
    (x.c = -1 ∨ x.c = 0 ∨ x.c % 2 = 1)

/-- **At the leaf.**  With the descent at position `q` of level 0, and `k` the items of the leaf
`b` there whose keys are at most `key`: the tree's leaf items before position `start + k` are at
most `key` and those from it on above, and a leaf item has the key exactly when the item before
the cut does. -/
theorem Routes.leaf {L R : Nat} {key : Key} {q n : Nat} {b : Block} (hr : v.Routes L R key 0 q)
    (hq : (v.blocksAt L R 0)[q]? = some n) (hb : v 0 n = some b) {k : Nat}
    (hk : k ≤ b.dir.length)
    (hcut : ∀ i (h : i < b.dir.length), b.dir[i].2.keyOf.le key = true ↔ i < k) :
    (∀ e ∈ (v.leaves L R).take (v.start L R 0 q + k), e.keyOf.le key = true) ∧
      (∀ f ∈ (v.leaves L R).drop (v.start L R 0 q + k), key.lt f.keyOf = true) ∧
      ((0 < k ∧ (b.itemAt (slotOf k - D2)).keyOf.eq key = true) ↔
        ∃ it ∈ v.leaves L R, it.keyOf.eq key = true) := by
  obtain ⟨n', lo, hi, hq', ⟨b', hb', -, -, hsorted, -⟩, -, hpre, hpost⟩ := hr
  obtain rfl : n = n' := Option.some.inj (hq.symm.trans hq')
  obtain rfl : b = b' := Option.some.inj (hb.symm.trans hb')
  have hw : ∀ m, v.width 0 m = (v.leaves 0 m).length := fun m => by simp [View.leaves]
  have hl : v.leaves 0 n = b.items := by simp [View.leaves, View.items, hb]
  have hlen : k ≤ (v.leaves 0 n).length := by simpa [hl, Block.items] using hk
  have htake : (v.leaves L R).take (v.start L R 0 q + k) =
      ((v.blocksAt L R 0).take q).flatMap (v.leaves 0) ++ b.items.take k := by
    rw [v.leaves_eq L R, View.start, List.map_congr_left fun m _ => hw m, ← hl]
    exact take_flatMap_start _ _ hq hlen
  have hdrop : (v.leaves L R).drop (v.start L R 0 q + k) =
      b.items.drop k ++ ((v.blocksAt L R 0).drop (q + 1)).flatMap (v.leaves 0) := by
    rw [v.leaves_eq L R, View.start, List.map_congr_left fun m _ => hw m, ← hl]
    exact drop_flatMap_start _ _ hq hlen
  have hlen' : b.items.length = b.dir.length := by simp [Block.items]
  -- the cut of the leaf: its first `k` items are at most `key`, the others above
  have hle : ∀ e ∈ b.items.take k, e.keyOf.le key = true := by
    intro e he
    obtain ⟨i, hi, rfl⟩ := List.mem_take_iff_getElem.1 he
    simp only [Block.items, List.getElem_map]
    exact (hcut i (by omega)).2 (by omega)
  have hgt : ∀ f ∈ b.items.drop k, key.lt f.keyOf = true := by
    intro f hf
    obtain ⟨i, hi, rfl⟩ := List.mem_iff_getElem.1 hf
    simp only [List.length_drop] at hi
    have h := (hcut (k + i) (by omega)).not.2 (by omega)
    simpa [Block.items, Key.le] using h
  have hbelow : ∀ e ∈ (v.leaves L R).take (v.start L R 0 q + k), e.keyOf.le key = true := by
    intro e he
    rcases List.mem_append.1 (htake ▸ he) with he | he
    · exact (Key.le_iff_rank_le _ _).2 ((Key.lt_iff_rank_lt _ _).1 (hpre e he)).le
    · exact hle e he
  have habove : ∀ f ∈ (v.leaves L R).drop (v.start L R 0 q + k), key.lt f.keyOf = true := by
    intro f hf
    exact (List.mem_append.1 (hdrop ▸ hf)).elim (hgt f) (hpost f)
  refine ⟨hbelow, habove, ⟨fun ⟨hk0, heq⟩ => ?_, fun ⟨it, hit, heq⟩ => ?_⟩⟩
  · -- the item before the cut is a leaf item of the tree
    rw [slotOf_sub_D2 hk0, itemAt_slotOf (by omega)] at heq
    refine ⟨_, List.mem_of_mem_take (n := v.start L R 0 q + k) ?_, heq⟩
    rw [htake]
    exact List.mem_append_right _
      (List.mem_take_iff_getElem.2 ⟨k - 1, by omega, by simp [Block.items]⟩)
  · -- an item with the key is at most `key`, so before the cut, and at least the item before it
    rw [Key.eq_iff_rank_eq] at heq ⊢
    rw [← List.take_append_drop (v.start L R 0 q + k) (v.leaves L R), List.mem_append] at hit
    rcases hit with hit | hit
    · rcases List.mem_append.1 (htake ▸ hit) with hit | hit
      · exact absurd heq (ne_of_lt ((Key.lt_iff_rank_lt _ _).1 (hpre it hit)))
      · obtain ⟨i, hi, rfl⟩ := List.mem_take_iff_getElem.1 hit
        have hk0 : 0 < k := by omega
        rw [slotOf_sub_D2 hk0, itemAt_slotOf (by omega)]
        have hlast : (b.dir[k - 1].2.keyOf).rank ≤ key.rank :=
          (Key.le_iff_rank_le _ _).1 ((hcut (k - 1) (by omega)).2 (by omega))
        have hi' : b.items[i].keyOf.rank ≤ (b.dir[k - 1].2.keyOf).rank := by
          rcases Nat.lt_or_ge i (k - 1) with h | h
          · have := List.pairwise_iff_getElem.1 hsorted i (k - 1) (by omega) (by omega) h
            simpa [Block.items] using ((Key.lt_iff_rank_lt _ _).1 this).le
          · simp [Block.items, show i = k - 1 by omega]
        refine ⟨hk0, le_antisymm hlast ?_⟩
        rw [← heq]
        exact hi'
    · exact absurd heq.symm (ne_of_lt ((Key.lt_iff_rank_lt _ _).1 (habove it hit)))

/-- Where `find` leaves cursor `C` for `key`, answering `found`.  Levels 1 up are a path from the
root and level 0 holds the leaf it points to.  The leaf's slot is that of the last item whose key
is at most `key`, or `DIR_START - 2` when there is none; the tree's leaf items up to that slot are
at most `key` and the rest above it, so the key put in at the next slot keeps the leaf items in
order, strictly when it is new.  `found` says whether some leaf item has the key. -/
def FindsKey (L R : Nat) (C : Nat → Cursor) (key : Key) (found : Bool) : Prop :=
  ∃ pos b i, v.PathFrom L R C pos 1 ∧ v.ChildHeld L R C pos 1 ∧ (C 0).p = some b ∧
    i ≤ b.dir.length ∧ (C 0).c = slotOf i - D2 ∧
    (∀ k (h : k < b.dir.length), b.dir[k].2.keyOf.le key = true ↔ k < i) ∧
    let S := v.leaves L R
    let N := v.start L R 0 (pos 1) + i
    (∀ e ∈ S.take N, e.keyOf.le key = true) ∧ (∀ f ∈ S.drop N, key.lt f.keyOf = true) ∧
    (∀ it : Item, it.keyOf = key →
      (S.take N ++ it :: S.drop N).Pairwise (fun a b => a.keyOf.le b.keyOf = true) ∧
      (found = false →
        (S.take N ++ it :: S.drop N).Pairwise (fun a b => a.keyOf.lt b.keyOf = true))) ∧
    (found = true ↔ ∃ it ∈ S, it.keyOf.eq key = true)

instance (L R k : Nat) (x : Cursor) : Decidable (v.FindReady L R k x) :=
  inferInstanceAs (Decidable (x.p.isSome = true ∧ (∀ n ∈ v.blocksAt L R k, x.n = some n →
    x.p = v k n) ∧ (x.rewrite = true → ∃ n ∈ v.blocksAt L R k, x.n = some n) ∧
    (x.c = -1 ∨ x.c = 0 ∨ x.c % 2 = 1)))

end View

/-- Putting an item with key `x` at the cut of a strictly increasing list, after the items at most
`x` and before those above it, keeps the list in order, strictly when no item has key `x`. -/
theorem pairwise_insert_cut {S : List Item} {x : Key} (N : Nat)
    (hS : S.Pairwise fun a b => a.keyOf.lt b.keyOf = true)
    (hle : ∀ e ∈ S.take N, e.keyOf.le x = true) (hgt : ∀ f ∈ S.drop N, x.lt f.keyOf = true)
    (it : Item) (hit : it.keyOf = x) :
    (S.take N ++ it :: S.drop N).Pairwise (fun a b => a.keyOf.le b.keyOf = true) ∧
      ((∀ e ∈ S, e.keyOf.eq x = false) →
        (S.take N ++ it :: S.drop N).Pairwise (fun a b => a.keyOf.lt b.keyOf = true)) := by
  simp only [Key.le_iff_rank_le, Key.lt_iff_rank_lt] at hS hle hgt ⊢
  rw [← List.take_append_drop N S, List.pairwise_append] at hS
  obtain ⟨hA, hD, hAD⟩ := hS
  subst hit
  refine ⟨List.pairwise_append.2 ⟨hA.imp le_of_lt, List.pairwise_cons.2 ⟨fun f hf => (hgt f hf).le,
    hD.imp le_of_lt⟩, fun a ha b hb => ?_⟩, fun hne => List.pairwise_append.2 ⟨hA,
    List.pairwise_cons.2 ⟨hgt, hD⟩, fun a ha b hb => ?_⟩⟩
  · rcases List.mem_cons.1 hb with rfl | hb
    · exact hle a ha
    · exact (hAD a ha b hb).le
  · have hne' : a.keyOf.rank ≠ it.keyOf.rank := fun h =>
      Bool.false_ne_true ((hne a (List.mem_of_mem_take ha)).symm.trans
        ((Key.eq_iff_rank_eq _ _).2 h))
    rcases List.mem_cons.1 hb with rfl | hb
    · exact lt_of_le_of_ne (hle a ha) hne'
    · exact hAD a ha b hb

/-! ## The descent on the cursor -/

section Descent

variable {v : View} {L R : Nat} {t : Table} {r : CursorRef}

/-- `block_to_cursor` on a level that already holds the block does nothing. -/
theorem ok_blockToCursor_held {k n : Nat} {Q : Unit → Table → Prop} (h : (t.cur r k).n = some n) :
    Ok (blockToCursor r k n) Q t ↔ Q () t := by
  unfold blockToCursor
  simp [h]

/-- **`block_to_cursor(C_, k, n)` from any level `find` can start from**, for a block `n` of the
snapshot under the parent at level `k + 1`: level `k` then holds `n` as the snapshot has it, is
still a level `find` can start from, and the other levels are as they were. -/
theorem blockToCursor_ready (hs : Snapshot v L R) (ht : Shows t r v L R) {k target : Nat}
    {bP : Block} (hk : k < L) (htarget : target ∈ v.blocksAt L R k)
    (hready : v.FindReady L R k (t.cur r k)) (hparent : (t.cur r (k + 1)).p = some bP)
    (hrev : ∀ b, v k target = some b → b.revision ≤ bP.revision) :
    Ok (blockToCursor r k target) (fun _ t' => Shows t' r v L R ∧
      (t'.cur r k).n = some target ∧ (t'.cur r k).p = v k target ∧
      v.FindReady L R k (t'.cur r k) ∧ ∀ k', k' ≠ k → t'.cur r k' = t.cur r k') t := by
  obtain ⟨hp, hheld, hrw, hc⟩ := hready
  -- after a load the level holds `target`, unmarked, with its slot as it was
  have hloaded : ∀ t' : Table, Shows t' r v L R ∧
      t'.cur r = Function.update (t.cur r) k ((t.cur r k).loaded (v k target) target) →
      Shows t' r v L R ∧ (t'.cur r k).n = some target ∧ (t'.cur r k).p = v k target ∧
        v.FindReady L R k (t'.cur r k) ∧ ∀ k', k' ≠ k → t'.cur r k' = t.cur r k' := by
    rintro t' ⟨hs', hc'⟩
    obtain ⟨bt, hbt, -⟩ := hs.block hk.le htarget
    have hk' : t'.cur r k = (t.cur r k).loaded (v k target) target := by simp [hc']
    refine ⟨hs', by simp [hk', Cursor.loaded], by simp [hk', Cursor.loaded],
      ⟨by simp [hk', Cursor.loaded, hbt], fun n _ hn => ?_, by simp [hk', Cursor.loaded],
        by simpa [hk', Cursor.loaded] using hc⟩,
      fun k' hk'' => by rw [hc', Function.update_noteq hk'']⟩
    simp only [hk', Cursor.loaded, Option.some.injEq] at hn ⊢
    rw [hn]
  by_cases hn : (t.cur r k).n = some target
  · rw [ok_blockToCursor_held hn]
    exact ⟨ht, hn, hheld target htarget hn, ⟨hp, hheld, hrw, hc⟩, fun _ _ => rfl⟩
  by_cases hold : ∃ old ∈ v.blocksAt L R k, (t.cur r k).n = some old
  · -- it holds another block of the level: written back first if marked
    obtain ⟨old, hold, hon⟩ := hold
    exact (blockToCursor_spec hs ht hk htarget hold (fun h => hn (h ▸ hon)) hon
      (hheld old hold hon) hparent hrev).mono fun _ t' h => hloaded t' h
  · -- it holds a stale block or none, and is not marked
    have hr : (t.cur r k).rewrite = false := by
      cases h : (t.cur r k).rewrite
      · rfl
      · exact absurd (hrw h) hold
    exact (blockToCursor_clean hs ht hk htarget (fun h => hn h.symm) hr hp hparent hrev).mono
      fun _ t' h => hloaded t' h

/-- The separators of a branch block with the invariant, from its second entry on, increase
strictly, as `find_in_block` needs them. -/
theorem Subtree.separators_lt {j : Nat} {lo hi : Option Key} {n : Nat} {b : Block}
    (h : Subtree v (j + 1) lo hi n) (hb : v (j + 1) n = some b) :
    ((b.dir.drop 1).map (·.2.keyOf)).Pairwise (fun a b => a.lt b = true) := by
  obtain ⟨b', hb', -, hc⟩ := h
  obtain rfl : b = b' := Option.some.inj (hb.symm.trans hb')
  have := (hc.separators fun _ _ _ h => Subtree.exists_inBounds h).1
  simp only [Block.items, ← List.map_drop, List.map_map] at this
  exact this.imp fun h => (Key.lt_iff_rank_lt _ _).2 h

/-- **The descent of `find(C_)` from level `j`.**  With the levels above `j` a path of the
snapshot, level `j` holding the block the path points to, the descent for `key` at that block, and
the levels from `j` down ones `find` can start from: `find`'s loop returns with the levels from 1
up a path, level 0 holding the leaf it points to, the descent at that leaf, and level 0 still one
`find` can start from. -/
theorem findLoop_spec (hs : Snapshot v L R) (key : Key) :
    ∀ j (t : Table) (pos : Nat → Nat), j ≤ L → Shows t r v L R →
      v.PathFrom L R (t.cur r) pos (j + 1) → v.ChildHeld L R (t.cur r) pos (j + 1) →
      v.Routes L R key j (pos (j + 1)) → (∀ k ≤ j, v.FindReady L R k (t.cur r k)) →
      Ok (findLoop r key j) (fun _ t' => Shows t' r v L R ∧ ∃ pos',
        v.PathFrom L R (t'.cur r) pos' 1 ∧ v.ChildHeld L R (t'.cur r) pos' 1 ∧
        v.Routes L R key 0 (pos' 1) ∧ v.FindReady L R 0 (t'.cur r 0)) t
  | 0, _, pos, _, ht, hpath, hchild, hroute, hready =>
    ⟨ht, pos, hpath, hchild, hroute, hready 0 le_rfl⟩
  | j + 1, t, pos, hj, ht, hpath, hchild, hroute, hready => by
    obtain ⟨n, hq, hn, hp⟩ := hchild
    simp only [Nat.add_sub_cancel] at hq hn hp
    obtain ⟨b, hb, -, hne⟩ := hs.block hj (List.getElem?_mem hq)
    have ⟨n', lo, hi, hq', hsub, _⟩ := hroute
    obtain rfl : n = n' := Option.some.inj (hq.symm.trans hq')
    -- `find_in_block` picks entry `m`, the last whose separator is at most `key`
    obtain ⟨m, hm, hcut⟩ := exists_cut_from key (List.length_pos.2 hne) (hsub.separators_lt hb)
    have hfind := findInBlock_eq hcut hm (hready (j + 1) le_rfl).2.2.2 false rfl
    rw [show slotOf (1 + m) - D2 = slotOf m by simp only [slotOf, D2]; omega] at hfind
    obtain ⟨hchild', hroute'⟩ := hroute.step (by omega) hq hb (i := m) (by omega)
      fun k h hk => by rw [hcut k h hk]; omega
    rw [findLoop, ok_bind, ok_bufferOf]
    refine ⟨b, hp.trans hb, ?_⟩
    simp only [ok_bind, ok_get, ok_modifyCur, hfind]
    -- load the child, then descend from level `j`
    have ht1 := ht.setC (j + 1) (slotOf m)
    refine Ok.mono (blockToCursor_ready hs ht1 (by omega) (List.getElem?_mem hchild')
      (by simpa using hready j (by omega)) (by simp [hp, hb]) fun bt hbt =>
        hs.revisions j (by omega) n (List.getElem?_mem hq) _
          (List.getElem?_mem (View.children_getElem? hb (by omega))) bt hbt b hb) ?_
    rintro _ t' ⟨hs', hn', hp', hready', hframe⟩
    have hC : ∀ k, k ≠ j → k ≠ j + 1 → t'.cur r k = t.cur r k := fun k hk hk' => by
      rw [hframe k hk, Table.cur_modifyCur, Function.update_noteq hk']
    have hCj : t'.cur r (j + 1) = { t.cur r (j + 1) with c := slotOf m } := by
      rw [hframe (j + 1) (by omega), Table.cur_modifyCur, Function.update_same]
    have hstart : Function.update pos (j + 1) (v.start L R (j + 1) (pos (j + 1 + 1)) + m)
        (j + 1 + 1) = pos (j + 1 + 1) := Function.update_noteq (by omega) _ _
    refine findLoop_spec hs key j t' _ (by omega) hs'
      (hpath.extend hj (fun k hk => hC k (by omega) (by omega))
        ⟨n, b, by rw [hstart]; exact hq, hb, by simp [hCj, hn], by simp [hCj, hp, hb], ?_, ?_, ?_⟩)
      ⟨_, by simpa using hchild', hn', hp'⟩ (by simpa using hroute') fun k hk => ?_
    · simp [hstart]
    · simp only [hstart, Function.update_same]; omega
    · simp [hstart, hCj]
    · rcases Nat.eq_or_lt_of_le hk with rfl | hk
      · exact hready'
      · rw [hC k (by omega) (by omega)]
        exact hready k (by omega)

end Descent

/-! ## `find` -/

section Find

variable {v : View} {L R : Nat} {t : Table} {r : CursorRef}

/-- **`find(C_)` finds the key's place among the leaf items.**  Take a tree with the B-tree
invariant in which no block is reached twice and no child is newer than its parent, shown through
cursor `C_`, with the root at the top level of `C_` and every level one `find` can start from: it
may hold a stale block, a stale slot, or a block of its level marked for rewriting.  `find(C_)`
returns, with the snapshot still shown (a marked block it evicts is written back first), `C_` a
path from the root to a leaf, and the leaf's slot on the last item whose key is at most the key
of `kt`, or `DIR_START - 2` when the key lies below the leaf's first; the tree's leaf items up to
that slot are at most the key and the rest above it, so the key put in at the next slot keeps them
in order; and it returns true exactly when some leaf item has the key. -/
theorem find_locates_key (hs : Snapshot v L R) (ht : Shows t r v L R)
    (hroot : (t.cur r L).n = some R) (hready : ∀ k ≤ L, v.FindReady L R k (t.cur r k)) :
    Ok (find r) (fun found t' => Shows t' r v L R ∧ v.FindsKey L R (t'.cur r) t.kt.keyOf found)
      t := by
  have hpath : v.PathFrom L R (t.cur r) (fun _ => 0) (L + 1) := ⟨rfl, fun k hk hkL => by omega⟩
  have hchild : v.ChildHeld L R (t.cur r) (fun _ => 0) (L + 1) :=
    ⟨R, by simp, hroot, (hready L le_rfl).2.1 R (by simp) hroot⟩
  unfold find
  simp only [ok_bind, ok_get]
  rw [ht.level]
  refine Ok.mono (findLoop_spec hs t.kt.keyOf L t _ le_rfl ht hpath hchild
    (View.routes_top hs.tree _) hready) ?_
  rintro _ t1 ⟨hs1, pos, hpath1, ⟨n, hq, hn, hp⟩, hroute, hready0⟩
  simp only [Nat.sub_self] at hq hn hp
  obtain ⟨b, hb, -, -⟩ := hs.block (Nat.zero_le _) (List.getElem?_mem hq)
  obtain ⟨n', _, _, hq', ⟨b', hb', -, -, hsorted, -⟩, -⟩ := id hroute
  obtain rfl : n = n' := Option.some.inj (hq.symm.trans hq')
  obtain rfl : b = b' := Option.some.inj (hb.symm.trans hb')
  -- `find_in_block` cuts the leaf after its last item at most the key
  obtain ⟨k, hk, hcut⟩ := exists_cut_from t.kt.keyOf (Nat.zero_le b.dir.length)
    (by simpa [Block.items, List.pairwise_map] using hsorted)
  have hfind := findInBlock_eq hcut hk hready0.2.2.2 true rfl
  simp only [Nat.zero_add] at hfind hk hcut
  obtain ⟨hbelow, habove, hfound⟩ := hroute.leaf hq hb hk fun i h => hcut i h (Nat.zero_le _)
  simp only [ok_bind, ok_bufferOf, ok_get, ok_modifyCur, ok_ite, ok_pure]
  refine ⟨b, hp.trans hb, ?_⟩
  rw [hfind]
  -- the table after the leaf slot is set, for either answer
  have hQ : ∀ found : Bool, (found = true ↔ ∃ it ∈ v.leaves L R, it.keyOf.eq t.kt.keyOf = true) →
      Shows (t1.modifyCur r 0 fun x => { x with c := slotOf k - D2 }) r v L R ∧
        v.FindsKey L R ((t1.modifyCur r 0 fun x => { x with c := slotOf k - D2 }).cur r)
          t.kt.keyOf found := by
    intro found hf
    refine ⟨hs1.setC 0 _, pos, b, k, ⟨hpath1.1, fun j hj hjL => (hpath1.2 j hj hjL).congr
      (by simp [show j ≠ 0 by omega]) rfl rfl⟩, ⟨n, by simpa using hq, by simp [hn],
      by simp [hp]⟩, by simp [hp, hb], hk, by simp, fun i h => hcut i h (Nat.zero_le _),
      hbelow, habove, fun it hit => ?_, hf⟩
    have h := pairwise_insert_cut _ hs.leaves_sorted hbelow habove it hit
    refine ⟨h.1, fun hf' => h.2 fun e he => ?_⟩
    by_contra hne
    exact Bool.false_ne_true (hf'.symm.trans (hf.2 ⟨e, he, by simpa using hne⟩))
  refine ⟨fun hlt => hQ false ?_, fun hge => hQ _ ?_⟩
  · have hk0 : k = 0 := by simp only [slotOf, D2, dirStart] at hlt; omega
    simp only [Bool.false_eq_true, false_iff]
    exact fun h => absurd (hfound.2 h).1 (by omega)
  · have hk0 : 0 < k := by simp only [slotOf, D2, dirStart] at hge; omega
    rw [← hfound]
    exact ⟨fun h => ⟨hk0, h⟩, fun h => h.2⟩

end Find

/-! ## The two leaves again -/

/-- The reader of the two leaves, searching for `key`. -/
def twoLeavesSearch (key : Key) (rev : Nat) : Table :=
  { twoLeavesReader rev with kt := ⟨some key, .chunk 1 false []⟩ }

theorem twoLeavesSearch_shows (key : Key) (rev : Nat) :
    Shows (twoLeavesSearch key rev) .user (twoLeavesView rev) 1 2 :=
  ⟨rfl, fun _ _ _ _ => rfl, fun k h => absurd h (by
    simp only [Table.cur, twoLeavesSearch, twoLeavesReader, twoLeavesCursor]; split_ifs <;> decide),
    fun h => absurd h (by decide)⟩

/-- Searching the two leaves for `m` from the cursor on `a`: the descent replaces the stale leaf
at level 0 and finds `m`. -/
theorem twoLeaves_find_m :
    Snapshot (twoLeavesView 1) 1 2 ∧
      Shows (twoLeavesSearch ⟨[109], 1⟩ 1) .user (twoLeavesView 1) 1 2 ∧
      ((twoLeavesSearch ⟨[109], 1⟩ 1).cur .user 1).n = some 2 ∧
      (∀ k ≤ 1, (twoLeavesView 1).FindReady 1 2 k ((twoLeavesSearch ⟨[109], 1⟩ 1).cur .user k)) ∧
      Ok (find .user) (fun found t' => Shows t' .user (twoLeavesView 1) 1 2 ∧
        (twoLeavesView 1).FindsKey 1 2 (t'.cur .user)
          (twoLeavesSearch ⟨[109], 1⟩ 1).kt.keyOf found) (twoLeavesSearch ⟨[109], 1⟩ 1) :=
  have hs : Snapshot (twoLeavesView 1) 1 2 := ⟨twoLeaves_tree 1, twoLeaves_nodup 1, by decide⟩
  have ht := twoLeavesSearch_shows ⟨[109], 1⟩ 1
  ⟨hs, ht, rfl, by decide, find_locates_key hs ht rfl (by decide)⟩

/-- There `find` answers true, with the cursor on `m`'s leaf, block 1, at its first slot. -/
example : ∃ t', find .user (twoLeavesSearch ⟨[109], 1⟩ 1) = .ok true t' ∧
    (t'.cur .user 0).n = some 1 ∧ (t'.cur .user 0).c = 11 :=
  ⟨_, rfl, rfl, rfl⟩

/-- **A newer leaf stops the search.**  In the snapshot of two leaves with the second of revision 2
under a root of revision 1, the tree has the B-tree invariant, no block is reached twice, the
reader's cursor holds the root and is one `find` can start from; yet searching for `m` raises
`DatabaseModifiedError` where it should find it. -/
theorem find_rejects_newer_leaf :
    Subtree (twoLeavesView 2) 1 none none 2 ∧ ((twoLeavesView 2).treeBlocks 1 2).Nodup ∧
      Shows (twoLeavesSearch ⟨[109], 1⟩ 2) .user (twoLeavesView 2) 1 2 ∧
      ((twoLeavesSearch ⟨[109], 1⟩ 2).cur .user 1).n = some 2 ∧
      (∀ k ≤ 1, (twoLeavesView 2).FindReady 1 2 k ((twoLeavesSearch ⟨[109], 1⟩ 2).cur .user k)) ∧
      ¬(twoLeavesView 2).RevisionsOrdered 1 2 ∧
      ∃ t', find .user (twoLeavesSearch ⟨[109], 1⟩ 2) =
        .error (.databaseModifiedError ("The revision being read has been discarded - " ++
          "you should call Xapian::Database::reopen() and retry the operation")) t' :=
  ⟨twoLeaves_tree 2, twoLeaves_nodup 2, twoLeavesSearch_shows _ 2, rfl, by decide, by decide, _, rfl⟩

end FlintBtree
