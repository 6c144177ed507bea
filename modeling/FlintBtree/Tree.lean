import FlintBtree.KeyOrder
import FlintBtree.Block

/-!
# The tree a root names

A B-tree of `flint_table.cc` is not a data structure of its own: it is what a root block number
and the data file mean together, read level by level through child pointers.  `View` is how
this file reads blocks: `v j n` is what a cursor at level `j` finds for block `n` — the data file's
copy, or the built-in cursor's newer copy in a writable table.

## Main Definitions

* `View.blocksAt v L R j` — the blocks at level `j` of the tree whose root, at level `L`, is
  `R`, left to right: the children, in directory order, of the blocks one level up.
* `View.leaves` — the leaf items under a block, in directory order.
* `Subtree` — **the B-tree invariant**: every block has the level its parent's level says, is
  not empty, and its keys lie within the bounds its separators give; leaf keys increase.

## Main Results

* `View.leaves_eq` — the leaf items of the tree are the items of its level-0 blocks in order.
* `Subtree.sorted` — in a tree with the invariant the leaf items are in strictly increasing
  key order.
* `Subtree.of_mem_blocksAt` — every block at every level of such a tree is a subtree with the
  invariant.

## Design Notes

The levels of a tree are lists computed from the top (`blocksDown`), so that positions along a
level are list indices; a cursor's position at one level is the index of its block in the level
below.  The invariant takes the bounds of a subtree as arguments, after the routing argument of
C2: the key in slot 0 of a branch block is never consulted, and a separator need not be a key of
the leaves under it.
-/

namespace FlintBtree

/-- The blocks as a cursor at each level finds them. -/
abbrev View := Nat → Nat → Option Block

namespace View

variable (v : View)

/-- The number of directory slots of block `n` at level `j`. -/
def width (j n : Nat) : Nat := ((v j n).map fun b => b.dir.length).getD 0

/-- The child block numbers of block `n` at level `j`, in directory order. -/
def children (j n : Nat) : List Nat := ((v j n).map fun b => b.items.map Item.blockGivenBy).getD []

/-- The items of block `n` at level `j`. -/
def items (j n : Nat) : List Item := ((v j n).map Block.items).getD []

/-- The blocks `d` levels below the root `R` at level `L`, left to right. -/
def blocksDown (L R : Nat) : Nat → List Nat
  | 0 => [R]
  | d + 1 => (blocksDown L R d).flatMap (v.children (L - d))

/-- The blocks at level `j` of the tree whose root, at level `L`, is `R`. -/
def blocksAt (L R j : Nat) : List Nat := v.blocksDown L R (L - j)

/-- The leaf items under block `n` at level `j`, in directory order. -/
def leaves : Nat → Nat → List Item
  | 0, n => v.items 0 n
  | j + 1, n => (v.children (j + 1) n).flatMap (leaves j)

/-- The slots at level `j` before the `q`-th block of that level. -/
def start (L R j q : Nat) : Nat := (((v.blocksAt L R j).take q).map (v.width j)).sum

/-- The slots at level `j`. -/
def total (L R j : Nat) : Nat := ((v.blocksAt L R j).map (v.width j)).sum

@[simp] theorem length_children (j n : Nat) : (v.children j n).length = v.width j n := by
  unfold children width; cases v j n <;> simp [Block.items]

@[simp] theorem length_items (j n : Nat) : (v.items j n).length = v.width j n := by
  unfold items width; cases v j n <;> simp [Block.items]

@[simp] theorem blocksAt_top (L R : Nat) : v.blocksAt L R L = [R] := by simp [blocksAt, blocksDown]

theorem blocksAt_succ {L R j : Nat} (h : j < L) :
    v.blocksAt L R j = (v.blocksAt L R (j + 1)).flatMap (v.children (j + 1)) := by
  have e : L - j = (L - (j + 1)) + 1 := by omega
  rw [blocksAt, e, blocksDown, blocksAt, show L - (L - (j + 1)) = j + 1 by omega]

theorem leaves_eq_aux (L R : Nat) :
    ∀ d ≤ L, v.leaves L R = (v.blocksDown L R d).flatMap (v.leaves (L - d))
  | 0, _ => by simp [blocksDown]
  | d + 1, h => by
    rw [leaves_eq_aux L R d (by omega), blocksDown, List.flatMap_assoc]
    congr 1
    funext n
    obtain ⟨k, hk⟩ : ∃ k, L - d = k + 1 := ⟨L - d - 1, by omega⟩
    rw [hk, leaves, show L - (d + 1) = k by omega]

/-- The leaf items of a tree are the items of its level-0 blocks, left to right. -/
theorem leaves_eq (L R : Nat) : v.leaves L R = (v.blocksAt L R 0).flatMap (v.items 0) := by
  rw [blocksAt, leaves_eq_aux v L R L le_rfl, Nat.sub_self, Nat.sub_zero]
  rfl

theorem total_zero (L R : Nat) : v.total L R 0 = (v.leaves L R).length := by
  rw [leaves_eq, total, List.flatMap_def, List.length_flatten, List.map_map]
  simp [Function.comp_def]

theorem total_succ {L R j : Nat} (h : j < L) :
    v.total L R (j + 1) = (v.blocksAt L R j).length := by
  rw [blocksAt_succ v h, List.flatMap_def, List.length_flatten, List.map_map, total]
  simp [Function.comp_def]

theorem start_succ {L R j q : Nat} {n : Nat} (h : (v.blocksAt L R j)[q]? = some n) :
    v.start L R j (q + 1) = v.start L R j q + v.width j n := by
  simp [start, List.take_succ, h, List.sum_append]

theorem start_length (L R j : Nat) : v.start L R j (v.blocksAt L R j).length = v.total L R j := by
  simp [start, total]

end View

/-! ## Positions along a concatenation -/

/-- The element at offset `i` of the `q`-th part of a concatenation. -/
theorem getElem?_flatMap_start {α β : Type} (l : List α) (f : α → List β) {q : Nat} {a : α}
    (hq : l[q]? = some a) {i : Nat} (hi : i < (f a).length) :
    (l.flatMap f)[((l.take q).map fun x => (f x).length).sum + i]? = (f a)[i]? := by
  induction l generalizing q with
  | nil => simp at hq
  | cons x l ih =>
    cases q with
    | zero =>
      simp only [List.getElem?_cons_zero, Option.some.injEq] at hq
      subst hq
      simp [List.getElem?_append_left hi]
    | succ q =>
      simp only [List.getElem?_cons_succ] at hq
      simp only [List.flatMap_cons, List.take_succ_cons, List.map_cons, List.sum_cons]
      rw [Nat.add_assoc, List.getElem?_append_right (by omega), Nat.add_sub_cancel_left, ih hq]

/-! ## The B-tree invariant -/

/-- Key `k` lies in `[lo, hi)`, an absent bound being no bound. -/
def InBounds (lo hi : Option Key) (k : Key) : Prop :=
  (∀ l ∈ lo, l.le k = true) ∧ ∀ h ∈ hi, k.lt h = true

instance (lo hi : Option Key) (k : Key) : Decidable (InBounds lo hi k) :=
  inferInstanceAs (Decidable ((∀ l ∈ lo, l.le k = true) ∧ ∀ h ∈ hi, k.lt h = true))

/-- The entries of a branch block route correctly: the child of each entry is a subtree for the
keys from the entry's separator (the lower bound `lo` for the first entry, whose key is never
read) to the next entry's separator, and every separator lies in `[lo, hi)`. -/
def ChildrenOk (P : Option Key → Option Key → Nat → Prop) :
    Option Key → Option Key → List Item → Prop
  | _, _, [] => False
  | lo, hi, [it] => P lo hi it.blockGivenBy
  | lo, hi, it :: it' :: rest =>
      P lo (some it'.keyOf) it.blockGivenBy ∧ InBounds lo hi it'.keyOf ∧
        ChildrenOk P (some it'.keyOf) hi (it' :: rest)

/-- **The B-tree invariant** of the subtree under block `n` at level `j`, for keys in `[lo, hi)`:
the block is there, has level `j` and at least one item; a leaf's keys increase and lie in the
bounds; a branch block's entries route correctly to subtrees one level down. -/
def Subtree (v : View) : Nat → Option Key → Option Key → Nat → Prop
  | 0, lo, hi, n => ∃ b, v 0 n = some b ∧ b.level = 0 ∧ b.dir ≠ [] ∧
      b.items.Pairwise (fun x y => x.keyOf.lt y.keyOf = true) ∧
      ∀ it ∈ b.items, InBounds lo hi it.keyOf
  | j + 1, lo, hi, n => ∃ b, v (j + 1) n = some b ∧ b.level = j + 1 ∧
      ChildrenOk (Subtree v j) lo hi b.items

theorem ChildrenOk.ne_nil {P : Option Key → Option Key → Nat → Prop} :
    ∀ {lo hi : Option Key} {l : List Item}, ChildrenOk P lo hi l → l ≠ []
  | _, _, [], h => h.elim
  | _, _, _ :: _, _ => List.cons_ne_nil _ _

theorem ChildrenOk.of_mem {P : Option Key → Option Key → Nat → Prop} :
    ∀ {lo hi : Option Key} {l : List Item}, ChildrenOk P lo hi l →
      ∀ it ∈ l, ∃ lo' hi', P lo' hi' it.blockGivenBy
  | _, _, [], h => h.elim
  | _, _, [_], h => by simp only [List.mem_singleton]; rintro _ rfl; exact ⟨_, _, h⟩
  | _, _, _ :: _ :: _, ⟨h, _, hr⟩ => by
    rintro it (_ | ⟨_, hmem⟩)
    · exact ⟨_, _, h⟩
    · exact hr.of_mem it hmem

theorem Subtree.block {v : View} {lo hi : Option Key} :
    ∀ {j n : Nat}, Subtree v j lo hi n → ∃ b, v j n = some b ∧ b.level = j ∧ b.dir ≠ []
  | 0, _, ⟨b, hb, hl, hne, _⟩ => ⟨b, hb, hl, hne⟩
  | _ + 1, _, ⟨b, hb, hl, hc⟩ => ⟨b, hb, hl, by simpa [Block.items] using hc.ne_nil⟩

/-- Every block at every level of a tree with the invariant is a subtree with the invariant. -/
theorem Subtree.of_mem_blocksAt {v : View} {L R : Nat} (h : Subtree v L none none R) :
    ∀ d, d ≤ L → ∀ n ∈ v.blocksDown L R d, ∃ lo hi, Subtree v (L - d) lo hi n
  | 0, _, n, hn => by simp only [View.blocksDown, List.mem_singleton] at hn; subst hn; exact ⟨_, _, h⟩
  | d + 1, hd, n, hn => by
    simp only [View.blocksDown, List.mem_flatMap] at hn
    obtain ⟨m, hm, hn⟩ := hn
    obtain ⟨lo, hi, hsub⟩ := h.of_mem_blocksAt d (by omega) m hm
    obtain ⟨k, hk⟩ : ∃ k, L - d = k + 1 := ⟨L - d - 1, by omega⟩
    rw [hk] at hsub
    obtain ⟨b, hb, -, hc⟩ := hsub
    simp only [View.children, hk, hb, Option.map_some', Option.getD_some, List.mem_map] at hn
    obtain ⟨it, hit, rfl⟩ := hn
    rw [show L - (d + 1) = k by omega]
    exact hc.of_mem it hit

/-! ## The leaves are sorted -/

/-- The items of `l` are in strictly increasing key order and lie in `[lo, hi)`. -/
def SortedIn (lo hi : Option Key) (l : List Item) : Prop :=
  l.Pairwise (fun x y => x.keyOf.rank < y.keyOf.rank) ∧ ∀ it ∈ l, InBounds lo hi it.keyOf

theorem inBounds_iff {lo hi : Option Key} {k : Key} :
    InBounds lo hi k ↔ (∀ l ∈ lo, l.rank ≤ k.rank) ∧ ∀ h ∈ hi, k.rank < h.rank := by
  simp only [InBounds, Key.le_iff_rank_le, Key.lt_iff_rank_lt]

/-- Two ranges that meet at a separator make one. -/
theorem SortedIn.append {lo hi : Option Key} {s : Key} {l l' : List Item}
    (h : SortedIn lo (some s) l) (h' : SortedIn (some s) hi l') (hs : InBounds lo hi s) :
    SortedIn lo hi (l ++ l') := by
  simp only [SortedIn, inBounds_iff, Option.mem_def, Option.some.injEq, forall_eq'] at *
  refine ⟨List.pairwise_append.2 ⟨h.1, h'.1, fun a ha b hb => ?_⟩, fun it hit => ?_⟩
  · exact lt_of_lt_of_le (h.2 a ha).2 (h'.2 b hb).1
  · rcases List.mem_append.1 hit with hit | hit
    · exact ⟨(h.2 it hit).1, fun k hk => lt_trans (h.2 it hit).2 (hs.2 k hk)⟩
    · exact ⟨fun k hk => le_trans (hs.1 k hk) (h'.2 it hit).1, (h'.2 it hit).2⟩

theorem ChildrenOk.sortedIn {P : Option Key → Option Key → Nat → Prop} {f : Nat → List Item}
    (hP : ∀ lo hi n, P lo hi n → SortedIn lo hi (f n)) :
    ∀ {lo hi : Option Key} {l : List Item}, ChildrenOk P lo hi l →
      SortedIn lo hi (l.flatMap fun it => f it.blockGivenBy)
  | _, _, [], h => h.elim
  | _, _, [_], h => by simpa using hP _ _ _ h
  | _, _, _ :: _ :: _, ⟨h, hs, hr⟩ => by
    rw [List.flatMap_cons]
    exact (hP _ _ _ h).append (ChildrenOk.sortedIn hP hr) hs

/-- **The leaves of a subtree with the invariant are in strictly increasing key order**, and
within its bounds. -/
theorem Subtree.sorted {v : View} : ∀ {j : Nat} {lo hi : Option Key} {n : Nat},
    Subtree v j lo hi n → SortedIn lo hi (v.leaves j n)
  | 0, _, _, _, ⟨b, hb, _, _, hs, hin⟩ => by
    simp only [View.leaves, View.items, hb, Option.map_some', Option.getD_some]
    exact ⟨hs.imp fun h => (Key.lt_iff_rank_lt _ _).1 h, hin⟩
  | _ + 1, _, _, _, ⟨b, hb, _, hc⟩ => by
    simp only [View.leaves, View.children, hb, Option.map_some', Option.getD_some,
      List.flatMap_map]
    exact hc.sortedIn fun _ _ _ h => Subtree.sorted h

end FlintBtree
