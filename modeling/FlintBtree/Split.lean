import FlintBtree.Space

/-!
# Splitting a full block

When `add_item` finds no room for an item in a block it splits the block in two: at the
byte mid-point that `mid_point` computes when the recent inserts were not sequential, or at the
insertion slot when they were.  This module proves what the split leaves in each half.

## Main Results

* `midPoint_splits_evenly` — on a block with at least two items `mid_point`'s loop stops at a slot
  strictly inside the directory (never at its `Assert(false)` fall-through), and each half holds
  at most `(S + l) / 2` bytes, for `S` the block's item bytes and `l` a bound on its items.

## Design Notes

`mid_point` walks the items in slot order, keeping `n` = twice the bytes passed so far, and stops
at the first item that takes `n` to at least `S`.  If `x` bytes precede that item and it has `s`
bytes, it returns the item's own slot when `S < 2x + s` (the item opens the upper half, which then
holds `S - x ≤ (S + s) / 2` bytes) and the next slot otherwise (the lower half holds
`x + s ≤ (S + s) / 2` bytes).
-/

namespace FlintBtree

open Block

/-! ## The mid point -/

/-- Every item takes at least five bytes, so the bytes of a run of entries bound its length. -/
theorem five_mul_length_le_bytes (l : List (Nat × Item)) :
    5 * l.length ≤ (l.map (·.2.size)).sum := by
  induction l with
  | nil => simp
  | cons e l ih =>
    simp only [List.length_cons, List.map_cons, List.sum_cons]
    have := e.2.five_le_size
    omega

section MidPoint

variable {all : List (Nat × Item)} {S l : Nat}

/-- The loop of `mid_point` entered after the entries `pre` of the directory `all`, with
`n = 2 * (bytes of pre) < S` and `c` the slot after `pre`: it stops at a slot that cuts `all` into
two non-empty runs of at most `(S + l) / 2` bytes each. -/
theorem midPointLoop_spec (hl : ∀ e ∈ all, e.2.size ≤ l) (h2 : 2 ≤ all.length)
    (hS : S = (all.map (·.2.size)).sum) :
    ∀ (rest pre : List (Nat × Item)) (n c : Int), pre ++ rest = all →
      n = 2 * (pre.map (·.2.size)).sum → c = slotOf pre.length → n < S →
      ∃ lo hi, lo ++ hi = all ∧ midPointLoop S n c rest = slotOf lo.length ∧ lo ≠ [] ∧ hi ≠ [] ∧
        2 * (lo.map (·.2.size)).sum ≤ S + l ∧ 2 * (hi.map (·.2.size)).sum ≤ S + l := by
  intro rest
  induction rest with
  | nil =>
    intro pre n c hall hn _ hlt
    subst hall
    simp only [List.append_nil] at hS
    omega
  | cons e rest ih =>
    obtain ⟨o, it⟩ := e
    intro pre n c hall hn hc hlt
    have hsum : S = (pre.map (·.2.size)).sum + it.size + (rest.map (·.2.size)).sum := by
      simp only [hS, ← hall, List.map_append, List.sum_append, List.map_cons, List.sum_cons]
      omega
    have hlen : all.length = pre.length + 1 + rest.length := by simp [← hall]; omega
    have hs : it.size ≤ l := hl (o, it) (by simp [← hall])
    have h3 := five_mul_length_le_bytes pre
    simp only [midPointLoop]
    split_ifs with h1 h2
    · -- the item opens the upper half: `S < 2x + s`, so `x > 0`
      refine ⟨pre, (o, it) :: rest, hall, hc, ?_, List.cons_ne_nil _ _, by omega, ?_⟩
      · rintro rfl
        simp only [List.map_nil, List.sum_nil] at hn
        omega
      · simp only [List.map_cons, List.sum_cons]
        omega
    · -- the item closes the lower half: `2x + s ≤ S`
      refine ⟨pre ++ [(o, it)], rest, by simp [← hall], ?_, by simp, ?_, ?_, by omega⟩
      · simp only [hc, slotOf, D2, List.length_append, List.length_singleton]
        omega
      · rintro rfl
        simp only [List.map_nil, List.sum_nil, List.length_nil] at hsum hlen
        omega
      · simp only [List.map_append, List.sum_append, List.map_cons, List.map_nil, List.sum_cons,
          List.sum_nil]
        omega
    · refine ih (pre ++ [(o, it)]) _ _ (by simp [← hall]) ?_ ?_ (by omega)
      · simp only [hn, List.map_append, List.sum_append, List.map_cons, List.map_nil,
          List.sum_cons, List.sum_nil]
        omega
      · simp only [hc, slotOf, D2, List.length_append, List.length_singleton]
        omega

end MidPoint

theorem used_lowerHalf (p : Block) (m : Int) :
    (lowerHalf B p m).used = ((p.dir.take (slotIndex m)).map (·.2.size)).sum := by
  rw [Block.used, lowerHalf_items]
  simp [Block.items, List.map_take, Function.comp_def]

theorem used_upperHalf (p : Block) (m : Int) :
    (upperHalf B p m).used = ((p.dir.drop (slotIndex m)).map (·.2.size)).sum := by
  rw [Block.used, upperHalf_items]
  simp [Block.items, List.map_drop, Function.comp_def]

/-- **`mid_point` splits evenly.**  On a block with the space invariant and at least two items,
`mid_point` returns a slot `m = slotOf i` with `DIR_START < m < DIR_END`, and for every bound `l`
on the sizes of its items, each half of the split at `m` holds at most `(S + l) / 2` bytes of
the block's `S`. -/
theorem midPoint_splits_evenly (h : SpaceInv B p) (h2 : 2 ≤ p.dir.length) (l : Nat)
    (hl : ∀ it ∈ p.items, it.size ≤ l) :
    ∃ i, 0 < i ∧ i < p.dir.length ∧ midPoint B p = slotOf i ∧
      2 * (lowerHalf B p (midPoint B p)).used ≤ p.used + l ∧
      2 * (upperHalf B p (midPoint B p)).used ≤ p.used + l := by
  have hS : (B : Int) - p.totalFree - p.dirEnd = p.used := by have := h.total; omega
  have h3 := five_mul_length_le_bytes p.dir
  rw [← used_eq] at h3
  obtain ⟨lo, hi, hall, hm, hlo, hhi, hblo, bhi⟩ :=
    midPointLoop_spec (fun e he => hl e.2 (List.mem_map_of_mem _ he)) h2 (used_eq p) p.dir []
      0 dirStart rfl (by simp) (by simp [slotOf]) (by omega)
  have hm' : midPoint B p = slotOf lo.length := by rw [midPoint, hS, hm]
  have hlen : p.dir.length = lo.length + hi.length := by rw [← hall, List.length_append]
  refine ⟨lo.length, List.length_pos.mpr hlo, ?_, hm', ?_, ?_⟩
  · have := List.length_pos.mpr hhi
    omega
  · rwa [used_lowerHalf, hm', slotIndex_slotOf, ← hall, List.take_left]
  · rwa [used_upperHalf, hm', slotIndex_slotOf, ← hall, List.drop_left]

/-- A leaf of two chunk items, with keys `a` and `b`, laid out by `compact` in a 2048-byte block. -/
def twoChunkLeaf : Block :=
  compact 2048 ⟨1, 0, 0, 0, [(0, ⟨some ⟨[97], 1⟩, .chunk 1 false [1]⟩),
    (0, ⟨some ⟨[98], 1⟩, .chunk 1 false [2]⟩)]⟩

theorem twoChunkLeaf_splits_evenly :
    SpaceInv 2048 twoChunkLeaf ∧ 2 ≤ twoChunkLeaf.dir.length ∧
      (∀ it ∈ twoChunkLeaf.items, it.size ≤ 9) ∧
      ∃ i, 0 < i ∧ i < twoChunkLeaf.dir.length ∧ midPoint 2048 twoChunkLeaf = slotOf i ∧
        2 * (lowerHalf 2048 twoChunkLeaf (midPoint 2048 twoChunkLeaf)).used ≤
          twoChunkLeaf.used + 9 ∧
        2 * (upperHalf 2048 twoChunkLeaf (midPoint 2048 twoChunkLeaf)).used ≤
          twoChunkLeaf.used + 9 :=
  have h : SpaceInv 2048 twoChunkLeaf := spaceInv_compact (by decide) (by decide)
  ⟨h, by decide, by decide, midPoint_splits_evenly h (by decide) 9 (by decide)⟩

/-! ## Room for the new item -/

section Room

variable {mis : Nat} {kt : Item}

/-- What the two halves of a split at `m` hold: with `i` the slots below `m`, the lower half has
`i` entries and the upper the other `k - i`, their bytes add up to the block's, and each half's
`TOTAL_FREE`, directory and items fill the block. -/
theorem halves_accounting (h : SpaceInv B p) (hB : B ≤ 65536) (m : Int) :
    let i := min (slotIndex m) p.dir.length
    (lowerHalf B p m).dir.length = i ∧ (upperHalf B p m).dir.length = p.dir.length - i ∧
      (lowerHalf B p m).totalFree + (dirStart + D2 * i) + (lowerHalf B p m).used = B ∧
      (upperHalf B p m).totalFree + (dirStart + D2 * (p.dir.length - i)) +
        (upperHalf B p m).used = B ∧
      (lowerHalf B p m).used + (upperHalf B p m).used = p.used ∧
      5 * i ≤ (lowerHalf B p m).used ∧ 5 * (p.dir.length - i) ≤ (upperHalf B p m).used := by
  have hl : (lowerHalf B p m).dir.length = min (slotIndex m) p.dir.length := by
    simp [lowerHalf, compact, compactDir_length]
  have hu : (upperHalf B p m).dir.length = p.dir.length - min (slotIndex m) p.dir.length := by
    simp [upperHalf, compact, compactDir_length]; omega
  have hL := (spaceInv_lowerHalf h hB m).total
  have hU := (spaceInv_upperHalf h hB m).total
  have h5l : 5 * min (slotIndex m) p.dir.length ≤ (lowerHalf B p m).used := by
    simpa [used_lowerHalf] using five_mul_length_le_bytes (p.dir.take (slotIndex m))
  have h5u : 5 * (p.dir.length - min (slotIndex m) p.dir.length) ≤ (upperHalf B p m).used := by
    have := five_mul_length_le_bytes (p.dir.drop (slotIndex m))
    rw [used_upperHalf]; simp only [List.length_drop] at this; omega
  rw [Block.dirEnd, hl] at hL
  rw [Block.dirEnd, hu] at hU
  refine ⟨hl, hu, hL, hU, ?_, h5l, by omega⟩
  rw [used_lowerHalf, used_upperHalf, used_take_add_used_drop, used_eq]

/-- The bytes of a run of entries of at most `mis` bytes each. -/
theorem bytes_le_length_mul {l : List (Nat × Item)} (h : ∀ e ∈ l, e.2.size ≤ mis) :
    (l.map (·.2.size)).sum ≤ l.length * mis := by
  simpa using List.sum_le_card_nsmul (l.map (·.2.size)) mis fun x hx => by
    obtain ⟨e, he, rfl⟩ := List.mem_map.1 hx
    exact h e he

/-- The arithmetic of the mid-point room argument: a half of a block holding at most
`(S + mis) / 2` of its `S` bytes, with at least five bytes an item and the other half non-empty,
has room for an item of `s ≤ mis` bytes.  Its free space is at least the other half's bytes and
directory, and at least the block less `7/5` of its own bytes; the two bounds meet above
`s + 2`. -/
theorem room_of_half {B S Sh k y tf tfh s : Nat} (hT : tf + (11 + 2 * k) + S = B)
    (hH : tfh + (11 + 2 * y) + Sh = B) (hbal : 2 * Sh ≤ S + mis) (h5 : 5 * y ≤ Sh)
    (hrest : y < k) (hmis : 11 + 4 * 2 + 4 * mis ≤ B) (hs : s ≤ mis) :
    s + 2 ≤ tfh := by
  omega

variable (hB : B ≤ 65536) (hmis : dirStart + 4 * D2 + 4 * mis ≤ B) (h : SpaceInv B p)
  (hp : ∀ it ∈ p.items, it.size ≤ mis) (hkt : kt.size ≤ mis)
  (hfull : (p.totalFree : Int) < kt.size + D2)
include hmis h hp hkt hfull

/-- A block too full for an item of at most `max_item_size` bytes holds at least two items. -/
theorem two_le_length_of_full : 2 ≤ p.dir.length := by
  have ht := h.total
  have hS := bytes_le_length_mul (l := p.dir) fun e he => hp e.2 (List.mem_map_of_mem _ he)
  rw [← used_eq] at hS
  by_contra hk
  have : p.dir.length * mis ≤ 1 * mis := Nat.mul_le_mul_right _ (by omega)
  simp only [Block.dirEnd, dirStart, D2] at ht hmis hfull
  omega

include hB

/-- After a mid-point split either half has room for the item: each holds at most
`(S + l) / 2` bytes and its own directory, and every item takes at least five bytes. -/
theorem midPoint_halves_room :
    kt.size + D2 ≤ (lowerHalf B p (midPoint B p)).totalFree ∧
      kt.size + D2 ≤ (upperHalf B p (midPoint B p)).totalFree := by
  obtain ⟨i, hi0, hik, hm, hlo, hup⟩ :=
    midPoint_splits_evenly h (two_le_length_of_full hmis h hp hkt hfull) mis hp
  obtain ⟨-, -, hL, hU, hLU, h5l, h5u⟩ := halves_accounting h hB (midPoint B p)
  have ht := h.total
  have hi : slotIndex (midPoint B p) = i := by rw [hm, slotIndex_slotOf]
  rw [hi, min_eq_left hik.le] at hL hU h5l h5u
  simp only [Block.dirEnd, dirStart, D2] at ht hmis hL hU ⊢
  exact ⟨room_of_half ht hL hlo h5l hik hmis hkt, room_of_half ht hU hup h5u (by omega) hmis hkt⟩

omit hp in
/-- After a split at the insertion slot, the lower half has room, or else the upper half has:
their free space adds up to a whole block's. -/
theorem insertPoint_half_room (c : Int) :
    kt.size + D2 ≤ (lowerHalf B p c).totalFree ∨ kt.size + D2 ≤ (upperHalf B p c).totalFree := by
  obtain ⟨-, -, hL, hU, hLU, -, -⟩ := halves_accounting h hB c
  have ht := h.total
  simp only [Block.dirEnd, dirStart, D2] at ht hmis hfull hL hU ⊢
  omega

/-- **The half `add_item` picks has room**, in either mode: after a mid-point split
(`seq_count < 0`, the item going up when `m ≤ c`) both halves have room; after a split at the
insertion slot the item goes to the lower half if it has room, and the upper half has room when
the lower has not.  The half the item does not go to is non-empty. -/
theorem split_half_room (seqCount c m : Int) (hm : m = if seqCount < 0 then midPoint B p else c)
    (up : Bool) (hup : up = if seqCount < 0 then decide (m ≤ c)
      else decide (((lowerHalf B p m).totalFree : Int) < kt.size + D2)) :
    kt.size + D2 ≤ (if up then upperHalf B p m else lowerHalf B p m).totalFree ∧
      (up = true → 0 < (lowerHalf B p m).dir.length) ∧
      (up = false → 0 < (upperHalf B p m).dir.length) := by
  obtain ⟨hl, hu, hL, hU, hLU, -, -⟩ := halves_accounting h hB m
  have ht := h.total
  have hused : ∀ b : Block, b.dir.length = 0 → b.used = 0 := fun b hb => by
    simp [Block.used, Block.items, List.length_eq_zero.1 hb]
  have hlo := hused (lowerHalf B p m)
  have hhi := hused (upperHalf B p m)
  simp only [Block.dirEnd, dirStart, D2] at ht hmis hfull hL hU
  by_cases hs : seqCount < 0
  · obtain ⟨i, hi0, hik, hmi, -, -⟩ :=
      midPoint_splits_evenly h (two_le_length_of_full hmis h hp hkt hfull) mis hp
    rw [if_pos hs] at hm
    subst hm
    have hi : slotIndex (midPoint B p) = i := by rw [hmi, slotIndex_slotOf]
    rw [hi, min_eq_left hik.le] at hl hu
    obtain ⟨hrl, hru⟩ := midPoint_halves_room hB hmis h hp hkt hfull
    refine ⟨by cases up <;> simpa, fun _ => by omega, fun _ => by omega⟩
  · rw [if_neg hs] at hm hup
    cases up
    · have hroom : ¬((lowerHalf B p m).totalFree : Int) < kt.size + D2 := by simpa using hup
      simp only [D2] at hroom ⊢
      refine ⟨by simp only [Bool.false_eq_true, if_false]; omega, nofun, fun _ => ?_⟩
      omega
    · have hfullL : ((lowerHalf B p m).totalFree : Int) < kt.size + D2 := by simpa using hup.symm
      have := insertPoint_half_room hB hmis h hkt hfull m
      simp only [D2] at hfullL this ⊢
      refine ⟨by simp only [if_true]; omega, fun _ => ?_, nofun⟩
      omega

end Room

end FlintBtree
