import FlintBtree.Space
import FlintBtree.KeyOrder
import FlintBtree.Mutate

/-!
# Searching a block

`find_in_block(p, key, leaf, c)` finds the directory slot of the last key `<= key` by a binary
chop over the bracket `[i, j)` of slots, `i` starting at `DIR_START` (one slot lower in a leaf,
whose first key is real) and `j` at `DIR_END`.  A hint `c` first narrows the bracket to
`[c, c + 2)` as far as the keys at `c` and `c + 2` allow; this is what makes sequential insertion
cheap.

## Main Results

* `findInBlock_last_le` — on a block whose keys increase, for every key and every hint `-1`, `0`
  or odd, `find_in_block` returns the slot it returns without a hint, and that slot is the last
  one whose key is `<= key`, or the slot before the first when there is none.
* `enterKey_hands_separator` — the item `enter_key` hands `add_item` is `separatorItem`.
* `enterKey_separator` — that separator sorts above the previous key and at or below the new one,
  so a search for a key on either side goes the right way, and it fits `enter_key`'s buffer.

## Design Notes

The chop keeps the answer inside its bracket: with the slots written `slotOf a - 2`, the
bracket `[slotOf a - 2, slotOf b - 2)` holds the answer `slotOf (first + n) - 2` (the entries from
index `first` on with keys `<= key` are the first `n`) when `a ≤ first + n < b`.  One step halves
`b - a`, so the fuel `DIR_END` the model gives the loop is more than it uses.
-/

namespace FlintBtree

open Block

/-! ## Where the keys at most `key` end -/

/-- In a strictly increasing run of keys those at most `key` come first. -/
theorem exists_cut (key : Key) : ∀ {l : List Key}, l.Pairwise (fun a b => a.lt b = true) →
    ∃ n ≤ l.length, ∀ i (h : i < l.length), (l[i].le key = true ↔ i < n)
  | [], _ => ⟨0, le_rfl, fun _ h => absurd h (Nat.not_lt_zero _)⟩
  | a :: l, hs => by
    obtain ⟨ha, hl⟩ := List.pairwise_cons.1 hs
    obtain ⟨n, hn, hcut⟩ := exists_cut key hl
    by_cases hak : a.le key = true
    · refine ⟨n + 1, by simp only [List.length_cons]; omega, fun i h => ?_⟩
      cases i with
      | zero => simpa using hak
      | succ i => simpa using hcut i (by simpa using h)
    · refine ⟨0, Nat.zero_le _, fun i h => ?_⟩
      cases i with
      | zero => simpa using hak
      | succ i =>
        -- `key < a < l[i]`, so `l[i]` is above `key`
        simp only [List.getElem_cons_succ, Nat.not_lt_zero, iff_false, Key.le_iff_rank_le]
        rw [Key.le_iff_rank_le, not_le] at hak
        exact not_le.2 (hak.trans ((Key.lt_iff_rank_lt _ _).1 (ha _ (List.getElem_mem _))))

/-- The entries from index `first` on whose keys are at most `key`, when the keys there increase,
are the first `n` of them for some `n`. -/
theorem exists_cut_from {p : Block} {first : Nat} (key : Key) (hfirst : first ≤ p.dir.length)
    (hs : ((p.dir.drop first).map (·.2.keyOf)).Pairwise (fun a b => a.lt b = true)) :
    ∃ n, first + n ≤ p.dir.length ∧ ∀ i (h : i < p.dir.length), first ≤ i →
      (p.dir[i].2.keyOf.le key = true ↔ i < first + n) := by
  obtain ⟨n, hn, hcut⟩ := exists_cut key hs
  simp only [List.length_map, List.length_drop] at hn
  refine ⟨n, by omega, fun i h hi => ?_⟩
  have := hcut (i - first) (by simp only [List.length_map, List.length_drop]; omega)
  simp only [List.getElem_map, List.getElem_drop, Nat.add_sub_cancel' hi] at this
  rw [this]
  omega

/-- `r` is the last slot, from directory index `first` on, whose key is at most `key`, or the
slot before index `first` when there is none: the entries from `first` on with keys at most
`key` are exactly the first `n`, and `r` is the slot of the last of them. -/
def LastSlotLe (p : Block) (key : Key) (first : Nat) (r : Int) : Prop :=
  ∃ n, first + n ≤ p.dir.length ∧ r = slotOf (first + n) - D2 ∧
    ∀ i (h : i < p.dir.length), first ≤ i → (p.dir[i].2.keyOf.le key = true ↔ i < first + n)

theorem itemAt_slotOf {p : Block} {i : Nat} (h : i < p.dir.length) :
    p.itemAt (slotOf i) = p.dir[i].2 := by
  simp [Block.itemAt, List.getElem?_eq_getElem h]

/-! ## The chop -/

section Chop

variable {p : Block} {key : Key} {first n : Nat}
  (hcut : ∀ i (h : i < p.dir.length), first ≤ i → (p.dir[i].2.keyOf.le key = true ↔ i < first + n))
include hcut

/-- The key at slot `slotOf c - 2`, for `first < c ≤ k`, is at most `key` exactly when
`c ≤ first + n`. -/
theorem le_key_at {c : Nat} (hc : first < c) (hck : c ≤ p.dir.length) :
    (p.itemAt (slotOf c - D2)).keyOf.le key = true ↔ c ≤ first + n := by
  have hs : slotOf c - D2 = slotOf (c - 1) := by simp only [slotOf, D2]; omega
  rw [hs, itemAt_slotOf (by omega), hcut _ _ (by omega)]
  omega

/-- **The chop keeps the answer in its bracket** and ends on it. -/
theorem chop_spec : ∀ (fuel a b : Nat), first ≤ a → a ≤ first + n → first + n < b →
    b ≤ p.dir.length + 1 → b ≤ a + fuel + 1 →
    chop p key fuel (slotOf a - D2) (slotOf b - D2) = slotOf (first + n) - D2
  | 0, a, b, _, ha, hb, _, hf => by
    rw [chop, show a = first + n by omega]
  | fuel + 1, a, b, h0, ha, hb, hbk, hf => by
    have hk : slotOf a - D2 + (slotOf b - D2 - (slotOf a - D2)) / (D2 * 2) * D2 =
        slotOf (a + (b - a) / 2) - D2 := by
      simp only [slotOf, D2]; omega
    simp only [chop, hk]
    split_ifs with h1 h2
    · -- the key is below the middle: the bracket's top comes down to it
      have hle : ¬(a + (b - a) / 2 ≤ first + n) := by
        rw [← le_key_at hcut (by simp only [slotOf, D2] at h1; omega) (by omega), Key.le, h2]
        decide
      exact chop_spec fuel a _ h0 ha (by omega) (by omega) (by simp only [slotOf, D2] at h1; omega)
    · -- the middle key is at most the key: the bracket's bottom goes up to it
      have hle : a + (b - a) / 2 ≤ first + n := by
        rw [← le_key_at hcut (by simp only [slotOf, D2] at h1; omega) (by omega), Key.le]
        simpa using h2
      exact chop_spec fuel _ b (by omega) hle hb hbk (by simp only [slotOf, D2] at h1; omega)
    · rw [show a = first + n by simp only [slotOf, D2] at h1; omega]

end Chop

/-! ## The hint -/

section Hint

variable {p : Block} {key : Key} {first n : Nat} {c : Int}
  (hcut : ∀ i (h : i < p.dir.length), first ≤ i → (p.dir[i].2.keyOf.le key = true ↔ i < first + n))
  (hn : first + n ≤ p.dir.length) (hc : c = -1 ∨ c = 0 ∨ c % 2 = 1)
include hcut hn hc

omit hcut in
/-- A hint `-1`, `0` or odd that passes the tests for the bottom of the bracket is a slot above
the sentinel. -/
theorem hint_slot (h1 : c ≠ -1) (h2 : slotOf first - D2 < c) (h3 : c < (p.dirEnd : Int)) :
    ∃ a : Nat, first < a ∧ a ≤ p.dir.length ∧ c = slotOf a - D2 := by
  refine ⟨((c - 9) / 2).toNat, ?_⟩
  simp only [slotOf, D2, Block.dirEnd, dirStart] at h2 h3 ⊢
  omega

/-- The bottom of the bracket after the hint is still at or below the answer. -/
theorem hint_bottom :
    ∃ a, first ≤ a ∧ a ≤ first + n ∧
      (if c ≠ -1 ∧ c < (p.dirEnd : Int) ∧ slotOf first - D2 < c ∧ (p.itemAt c).keyOf.le key = true
        then c else slotOf first - D2) = slotOf a - D2 := by
  split_ifs with h
  · obtain ⟨h1, h3, h2, hle⟩ := h
    obtain ⟨a, ha, hak, rfl⟩ := hint_slot hn hc h1 h2 h3
    exact ⟨a, ha.le, (le_key_at hcut ha hak).1 hle, rfl⟩
  · exact ⟨first, le_rfl, by omega, rfl⟩

/-- The top of the bracket after the hint is still above the answer. -/
theorem hint_top (a : Nat) (ha : first ≤ a) :
    ∃ b, first + n < b ∧ b ≤ p.dir.length + 1 ∧
      (if c ≠ -1 ∧ c + D2 < (p.dirEnd : Int) ∧ slotOf a - D2 < c + D2 ∧
          key.lt (p.itemAt (c + D2)).keyOf = true
        then c + D2 else (p.dirEnd : Int)) = slotOf b - D2 := by
  split_ifs with h
  · obtain ⟨h1, h3, h2, hlt⟩ := h
    simp only [slotOf, D2, dirStart] at h2
    have h2' : slotOf first - D2 < c + D2 := by simp only [slotOf, D2, dirStart]; omega
    have hodd : c + D2 = -1 ∨ c + D2 = 0 ∨ (c + D2) % 2 = 1 := by simp only [D2]; omega
    obtain ⟨b, hb, hbk, hcb⟩ := hint_slot hn hodd (by simp only [D2]; omega) h2' h3
    refine ⟨b, ?_, by omega, hcb⟩
    have := (le_key_at hcut hb hbk).not
    rw [← hcb, Key.le, hlt] at this
    exact not_le.1 (this.1 (by decide))
  · exact ⟨p.dir.length + 1, by omega, le_rfl, by simp only [slotOf, D2, Block.dirEnd]; omega⟩

/-- `find_in_block` with a hint `-1`, `0` or odd returns the answer. -/
theorem findInBlock_eq (leaf : Bool) (hfirst : first = if leaf then 0 else 1) :
    findInBlock p key leaf c = slotOf (first + n) - D2 := by
  have hi₀ : (if leaf then (dirStart : Int) - D2 else dirStart) = slotOf first - D2 := by
    subst hfirst; cases leaf <;> simp [slotOf, D2]
  unfold findInBlock
  simp only [hi₀]
  obtain ⟨a, ha0, ha, hia⟩ := hint_bottom hcut hn hc
  rw [hia]
  obtain ⟨b, hb, hbk, hjb⟩ := hint_top hcut hn hc a ha0
  rw [hjb]
  exact chop_spec hcut _ a b ha0 ha hb hbk (by simp only [Block.dirEnd, dirStart, D2]; omega)

end Hint

/-- **`find_in_block` finds the last key at most the search key.**  Take a block whose keys
increase from the first slot of a leaf, or from the second of a non-empty internal block, and a
hint `c` of `-1`, `0` or an odd value.  `find_in_block` returns what it returns without a hint,
the last slot whose key is `<= key`, or `DIR_START - 2` in a leaf and `DIR_START` in an internal
block when there is none. -/
theorem findInBlock_last_le (p : Block) (key : Key) (leaf : Bool) (c : Int)
    (hs : ((p.dir.drop (if leaf then 0 else 1)).map (·.2.keyOf)).Pairwise
      (fun a b => a.lt b = true))
    (hne : leaf = false → p.dir ≠ []) (hc : c = -1 ∨ c = 0 ∨ c % 2 = 1) :
    findInBlock p key leaf c = findInBlock p key leaf (-1) ∧
      LastSlotLe p key (if leaf then 0 else 1) (findInBlock p key leaf (-1)) := by
  have hfirst : (if leaf then 0 else 1) ≤ p.dir.length := by
    cases leaf
    · exact List.length_pos.2 (hne rfl)
    · exact Nat.zero_le _
  obtain ⟨n, hn, hcut⟩ := exists_cut_from key hfirst hs
  rw [findInBlock_eq hcut hn hc leaf rfl, findInBlock_eq hcut hn (.inl rfl) leaf rfl]
  exact ⟨rfl, n, hn, rfl, hcut⟩

/-- The chop never goes below the bottom of its bracket. -/
theorem le_chop (p : Block) (key : Key) : ∀ fuel (i j : Int), i ≤ chop p key fuel i j
  | 0, _, _ => le_rfl
  | fuel + 1, i, j => by
    simp only [chop]
    split_ifs
    · exact le_chop p key fuel i _
    · exact le_trans (by simp only [D2] at *; omega) (le_chop p key fuel _ j)
    · exact le_rfl

/-- A branch search returns at least `DIR_START`, whatever the hint. -/
theorem dirStart_le_findInBlock (p : Block) (key : Key) (c : Int) :
    (dirStart : Int) ≤ findInBlock p key false c := by
  unfold findInBlock
  refine le_trans ?_ (le_chop p key _ _ _)
  simp only [Bool.false_eq_true, if_false]
  split_ifs with h
  · exact h.2.2.1.le
  · exact le_rfl

/-! ## Separators -/

/-- `matchLen` is the length of the longest common prefix of two bodies: they agree before it,
and differ at it unless one of them ends there. -/
theorem matchLen_spec : ∀ a b : List UInt8,
    a.take (matchLen a b) = b.take (matchLen a b) ∧ matchLen a b ≤ a.length ∧
      matchLen a b ≤ b.length ∧ ∀ x y, a[matchLen a b]? = some x → b[matchLen a b]? = some y → x ≠ y
  | [], _ => by simp [matchLen]
  | _ :: _, [] => by simp [matchLen]
  | x :: as, y :: bs => by
    by_cases h : x = y
    · obtain ⟨h1, h2, h3, h4⟩ := matchLen_spec as bs
      simp only [matchLen, h, if_true, List.take_succ_cons, h1, List.length_cons,
        List.getElem?_cons_succ]
      exact ⟨trivial, by omega, by omega, h4⟩
    · simp only [matchLen, h, if_false, List.take_zero, List.length_cons, List.getElem?_cons_zero,
        Option.some.injEq]
      exact ⟨trivial, by omega, by omega, fun _ _ hx hy => hx ▸ hy ▸ h⟩

theorem matchLen_self : ∀ a : List UInt8, matchLen a a = a.length
  | [] => rfl
  | x :: as => by simp [matchLen, matchLen_self as]

/-- A proper prefix sorts first. -/
theorem take_lt_self : ∀ (k : Nat) (y : List UInt8), k < y.length → y.take k < y
  | 0, _ :: _, _ => List.Lex.nil
  | k + 1, _ :: bs, h => uint8_cons_lt_cons.2 (.inr ⟨rfl, take_lt_self k bs (by simpa using h)⟩)

/-- The body of a level-1 separator, the part of `b` it shares with `a` and one byte more, sorts
after `a` when `b` does. -/
theorem lt_take_separator : ∀ a b : List UInt8, a < b →
    a < b.take (if matchLen a b < b.length then matchLen a b + 1 else matchLen a b)
  | [], [], h => absurd h (List.Lex.not_nil_right _ _)
  | [], _ :: _, _ => by simpa [matchLen] using List.Lex.nil
  | _ :: _, [], h => absurd h (List.Lex.not_nil_right _ _)
  | x :: as, y :: bs, h => by
    by_cases hxy : x = y
    · subst hxy
      have ih := lt_take_separator as bs ((uint8_cons_lt_cons.1 h).resolve_left (lt_irrefl _)).2
      simp only [matchLen, if_true, List.length_cons, Nat.add_lt_add_iff_right]
      split_ifs at ih ⊢ <;> exact uint8_cons_lt_cons.2 (.inr ⟨rfl, ih⟩)
    · have hlt := (uint8_cons_lt_cons.1 h).resolve_right fun h => hxy h.1
      simpa [matchLen, hxy] using uint8_cons_lt_cons.2 (.inl hlt)

/-- The item `enter_key` hands `add_item` is `separatorItem`, for the block the cursor holds one
level down: `enter_key` with any `add_item` does what it does with one that ignores its item and
enters that one. -/
theorem enterKey_hands_separator (addItem : Item → Nat → M Unit) (j : Nat) (prevkey newkey : Key)
    (t : Table) :
    enterKey addItem j prevkey newkey t =
      enterKey (fun _ j' => addItem (separatorItem j prevkey newkey (t.C (j - 1)).block) j') j
        prevkey newkey t :=
  rfl

/-- **The separator `enter_key` builds.**  For keys `prevkey < newkey` (bodies of at most 252
bytes), the key `s` of the separator item lies in `(prevkey, newkey]`: its body is a prefix of
`newkey`'s and its counter is `newkey`'s; at level 1 the body is the common prefix of the two
bodies (`matchLen_spec`) and one byte more, or all of `newkey`'s, and above level 1 `s` is
`newkey`.  The item fits `enter_key`'s 261-byte buffer, a search for a key at most `prevkey`
goes left of `s`, and one for a key at least `newkey` goes right of it. -/
theorem enterKey_separator (j : Nat) (prevkey newkey : Key) (n : Nat)
    (hlt : prevkey.lt newkey = true) (hlen : newkey.body.length ≤ 252) :
    let s := (separatorItem j prevkey newkey n).keyOf
    prevkey.lt s = true ∧ s.le newkey = true ∧ s.body <+: newkey.body ∧
      s.counter = newkey.counter ∧
      (j = 1 → s.body.length = min (matchLen prevkey.body newkey.body + 1) newkey.body.length) ∧
      (j ≠ 1 → s = newkey) ∧
      (separatorItem j prevkey newkey n).size ≤ 261 ∧
      (∀ k : Key, k.le prevkey = true → k.lt s = true) ∧
      (∀ k : Key, newkey.le k = true → s.le k = true) := by
  intro s
  have hs : s = ⟨newkey.body.take (separatorLength j prevkey newkey), newkey.counter⟩ := rfl
  obtain ⟨-, hm, hm', -⟩ := matchLen_spec prevkey.body newkey.body
  -- the separator's body is `newkey`'s, or sorts between the two bodies
  have hbody : (prevkey.body < s.body ∧ s.body < newkey.body) ∨ s = newkey := by
    rw [Key.lt_iff_rank_lt, Key.rank_lt_iff] at hlt
    by_cases hj : j = 1
    · simp only [hs, separatorLength, hj, if_true]
      rcases hlt with hlt | ⟨he, -⟩
      · by_cases hfull : (if matchLen prevkey.body newkey.body < newkey.body.length
            then matchLen prevkey.body newkey.body + 1 else matchLen prevkey.body newkey.body) <
            newkey.body.length
        · exact .inl ⟨lt_take_separator _ _ hlt, take_lt_self _ _ hfull⟩
        · exact .inr (by rw [List.take_of_length_le (by omega)])
      · exact .inr (by rw [he, matchLen_self]; simp)
    · exact .inr (by simp [hs, separatorLength, hj])
  have hrank : prevkey.rank < s.rank ∧ s.rank ≤ newkey.rank := by
    rcases hbody with ⟨h1, h2⟩ | he
    · exact ⟨(Key.rank_lt_iff _ _).2 (.inl h1), ((Key.rank_lt_iff _ _).2 (.inl h2)).le⟩
    · exact ⟨he ▸ (Key.lt_iff_rank_lt _ _).1 hlt, he ▸ le_rfl⟩
  refine ⟨(Key.lt_iff_rank_lt _ _).2 hrank.1, (Key.le_iff_rank_le _ _).2 hrank.2,
    List.take_prefix _ _, rfl, fun hj => ?_, fun hj => by simp [hs, separatorLength, hj],
    by rw [separatorItem, Item.size_setKeyAndBlock]; omega,
    fun k hk => (Key.lt_iff_rank_lt _ _).2 (((Key.le_iff_rank_le _ _).1 hk).trans_lt hrank.1),
    fun k hk => (Key.le_iff_rank_le _ _).2 (hrank.2.trans ((Key.le_iff_rank_le _ _).1 hk))⟩
  simp only [hs, separatorLength, hj, if_true, List.length_take]
  split_ifs <;> omega

theorem separator_a_abc :
    Key.lt ⟨[97], 1⟩ ⟨[97, 98, 99], 1⟩ = true ∧ ([97, 98, 99] : List UInt8).length ≤ 252 ∧
      let s := (separatorItem 1 ⟨[97], 1⟩ ⟨[97, 98, 99], 1⟩ 7).keyOf
      Key.lt ⟨[97], 1⟩ s = true ∧ s.le ⟨[97, 98, 99], 1⟩ = true ∧ s.body <+: [97, 98, 99] ∧
        s.counter = 1 ∧
        (1 = 1 → s.body.length = min (matchLen [97] [97, 98, 99] + 1) [97, 98, 99].length) ∧
        (1 ≠ 1 → s = ⟨[97, 98, 99], 1⟩) ∧
        (separatorItem 1 ⟨[97], 1⟩ ⟨[97, 98, 99], 1⟩ 7).size ≤ 261 ∧
        (∀ k : Key, k.le ⟨[97], 1⟩ = true → k.lt s = true) ∧
        (∀ k : Key, Key.le ⟨[97, 98, 99], 1⟩ k = true → s.le k = true) :=
  ⟨by decide, by decide, enterKey_separator 1 ⟨[97], 1⟩ ⟨[97, 98, 99], 1⟩ 7 (by decide) (by decide)⟩

/-- A leaf with keys `a` and `b`. -/
def leafAB : Block :=
  ⟨1, 0, 0, 0, [(0, ⟨some ⟨[97], 1⟩, .chunk 1 false []⟩), (0, ⟨some ⟨[98], 1⟩, .chunk 1 false []⟩)]⟩

theorem leafAB_hint_finds_a :
    ((leafAB.dir.drop 0).map (·.2.keyOf)).Pairwise (fun a b => a.lt b = true) ∧
      (13 : Int) % 2 = 1 ∧
      findInBlock leafAB ⟨[97, 5], 0⟩ true 13 = findInBlock leafAB ⟨[97, 5], 0⟩ true (-1) ∧
      LastSlotLe leafAB ⟨[97, 5], 0⟩ 0 (findInBlock leafAB ⟨[97, 5], 0⟩ true (-1)) :=
  ⟨by decide, by decide,
    findInBlock_last_le leafAB ⟨[97, 5], 0⟩ true 13 (by decide) nofun (.inr (.inr (by decide)))⟩

end FlintBtree
