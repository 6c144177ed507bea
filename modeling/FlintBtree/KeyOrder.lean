import FlintBtree.Item

/-!
# The order of keys

`Key_::operator<` compares two keys in one of two ways: keys of one length in a single `memcmp`
over body and counter, others by the common part of their bodies and then by length.  Both
agree with one order, the lexicographic order on the body followed by the counter.  `Key.rank`
writes a key as a list of numbers in which that order is the lexicographic order of
`List ℕ`: every byte is shifted up by one and the body is closed by a `0`, so a proper prefix
sorts first, and the counter follows as the 16-bit value its two stored bytes hold.

## Main Results

* `Key.lt_iff_rank_lt` — **`Key_::operator<` is the lexicographic order on ranks.**
* `Key.le_iff_rank_le`, `Key.eq_iff_rank_eq` — the same for `<=` and `==`.
* `key_lt_lexicographic` — **`operator<` is the order of body, then counter**, the same-length
  `memcmp` agrees with it, and incomparability is `operator==`.

From these, `operator<` is a strict total order up to `operator==`, and everything the tree
invariant needs of it (transitivity, `a < b ≤ c → a < c`) comes from the order of `List ℕ`.
-/

namespace FlintBtree

/-- A key as a list of numbers: the body's bytes shifted up by one, a `0`, and the counter as
its two bytes store it. -/
def Key.rank (k : Key) : List Nat := k.body.map (·.toNat + 1) ++ [0, k.counter % 65536]

/-! ## `memcmp` -/

theorem lex_cons_cons {a b : Nat} {l₁ l₂ : List Nat} :
    (a :: l₁ : List Nat) < b :: l₂ ↔ a < b ∨ a = b ∧ l₁ < l₂ := by
  constructor
  · intro h
    cases h with
    | cons h => exact .inr ⟨rfl, h⟩
    | rel h => exact .inl h
  · rintro (h | ⟨rfl, h⟩)
    · exact .rel h
    · exact .cons h

/-- `memcmp` over two strings of one length is the lexicographic order of their bytes, read
through any map `f` that orders bytes as their values do. -/
theorem memcmp_eq_lt_iff {f : UInt8 → Nat} (hf : ∀ a b, f a < f b ↔ a.toNat < b.toNat) :
    ∀ {x y : List UInt8}, x.length = y.length → (memcmp x y = .lt ↔ x.map f < y.map f)
  | [], [], _ => by simp [memcmp]
  | a :: as, b :: bs, h => by
    have ih := memcmp_eq_lt_iff hf (x := as) (y := bs) (by simpa using h)
    have h₁ := hf a b; have h₂ := hf b a
    simp only [memcmp, List.map_cons, lex_cons_cons, ← ih]
    split_ifs with hab hba
    · simp [h₁.2 hab]
    · simp; omega
    · have : a = b := UInt8.toNat.inj (by omega)
      subst this; simp

/-- `memcmp` over two strings of one length finds no difference only between equal strings. -/
theorem memcmp_eq_eq_iff : ∀ {x y : List UInt8}, x.length = y.length → (memcmp x y = .eq ↔ x = y)
  | [], [], _ => by simp [memcmp]
  | a :: as, b :: bs, h => by
    have ih := memcmp_eq_eq_iff (x := as) (y := bs) (by simpa using h)
    simp only [memcmp, List.cons.injEq]
    split_ifs with h1 h2
    · simp only [reduceCtorEq, false_iff, not_and]; rintro rfl; omega
    · simp only [reduceCtorEq, false_iff, not_and]; rintro rfl; omega
    · rw [ih]; simp [UInt8.toNat.inj (by omega : a.toNat = b.toNat)]

/-- `memcmp` over concatenations whose first parts have one length. -/
theorem memcmp_append {p q u v : List UInt8} (h : p.length = q.length) :
    memcmp (p ++ u) (q ++ v) = match memcmp p q with | .eq => memcmp u v | o => o := by
  induction p generalizing q with
  | nil => cases q <;> simp_all [memcmp]
  | cons a as ih =>
    cases q with
    | nil => simp at h
    | cons b bs =>
      simp only [List.cons_append, memcmp, List.length_cons, Nat.add_right_cancel_iff] at h ⊢
      split_ifs <;> simp [ih h]

theorem memcmp_swap : ∀ x y : List UInt8, memcmp y x = (memcmp x y).swap
  | [], y => by cases y <;> rfl
  | _ :: _, [] => rfl
  | a :: as, b :: bs => by
    simp only [memcmp]
    split_ifs <;> first | omega | rfl | exact memcmp_swap as bs

theorem toNat_uint8_ofNat (n : Nat) : (UInt8.ofNat n).toNat = n % 256 := rfl

/-- Two 16-bit counters as `setint2` stores them compare as their values. -/
theorem memcmp_be2 (x y : Nat) : memcmp (be2 x) (be2 y) = .lt ↔ x % 65536 < y % 65536 := by
  simp only [be2, memcmp, toNat_uint8_ofNat]
  split_ifs <;> simp <;> omega

/-! ## Lists of numbers -/

theorem lex_append_left {p q u v : List Nat} (h : p.length = q.length) :
    p ++ u < q ++ v ↔ p < q ∨ p = q ∧ u < v := by
  induction p generalizing q with
  | nil => cases q <;> simp_all [List.Lex.not_nil_right]
  | cons a as ih =>
    cases q with
    | nil => simp at h
    | cons b bs =>
      simp only [List.cons_append, lex_cons_cons, List.cons.injEq, List.length_cons,
        Nat.add_right_cancel_iff] at h ⊢
      rw [ih h]
      tauto

theorem map_succ_injective : Function.Injective (List.map fun x : UInt8 => x.toNat + 1) :=
  List.map_injective_iff.2 fun _ _ h => UInt8.toNat.inj (by simpa using h)

/-! ## The three comparisons -/

/-- A body and a tail, cut at `k`: the rank of a key split where two keys are compared. -/
theorem map_append_split (l : List UInt8) (k : Nat) (t : List Nat) :
    l.map (·.toNat + 1) ++ t =
      (l.take k).map (·.toNat + 1) ++ ((l.drop k).map (·.toNat + 1) ++ t) := by
  rw [← List.append_assoc, ← List.map_append, List.take_append_drop]

theorem ordering_beq_lt (o : Ordering) : (o == .lt) = true ↔ o = .lt := by cases o <;> decide

theorem ordering_beq_eq (o : Ordering) : (o == .eq) = true ↔ o = .eq := by cases o <;> decide

/-- **`Key_::operator<` is the lexicographic order on ranks.** -/
theorem Key.lt_iff_rank_lt (a b : Key) : a.lt b = true ↔ a.rank < b.rank := by
  have hg : ∀ x y : UInt8, x.toNat + 1 < y.toNat + 1 ↔ x.toNat < y.toNat := fun _ _ => by omega
  unfold Key.lt Key.rank
  split_ifs with hl
  · rw [Key.bytes, Key.bytes, memcmp_append hl, lex_append_left (by simpa using hl),
      ← memcmp_eq_lt_iff hg hl, map_succ_injective.eq_iff, ordering_beq_lt]
    rcases h : memcmp a.body b.body with _ | _ | _
    · simp
    · simp [(memcmp_eq_eq_iff hl).1 h, lex_cons_cons, memcmp_be2]
    · simp only [reduceCtorEq, false_or, false_iff, not_and]
      intro he
      rw [he, (memcmp_eq_eq_iff rfl).2 rfl] at h
      cases h
  · generalize hk : min a.body.length b.body.length = k
    have hlen : (a.body.take k).length = (b.body.take k).length := by
      simp only [List.length_take]; omega
    rw [map_append_split a.body k, map_append_split b.body k, lex_append_left (by simpa using hlen),
      ← memcmp_eq_lt_iff hg hlen, map_succ_injective.eq_iff]
    rcases h : memcmp (a.body.take k) (b.body.take k) with _ | _ | _ <;> simp only [h]
    · exact iff_of_true rfl (.inl trivial)
    · simp only [(memcmp_eq_eq_iff hlen).1 h, reduceCtorEq, false_or, true_and, decide_eq_true_eq]
      rcases Nat.lt_or_gt_of_ne hl with hlt | hgt
      · obtain ⟨x, xs, hx⟩ := List.exists_cons_of_ne_nil (l := b.body.drop k) (by simp; omega)
        simp [List.drop_eq_nil_of_le (by omega : a.body.length ≤ k), hx, lex_cons_cons, hlt]
      · obtain ⟨x, xs, hx⟩ := List.exists_cons_of_ne_nil (l := a.body.drop k) (by simp; omega)
        simp only [List.drop_eq_nil_of_le (by omega : b.body.length ≤ k), hx, List.map_cons,
          List.map_nil, List.nil_append, List.cons_append, lex_cons_cons]
        omega
    · have h' : memcmp (b.body.take k) (a.body.take k) = .lt := by rw [memcmp_swap, h]; rfl
      rw [memcmp_eq_lt_iff hg hlen.symm] at h'
      simp only [reduceCtorEq, false_or, false_iff, not_and, ordering_beq_lt]
      intro he
      rw [he] at h'
      exact absurd h' (lt_irrefl _)

/-- `Key_::operator<=` is the order of ranks. -/
theorem Key.le_iff_rank_le (a b : Key) : a.le b = true ↔ a.rank ≤ b.rank := by
  rw [Key.le, Bool.not_eq_true', ← Bool.not_eq_true, Key.lt_iff_rank_lt, not_lt]

theorem be2_eq_iff (x y : Nat) : be2 x = be2 y ↔ x % 65536 = y % 65536 := by
  simp only [be2, List.cons.injEq, and_true]
  constructor
  · rintro ⟨h₁, h₂⟩
    have := congrArg UInt8.toNat h₁; have := congrArg UInt8.toNat h₂
    simp only [toNat_uint8_ofNat] at *
    omega
  · intro h
    exact ⟨UInt8.toNat.inj (by simp only [toNat_uint8_ofNat]; omega),
      UInt8.toNat.inj (by simp only [toNat_uint8_ofNat]; omega)⟩

/-- `Key_::operator==` is equality of ranks. -/
theorem Key.eq_iff_rank_eq (a b : Key) : a.eq b = true ↔ a.rank = b.rank := by
  unfold Key.eq Key.rank
  by_cases hl : a.body.length = b.body.length
  · have hb : a.bytes.length = b.bytes.length := by simp [Key.bytes, be2, hl]
    rw [Bool.and_eq_true, beq_iff_eq, ordering_beq_eq, memcmp_eq_eq_iff hb, Key.bytes, Key.bytes]
    constructor
    · rintro ⟨-, he⟩
      obtain ⟨h₁, h₂⟩ := List.append_inj' he (by simp [be2])
      rw [h₁, (be2_eq_iff _ _).1 h₂]
    · intro he
      obtain ⟨h₁, h₂⟩ := List.append_inj' he rfl
      simp only [List.cons.injEq, true_and, and_true] at h₂
      exact ⟨hl, by rw [map_succ_injective h₁, (be2_eq_iff _ _).2 h₂]⟩
  · have hf : (a.body.length == b.body.length) = false := by simpa using hl
    simp only [hf, Bool.false_and, Bool.false_eq_true, false_iff]
    intro he
    exact hl (by simpa using congrArg List.length he)

/-! ## The order of body and counter -/

instance decidableBytesLt (x y : List UInt8) : Decidable (x < y) :=
  inferInstanceAs (Decidable (List.Lex (· < ·) x y))

/-- `(body(a), counter(a))` before `(body(b), counter(b))` lexicographically: the bodies as
unsigned byte strings, a proper prefix first, then the counters as numbers. -/
def Key.Precedes (a b : Key) : Prop := a.body < b.body ∨ a.body = b.body ∧ a.counter < b.counter

instance (a b : Key) : Decidable (a.Precedes b) := inferInstanceAs (Decidable (_ ∨ _))

theorem uint8_cons_lt_cons {a b : UInt8} {as bs : List UInt8} :
    (a :: as : List UInt8) < b :: bs ↔ a.toNat < b.toNat ∨ a = b ∧ as < bs := by
  constructor
  · intro h
    cases h with
    | cons h => exact .inr ⟨rfl, h⟩
    | rel h => exact .inl h
  · rintro (h | ⟨rfl, h⟩)
    · exact .rel h
    · exact .cons h

theorem bytes_not_lt_nil (x : List UInt8) : ¬x < [] := List.Lex.not_nil_right _ _

theorem bytes_nil_lt_cons (b : UInt8) (bs : List UInt8) : ([] : List UInt8) < b :: bs :=
  List.Lex.nil

/-- Bodies closed by a `0` compare as the bodies do, and equal bodies as what follows them. -/
theorem lex_map_append_zero {u v : List Nat} :
    ∀ {x y : List UInt8}, x.map (·.toNat + 1) ++ 0 :: u < y.map (·.toNat + 1) ++ 0 :: v ↔
      x < y ∨ x = y ∧ u < v
  | [], [] => by simp [lex_cons_cons, bytes_not_lt_nil]
  | [], b :: bs => by simp [lex_cons_cons, bytes_nil_lt_cons]
  | a :: as, [] => by simp [lex_cons_cons, bytes_not_lt_nil]
  | a :: as, b :: bs => by
    simp only [List.map_cons, List.cons_append, lex_cons_cons, uint8_cons_lt_cons,
      lex_map_append_zero, List.cons.injEq, Nat.add_right_cancel_iff]
    constructor
    · rintro (h | ⟨h, h' | ⟨rfl, h'⟩⟩)
      · exact .inl (.inl (by omega))
      · exact .inl (.inr ⟨UInt8.toNat.inj h, h'⟩)
      · exact .inr ⟨⟨UInt8.toNat.inj h, rfl⟩, h'⟩
    · rintro ((h | ⟨rfl, h⟩) | ⟨⟨rfl, rfl⟩, h⟩)
      · exact .inl (by omega)
      · exact .inr ⟨rfl, .inl h⟩
      · exact .inr ⟨rfl, .inr ⟨rfl, h⟩⟩

theorem Key.rank_lt_iff (a b : Key) :
    a.rank < b.rank ↔ a.body < b.body ∨ a.body = b.body ∧ a.counter % 65536 < b.counter % 65536 := by
  rw [Key.rank, Key.rank, lex_map_append_zero, lex_cons_cons]
  simp

theorem Key.rank_eq_iff (a b : Key) :
    a.rank = b.rank ↔ a.body = b.body ∧ a.counter % 65536 = b.counter % 65536 := by
  constructor
  · intro h
    obtain ⟨h₁, h₂⟩ := List.append_inj' h rfl
    exact ⟨map_succ_injective h₁, by simpa using h₂⟩
  · rintro ⟨h₁, h₂⟩
    rw [Key.rank, Key.rank, h₁, h₂]

/-- **`Key_::operator<` is the lexicographic order on body and counter.**  For keys with
16-bit counters, `operator<` holds exactly when the body of `a` comes first as an unsigned byte
string (a proper prefix first), or the bodies are equal and the counter of `a` is smaller; the
one `memcmp` of the same-length path decides the same; `operator==` is equality of body and
counter.  `operator<` is irreflexive and transitive, and two keys are incomparable exactly
when `operator==` holds. -/
theorem key_lt_lexicographic (a b c : Key) (ha : a.counter < 65536) (hb : b.counter < 65536) :
    (a.lt b = true ↔ a.Precedes b) ∧
      (a.body.length = b.body.length → (memcmp a.bytes b.bytes = .lt ↔ a.Precedes b)) ∧
      (a.eq b = true ↔ a.body = b.body ∧ a.counter = b.counter) ∧
      a.lt a = false ∧ (a.lt b = true → b.lt c = true → a.lt c = true) ∧
      (a.lt b = false ∧ b.lt a = false ↔ a.eq b = true) := by
  have hprec : a.Precedes b ↔ a.rank < b.rank := by
    rw [Key.rank_lt_iff, Nat.mod_eq_of_lt ha, Nat.mod_eq_of_lt hb]
    rfl
  have hlt := (Key.lt_iff_rank_lt a b).trans hprec.symm
  refine ⟨hlt, fun hl => ?_, ?_, ?_, ?_, ?_⟩
  · rw [← ordering_beq_lt, ← hlt, Key.lt, if_pos hl]
  · rw [Key.eq_iff_rank_eq, Key.rank_eq_iff, Nat.mod_eq_of_lt ha, Nat.mod_eq_of_lt hb]
  · rw [Bool.eq_false_iff, ne_eq, Key.lt_iff_rank_lt]
    exact lt_irrefl _
  · simp only [Key.lt_iff_rank_lt]
    exact lt_trans
  · rw [Key.eq_iff_rank_eq, Bool.eq_false_iff, Bool.eq_false_iff, ne_eq, ne_eq,
      Key.lt_iff_rank_lt, Key.lt_iff_rank_lt, not_lt, not_lt]
    exact ⟨fun h => le_antisymm h.2 h.1, fun h => ⟨h.ge, h.le⟩⟩

/-- Keys `a` and `ab` with counter 1: the prefix comes first. -/
theorem key_lt_prefix_first :
    (⟨[97], 1⟩ : Key).counter < 65536 ∧ (⟨[97, 98], 1⟩ : Key).counter < 65536 ∧
      (Key.lt ⟨[97], 1⟩ ⟨[97, 98], 1⟩ = true ↔ Key.Precedes ⟨[97], 1⟩ ⟨[97, 98], 1⟩) :=
  ⟨by decide, by decide, (key_lt_lexicographic ⟨[97], 1⟩ ⟨[97, 98], 1⟩ ⟨[98], 0⟩ (by decide)
    (by decide)).1⟩

end FlintBtree
