import FlintBtree.Scan
import FlintBtree.Run

/-!
# The sequential scans against the tree walk

`next_for_sequential` and `prev_for_sequential` do not walk the tree: at the end of a leaf they
read the data file block by block, from the leaf's number up to `last_block` or down to block 0,
and stop at the first block of level 0.  That is the tree's next leaf only when the blocks lie as
a table built by ascending insertion lays them out.  `SeqLayout` names that layout: a scan gets
past every block up to `last_block` (each is there and passes its revision check), and the blocks
it stops at, in increasing block number, are the tree's leaves in key order.

## Main Results

* `sequential_scans_agree` — under that layout, for any cursor whose levels are a path of the
  tree, `next_for_sequential(C_, 0)` and `next_default(C_, 0)` return the same value and leave
  level 0 of the cursor on the same block and slot, and so do `prev_for_sequential` and
  `prev_default`.
* `sequential_scan_reads_discarded_revision` — the `sequential` flag does not give the layout: a
  reader of a revision whose base has it set, once a writer has reused a block of that revision,
  gets `DatabaseModifiedError` from `next_for_sequential` where `next_default` returns false.

## Design Notes

A scan loads each block it reads into the buffer of the cursor's level 0 and changes nothing
else (`Rebuffered`).  What it finds at a block number is read off the table it starts from
(`Table.seqBlock`): the one block whose copy a scan overwrites is the built-in cursor's own leaf,
and a scan that starts from that leaf never comes back to it.
-/

namespace FlintBtree

/-! ## What a scan reads -/

/-- What the scans of `next_for_sequential` and `prev_for_sequential` load at block `n`, by the
rules of `seqLoad`: nothing when a level above the leaves of a writer's built-in cursor holds `n`,
otherwise the block `block_to_cursor` would find at level 0 (`none` inside when there is none). -/
def Table.seqBlock (t : Table) (n : Nat) : Option (Option Block) :=
  if t.writable = true ∧ some n ≠ (t.C 0).n ∧
      ((List.range t.level).any fun j => some n = (t.C (j + 1)).n) = true then none
  else some (t.look 0 n)

/-- Whether a scan stops at block `n`: it loads a leaf there. -/
def Table.seqLeaf (t : Table) (n : Nat) : Bool :=
  match t.seqBlock n with
  | some (some b) => b.level == 0
  | _ => false

/-- Whether a scan gets past block `n`: it skips it, or loads a block there that `seqCheck`
passes, one not newer than the revision being read (plus one for a writer). -/
def Table.seqFresh (t : Table) (n : Nat) : Bool :=
  match t.seqBlock n with
  | none => true
  | some none => false
  | some (some b) => !decide (uint4 (t.revisionNumber + if t.writable then 1 else 0) < b.revision)

/-- The block layout the sequential scans rely on, for the tree a cursor walks: a scan gets past
every block numbered up to `last_block`, and the blocks it stops at, in increasing block number,
are the tree's leaves in key order. -/
structure SeqLayout (t : Table) (v : View) (L R : Nat) : Prop where
  fresh : ∀ n ≤ t.base.lastBlock, t.seqFresh n = true
  leaves : (List.range (t.base.lastBlock + 1)).filter t.seqLeaf = v.blocksAt L R 0

instance (t : Table) (v : View) (L R : Nat) : Decidable (SeqLayout t v L R) :=
  decidable_of_iff ((∀ n ≤ t.base.lastBlock, t.seqFresh n = true) ∧
      (List.range (t.base.lastBlock + 1)).filter t.seqLeaf = v.blocksAt L R 0)
    ⟨fun h => ⟨h.1, h.2⟩, fun h => ⟨h.1, h.2⟩⟩

/-- What a forward scan from block `n` returns: the first block after `n`, up to `last_block`,
that it stops at, with the leaf it loaded there, or `none` when there is none. -/
def Table.NextScan (t : Table) (n : Nat) : Option (Nat × Block) → Prop
  | none => ∀ m, n < m → m ≤ t.base.lastBlock → t.seqLeaf m = false
  | some (m, b) => n < m ∧ m ≤ t.base.lastBlock ∧ t.seqBlock m = some (some b) ∧ b.level = 0 ∧
      ∀ k, n < k → k < m → t.seqLeaf k = false

/-- What a backward scan from block `n` returns: the last block before `n` that it stops at, with
the leaf it loaded there, or `none` when there is none. -/
def Table.PrevScan (t : Table) (n : Nat) : Option (Nat × Block) → Prop
  | none => ∀ m < n, t.seqLeaf m = false
  | some (m, b) => m < n ∧ t.seqBlock m = some (some b) ∧ b.level = 0 ∧
      ∀ k, m < k → k < n → t.seqLeaf k = false

section Scan

variable {t s : Table} {r : CursorRef} {m n : Nat}

theorem Table.seqLeaf_of_seqBlock {b : Block} (h : t.seqBlock m = some (some b)) :
    t.seqLeaf m = (b.level == 0) := by
  simp [Table.seqLeaf, h]

theorem Table.NextScan.of_succ {res : Option (Nat × Block)} (h : t.NextScan (n + 1) res)
    (hn : t.seqLeaf (n + 1) = false) : t.NextScan n res := by
  match res, h with
  | none, h => exact fun k hk hkl => (Nat.eq_or_lt_of_le hk).elim (· ▸ hn) (h k · hkl)
  | some (m, b), ⟨hm, hml, hb, hl, hk⟩ =>
    exact ⟨by omega, hml, hb, hl, fun k h1 h2 => (Nat.eq_or_lt_of_le h1).elim (· ▸ hn) (hk k · h2)⟩

theorem Table.PrevScan.of_pred {res : Option (Nat × Block)} (h : t.PrevScan n res)
    (hn : t.seqLeaf n = false) : t.PrevScan (n + 1) res := by
  match res, h with
  | none, h => exact fun k hk => (Nat.lt_succ_iff_lt_or_eq.1 hk).elim (h k) (· ▸ hn)
  | some (m, b), ⟨hm, hb, hl, hk⟩ =>
    exact ⟨by omega, hb, hl, fun k h1 h2 => (Nat.lt_succ_iff_lt_or_eq.1 h2).elim (hk k h1) (· ▸ hn)⟩

/-- `seqLoad` skips a block a level of the built-in cursor above the leaves holds. -/
theorem seqLoad_skip (h : s.seqBlock m = none) :
    Ok (seqLoad r m) (fun res s' => res = none ∧ s' = s) s := by
  simp only [Table.seqBlock] at h
  split_ifs at h with hc
  obtain ⟨hw, hne, hany⟩ := hc
  simp only [seqLoad, ok_bind, ok_get, hw, hne, hany, if_true, if_false, ok_pure, and_self]

/-- `read_block(n, C_[0].p)` into an existing buffer. -/
theorem readInto_load {b : Block} (hp : (s.cur r 0).p.isSome) (hdb : s.files.db m = some b) :
    Ok (readInto r 0 m) (fun p s' => p = b ∧
      s' = s.modifyCur r 0 fun x => { x with p := some b }) s := by
  have : (s.cur r 0).p.isNone = false := by simpa [Option.isNone_iff_eq_none,
    ← Option.not_isSome_iff_eq_none] using hp
  simp only [readInto, ok_bind, ok_get, this, Bool.false_eq_true, if_false, ok_pure, ok_readBlock,
    ok_modifyCur, hdb]
  exact ⟨b, rfl, rfl, rfl⟩

/-- `seqLoad` loads any other block into the buffer of the cursor's level 0. -/
theorem seqLoad_load {b : Block} (hp : (s.cur r 0).p.isSome) (h : s.seqBlock m = some (some b)) :
    Ok (seqLoad r m) (fun res s' => res = some b ∧
      s' = s.modifyCur r 0 fun x => { x with p := some b }) s := by
  simp only [Table.seqBlock, Table.look] at h
  have hread : s.files.db m = some b → Ok (readInto r 0 m) (fun p => Ok (pure (some p))
      (fun res s' => res = some b ∧ s' = s.modifyCur r 0 fun x => { x with p := some b })) s :=
    fun hdb => (readInto_load hp hdb).mono fun p s' ⟨hp', hs'⟩ => by simp [hp', hs']
  by_cases hw : s.writable = true
  · by_cases h0 : some m = (s.C 0).n
    · simp only [hw, h0, true_and, ne_eq, not_true_eq_false, false_and, if_false,
        Option.some.injEq, if_true] at h
      simp only [seqLoad, ok_bind, ok_get, hw, h0, if_true, ok_bufferOf, ok_modifyCur, ok_pure]
      exact ⟨b, by simpa [Table.cur] using h, rfl, rfl⟩
    · by_cases hany : ((List.range s.level).any fun j => some m = (s.C (j + 1)).n) = true
      · simp [hw, h0, hany] at h
      · simp only [hw, h0, hany, ne_eq, not_false_eq_true, true_and, and_false, if_false,
          Option.some.injEq, Bool.false_eq_true] at h
        simp only [seqLoad, ok_bind, ok_get, hw, h0, hany, if_true, if_false, ok_pure,
          Bool.false_eq_true]
        exact hread h
  · simp only [hw, Bool.false_eq_true, false_and, if_false, Option.some.injEq] at h
    simp only [seqLoad, ok_bind, ok_get, hw, if_false, ok_pure, Bool.false_eq_true]
    exact hread h

/-- A scan that loaded block `m` into the buffer of cursor `r` finds every block but the
built-in cursor's leaf as before. -/
theorem Table.seqBlock_rebuffer (b : Block) (h : r = .builtIn → some m ≠ (t.C 0).n) :
    (t.modifyCur r 0 fun x => { x with p := some b }).seqBlock m = t.seqBlock m := by
  cases r
  · simp [Table.seqBlock, Table.look, Table.modifyCur, Function.update_apply, h rfl]
  · rfl

/-- `s` is `t` as a scan of cursor `r` leaves it: only the buffer of level 0 changed, and that
buffer exists. -/
structure Rebuffered (t : Table) (r : CursorRef) (s : Table) : Prop where
  base : s.base = t.base
  revisionNumber : s.revisionNumber = t.revisionNumber
  writable : s.writable = t.writable
  buffer : (s.cur r 0).p.isSome
  n : (s.cur r 0).n = (t.cur r 0).n
  c : (s.cur r 0).c = (t.cur r 0).c
  seqBlock : ∀ m, (r = .builtIn → some m ≠ (t.C 0).n) → s.seqBlock m = t.seqBlock m

theorem Rebuffered.refl (hp : (t.cur r 0).p.isSome) : Rebuffered t r t :=
  ⟨rfl, rfl, rfl, hp, rfl, rfl, fun _ _ => rfl⟩

theorem Rebuffered.load (hs : Rebuffered t r s) (b : Block) :
    Rebuffered t r (s.modifyCur r 0 fun x => { x with p := some b }) := by
  have hC : r = .builtIn → (s.C 0).n = (t.C 0).n := by rintro rfl; exact hs.n
  refine ⟨?_, ?_, ?_, by simp, by simp [hs.n], by simp [hs.c], fun m hm => ?_⟩
  · cases r <;> exact hs.base
  · cases r <;> exact hs.revisionNumber
  · simp [hs.writable]
  · rw [Table.seqBlock_rebuffer b fun hr => hC hr ▸ hm hr, hs.seqBlock m hm]

/-- `seqCheck` passes a block a scan gets past. -/
theorem seqCheck_pass {b : Block} (hs : Rebuffered t r s) (hb : t.seqBlock m = some (some b))
    (hf : t.seqFresh m = true) : Ok (seqCheck b) (fun _ s' => s' = s) s := by
  simp only [Table.seqFresh, hb, Bool.not_eq_true', decide_eq_false_iff_not] at hf
  simp [seqCheck, hs.revisionNumber, hs.writable, hf]

/-- **The scan of `next_for_sequential`** from block `n`, with fuel to reach `last_block`, returns
the first block after `n` that it stops at, as `Table.NextScan` says, when it gets past every
block up to `last_block`. -/
theorem nextSeqScan_spec (hfresh : ∀ m ≤ t.base.lastBlock, t.seqFresh m = true) :
    ∀ (fuel n : Nat) (s : Table), t.base.lastBlock ≤ n + fuel →
      (r = .builtIn → ∀ m, n < m → some m ≠ (t.C 0).n) → Rebuffered t r s →
      Ok (nextSeqScan r fuel n) (fun res s' => t.NextScan n res ∧ Rebuffered t r s') s
  | 0, n, s, hf, _, hs => ⟨fun m hm hml => absurd hml (by omega), hs⟩
  | fuel + 1, n, s, hf, hne, hs => by
    have hne' : r = .builtIn → ∀ m, n + 1 < m → some m ≠ (t.C 0).n :=
      fun hr m hm => hne hr m (by omega)
    rw [nextSeqScan, ok_bind, ok_get, hs.base]
    by_cases hend : t.base.lastBlock < n + 1
    · rw [if_pos hend]
      exact ⟨fun m hm hml => absurd hml (by omega), hs⟩
    simp only [if_neg hend, ok_bind, ok_pure]
    have hsb := hs.seqBlock (n + 1) fun hr => hne hr _ (Nat.lt_succ_self n)
    have hfn := hfresh (n + 1) (by omega)
    match hb : t.seqBlock (n + 1) with
    | none =>
      refine Ok.mono (seqLoad_skip (hsb.trans hb)) ?_
      rintro _ s' ⟨rfl, rfl⟩
      exact (nextSeqScan_spec hfresh fuel (n + 1) s' (by omega) hne' hs).mono fun res s' h =>
        ⟨h.1.of_succ (by simp [Table.seqLeaf, hb]), h.2⟩
    | some none => simp [Table.seqFresh, hb] at hfn
    | some (some p) =>
      refine Ok.mono (seqLoad_load hs.buffer (hsb.trans hb)) ?_
      rintro _ _ ⟨rfl, rfl⟩
      rw [ok_bind]
      refine Ok.mono (seqCheck_pass (hs.load p) hb hfn) ?_
      rintro _ _ rfl
      by_cases hl : p.level = 0
      · rw [if_pos hl]
        exact ⟨⟨Nat.lt_succ_self n, by omega, hb, hl, fun k h1 h2 => absurd h2 (by omega)⟩,
          hs.load p⟩
      · rw [if_neg hl]
        exact (nextSeqScan_spec hfresh fuel (n + 1) _ (by omega) hne' (hs.load p)).mono
          fun res s' h => ⟨h.1.of_succ (by simp [Table.seqLeaf_of_seqBlock hb, hl]), h.2⟩

/-- **The scan of `prev_for_sequential`** from block `n`, with fuel to reach block 0, returns the
last block before `n` that it stops at, as `Table.PrevScan` says, when it gets past every block
below `n`. -/
theorem prevSeqScan_spec (hfresh : ∀ m < n, t.seqFresh m = true) :
    ∀ (fuel k : Nat) (s : Table), k ≤ n → k ≤ fuel →
      (r = .builtIn → ∀ m, m < k → some m ≠ (t.C 0).n) → Rebuffered t r s →
      Ok (prevSeqScan r fuel k) (fun res s' => t.PrevScan k res ∧ Rebuffered t r s') s
  | 0, k, s, _, hf, _, hs => ⟨fun m hm => absurd hm (by omega), hs⟩
  | fuel + 1, k, s, hk, hf, hne, hs => by
    rw [prevSeqScan]
    rcases k with _ | k
    · exact ⟨fun m hm => absurd hm (Nat.not_lt_zero m), hs⟩
    simp only [if_neg (Nat.succ_ne_zero k), ok_bind, ok_pure, Nat.add_sub_cancel]
    have hne' : r = .builtIn → ∀ m, m < k → some m ≠ (t.C 0).n :=
      fun hr m hm => hne hr m (by omega)
    have hsb := hs.seqBlock k fun hr => hne hr _ (Nat.lt_succ_self k)
    have hfk := hfresh k (by omega)
    match hb : t.seqBlock k with
    | none =>
      refine Ok.mono (seqLoad_skip (hsb.trans hb)) ?_
      rintro _ s' ⟨rfl, rfl⟩
      exact (prevSeqScan_spec hfresh fuel k s' (by omega) (by omega) hne' hs).mono fun res s' h =>
        ⟨h.1.of_pred (by simp [Table.seqLeaf, hb]), h.2⟩
    | some none => simp [Table.seqFresh, hb] at hfk
    | some (some p) =>
      refine Ok.mono (seqLoad_load hs.buffer (hsb.trans hb)) ?_
      rintro _ _ ⟨rfl, rfl⟩
      rw [ok_bind]
      refine Ok.mono (seqCheck_pass (hs.load p) hb hfk) ?_
      rintro _ _ rfl
      by_cases hl : p.level = 0
      · rw [if_pos hl]
        exact ⟨⟨Nat.lt_succ_self k, hb, hl, fun j h1 h2 => absurd h2 (by omega)⟩, hs.load p⟩
      · rw [if_neg hl]
        exact (prevSeqScan_spec hfresh fuel k _ (by omega) (by omega) hne' (hs.load p)).mono
          fun res s' h => ⟨h.1.of_pred (by simp [Table.seqLeaf_of_seqBlock hb, hl]), h.2⟩

end Scan

/-! ## The layout, leaf by leaf -/

section Layout

variable {v : View} {L R : Nat} {t : Table}

theorem getElem?_lt_of_sorted {l : List Nat} (hl : l.Pairwise (· < ·)) {i j a b : Nat}
    (hij : i < j) (ha : l[i]? = some a) (hb : l[j]? = some b) : a < b := by
  obtain ⟨hi, rfl⟩ := List.getElem?_eq_some_iff.1 ha
  obtain ⟨hj, rfl⟩ := List.getElem?_eq_some_iff.1 hb
  exact List.pairwise_iff_getElem.1 hl i j hi hj hij

/-- In a strictly increasing list, an element above the `q`-th is at or after the `q + 1`-th. -/
theorem exists_succ_le_of_sorted {l : List Nat} (hl : l.Pairwise (· < ·)) {q a m : Nat}
    (hq : l[q]? = some a) (hm : m ∈ l) (ham : a < m) : ∃ b, l[q + 1]? = some b ∧ a < b ∧ b ≤ m := by
  obtain ⟨i, hi, rfl⟩ := List.getElem_of_mem hm
  have hiq : q < i := by
    by_contra h
    rcases Nat.eq_or_lt_of_le (Nat.le_of_not_lt h) with rfl | h
    · rw [List.getElem?_eq_getElem hi, Option.some.injEq] at hq
      omega
    · exact absurd (getElem?_lt_of_sorted hl h (List.getElem?_eq_getElem hi) hq) (by omega)
  have hb : l[q + 1]? = some l[q + 1] := List.getElem?_eq_getElem (by omega)
  refine ⟨_, hb, getElem?_lt_of_sorted hl (Nat.lt_succ_self q) hq hb, ?_⟩
  rcases Nat.eq_or_lt_of_le hiq with rfl | h
  · exact le_rfl
  · exact (getElem?_lt_of_sorted hl h hb (List.getElem?_eq_getElem hi)).le

/-- In a strictly increasing list, an element below the `q`-th is at or before the `q - 1`-th. -/
theorem exists_pred_ge_of_sorted {l : List Nat} (hl : l.Pairwise (· < ·)) {q a m : Nat}
    (hq : l[q]? = some a) (hm : m ∈ l) (hma : m < a) :
    ∃ b, 0 < q ∧ l[q - 1]? = some b ∧ b < a ∧ m ≤ b := by
  obtain ⟨i, hi, rfl⟩ := List.getElem_of_mem hm
  have hiq : i < q := by
    by_contra h
    rcases Nat.eq_or_lt_of_le (Nat.le_of_not_lt h) with rfl | h
    · rw [List.getElem?_eq_getElem hi, Option.some.injEq] at hq
      omega
    · exact absurd (getElem?_lt_of_sorted hl h hq (List.getElem?_eq_getElem hi)) (by omega)
  have hql := (List.getElem?_eq_some_iff.1 hq).1
  have hb : l[q - 1]? = some l[q - 1] := List.getElem?_eq_getElem (by omega)
  refine ⟨_, by omega, hb, getElem?_lt_of_sorted hl (by omega) hb hq, ?_⟩
  rcases Nat.eq_or_lt_of_le (Nat.le_sub_one_of_lt hiq) with h | h
  · simp only [h, le_rfl]
  · exact (getElem?_lt_of_sorted hl h (List.getElem?_eq_getElem hi) hb).le

theorem Table.look_of_seqBlock {m : Nat} {b : Block} (h : t.seqBlock m = some (some b)) :
    t.look 0 m = some b := by
  unfold Table.seqBlock at h
  split_ifs at h
  exact Option.some.inj h

theorem SeqLayout.mem_leaves (hl : SeqLayout t v L R) {m : Nat} :
    m ∈ v.blocksAt L R 0 ↔ m ≤ t.base.lastBlock ∧ t.seqLeaf m = true := by
  rw [← hl.leaves, List.mem_filter, List.mem_range, Nat.lt_succ_iff]

theorem SeqLayout.sorted (hl : SeqLayout t v L R) : (v.blocksAt L R 0).Pairwise (· < ·) :=
  hl.leaves ▸ (List.pairwise_lt_range _).filter _

/-- Under the layout, the forward scan from the `q`-th leaf finds the `q + 1`-th. -/
theorem SeqLayout.nextScan (hl : SeqLayout t v L R) {q n : Nat}
    (hq : (v.blocksAt L R 0)[q]? = some n) {res : Option (Nat × Block)} (h : t.NextScan n res) :
    res.map Prod.fst = (v.blocksAt L R 0)[q + 1]? := by
  match res, h with
  | none, h =>
    rcases hb : (v.blocksAt L R 0)[q + 1]? with _ | b
    · rfl
    · obtain ⟨hle, hleaf⟩ := hl.mem_leaves.1 (List.getElem?_mem hb)
      rw [h b (getElem?_lt_of_sorted hl.sorted (Nat.lt_succ_self q) hq hb) hle] at hleaf
      exact absurd hleaf Bool.false_ne_true
  | some (m, b), ⟨hnm, hml, hb, hl0, hk⟩ =>
    have hmem := hl.mem_leaves.2 ⟨hml, by simp [Table.seqLeaf_of_seqBlock hb, hl0]⟩
    obtain ⟨b', hb', hnb', hb'm⟩ := exists_succ_le_of_sorted hl.sorted hq hmem hnm
    rcases Nat.eq_or_lt_of_le hb'm with rfl | hlt
    · exact hb'.symm
    · have := (hl.mem_leaves.1 (List.getElem?_mem hb')).2
      rw [hk b' hnb' hlt] at this
      exact absurd this Bool.false_ne_true

/-- Under the layout, the backward scan from the `q`-th leaf finds the `q - 1`-th, and nothing
from the first. -/
theorem SeqLayout.prevScan (hl : SeqLayout t v L R) {q n : Nat}
    (hq : (v.blocksAt L R 0)[q]? = some n) {res : Option (Nat × Block)} (h : t.PrevScan n res) :
    res.map Prod.fst = if 0 < q then (v.blocksAt L R 0)[q - 1]? else none := by
  have hql := (List.getElem?_eq_some_iff.1 hq).1
  match res, h with
  | none, h =>
    rw [if_neg]
    · rfl
    intro hq0
    have hb : (v.blocksAt L R 0)[q - 1]? = some (v.blocksAt L R 0)[q - 1] :=
      List.getElem?_eq_getElem (by omega)
    have := (hl.mem_leaves.1 (List.getElem?_mem hb)).2
    rw [h _ (getElem?_lt_of_sorted hl.sorted (by omega) hb hq)] at this
    exact absurd this Bool.false_ne_true
  | some (m, b), ⟨hmn, hb, hl0, hk⟩ =>
    have hmem := hl.mem_leaves.2 ⟨(hl.mem_leaves.1 (List.getElem?_mem hq)).1.trans' hmn.le,
      by simp [Table.seqLeaf_of_seqBlock hb, hl0]⟩
    obtain ⟨b', hq0, hb', hb'n, hmb'⟩ := exists_pred_ge_of_sorted hl.sorted hq hmem hmn
    rw [if_pos hq0]
    rcases Nat.eq_or_lt_of_le hmb' with rfl | hlt
    · exact hb'.symm
    · have := (hl.mem_leaves.1 (List.getElem?_mem hb')).2
      rw [hk b' hlt hb'n] at this
      exact absurd this Bool.false_ne_true

end Layout

/-! ## The two ways of stepping along the leaves -/

namespace View

variable {v : View} {L R : Nat}

/-- Level 0 of the cursor `C` is at leaf position `x` of the tree: on the block that holds it,
at its slot. -/
def OnLeaf (v : View) (L R : Nat) (C : Nat → Cursor) (x : Nat) : Prop :=
  ∃ q n b, (v.blocksAt L R 0)[q]? = some n ∧ v 0 n = some b ∧ (C 0).n = some n ∧
    v.start L R 0 q ≤ x ∧ x < v.start L R 0 q + b.dir.length ∧
    (C 0).c = slotOf (x - v.start L R 0 q)

theorem start_mono {j q q' : Nat} (h : q ≤ q') : v.start L R j q ≤ v.start L R j q' := by
  obtain ⟨d, rfl⟩ := Nat.exists_eq_add_of_le h
  simp only [start, List.take_add, List.map_append, List.sum_append]
  exact Nat.le_add_right _ _

/-- A leaf position lies in one block, at one slot: two cursors at the same position are on the
same block and slot. -/
theorem OnLeaf.same {C C' : Nat → Cursor} {x : Nat} (h : v.OnLeaf L R C x)
    (h' : v.OnLeaf L R C' x) : (C 0).n = (C' 0).n ∧ (C 0).c = (C' 0).c := by
  obtain ⟨q, n, b, hq, hb, hn, hlo, hhi, hc⟩ := h
  obtain ⟨q', n', b', hq', hb', hn', hlo', hhi', hc'⟩ := h'
  have e : ∀ {q n b}, (v.blocksAt L R 0)[q]? = some n → v 0 n = some b →
      v.start L R 0 (q + 1) = v.start L R 0 q + b.dir.length := fun hq hb => by
    rw [v.start_succ hq]; simp [width, hb]
  obtain rfl : q = q' := by
    rcases Nat.lt_trichotomy q q' with h | h | h
    · have := v.start_mono (L := L) (R := R) (j := 0) h; rw [e hq hb] at this; omega
    · exact h
    · have := v.start_mono (L := L) (R := R) (j := 0) h; rw [e hq' hb'] at this; omega
  obtain rfl : n = n' := Option.some.inj (hq.symm.trans hq')
  exact ⟨hn.trans hn'.symm, hc.trans hc'.symm⟩

theorem PathFrom.onLeaf {C : Nat → Cursor} {pos : Nat → Nat} (h : v.PathFrom L R C pos 0) :
    v.OnLeaf L R C (pos 0) :=
  let ⟨n, b, hq, hb, hn, _, hlo, hhi, hc⟩ := h.2 0 le_rfl (Nat.zero_le L)
  ⟨pos 1, n, b, hq, hb, hn, hlo, hhi, hc⟩

theorem Stepped.onLeaf {r : CursorRef} {t t' : Table} {p : Nat} (h : v.Stepped L R r t 0 p t') :
    v.OnLeaf L R (t'.cur r) p := by
  obtain ⟨-, pos', hpath, rfl, -⟩ := h
  exact hpath.onLeaf

end View

/-- From `t`, `x` and `y` both return, with the same value, and leave level 0 of cursor `r` on
the same block and slot. -/
def SameStep (r : CursorRef) (x y : M Bool) (t : Table) : Prop :=
  ∃ a tx ty, x t = .ok a tx ∧ y t = .ok a ty ∧ (tx.cur r 0).n = (ty.cur r 0).n ∧
    (tx.cur r 0).c = (ty.cur r 0).c

section Steps

variable {v : View} {L R : Nat} {t : Table} {r : CursorRef} {pos : Nat → Nat}

/-- Two steps that return true exactly when a position `p` exists, one landing on it and the
other moving there along the tree, and otherwise both return false leaving the cursor's level 0
where it was, are the same step. -/
theorem SameStep.of_ok {x y : M Bool} {c : Prop} [Decidable c] {p : Nat}
    (hx : Ok x (fun a t' => if c then a = true ∧ v.OnLeaf L R (t'.cur r) p
      else a = false ∧ (t'.cur r 0).n = (t.cur r 0).n ∧ (t'.cur r 0).c = (t.cur r 0).c) t)
    (hy : Ok y (fun a t' => if c then a = true ∧ v.Stepped L R r t 0 p t'
      else a = false ∧ t' = t) t) :
    SameStep r x y t := by
  obtain ⟨a, tx, hx, hqx⟩ := ok_iff.1 hx
  obtain ⟨a', ty, hy, hqy⟩ := ok_iff.1 hy
  by_cases hc : c
  · simp only [if_pos hc] at hqx hqy
    obtain ⟨rfl, hx'⟩ := hqx
    obtain ⟨rfl, hy'⟩ := hqy
    exact ⟨_, tx, ty, hx, hy, hx'.same hy'.onLeaf⟩
  · simp only [if_neg hc] at hqx hqy
    obtain ⟨rfl, hn, hc'⟩ := hqx
    obtain ⟨rfl, hty⟩ := hqy
    exact ⟨_, tx, ty, hx, hy, hty ▸ hn, hty ▸ hc'⟩

/-- **`next_for_sequential(C_, 0)` under the layout**: a step to the next leaf item, found in the
same leaf or, at its last slot, by the forward scan; false at the last leaf item, with the
cursor's level 0 where it was. -/
theorem nextForSequential_leaf (hs : Snapshot v L R) (ht : Shows t r v L R)
    (hpath : v.PathFrom L R (t.cur r) pos 0) (hl : SeqLayout t v L R) :
    Ok (nextForSequential r) (fun a t' => if pos 0 + 1 < (v.leaves L R).length
      then a = true ∧ v.OnLeaf L R (t'.cur r) (pos 0 + 1)
      else a = false ∧ (t'.cur r 0).n = (t.cur r 0).n ∧ (t'.cur r 0).c = (t.cur r 0).c) t := by
  obtain ⟨n, b, hq, hb, hn, hp, hlo, hhi, hc⟩ := hpath.2 0 le_rfl (Nat.zero_le L)
  simp only [Nat.zero_add] at hq hlo hhi hc
  have hnext : v.start L R 0 (pos 1 + 1) = v.start L R 0 (pos 1) + b.dir.length := by
    rw [v.start_succ hq]; simp [View.width, hb]
  have hcond : (t.cur r 0).c + D2 = (b.dirEnd : Int) ↔
      pos 0 + 1 = v.start L R 0 (pos 1) + b.dir.length := by
    rw [hc, slotOf_add_D2, dirEnd_eq_slotOf]; simp only [slotOf, D2]; omega
  rw [← v.total_zero, nextForSequential, ok_bind, ok_get, ok_bind, ok_bufferOf]
  refine ⟨b, hp, ?_⟩
  dsimp only
  by_cases hend : pos 0 + 1 = v.start L R 0 (pos 1) + b.dir.length
  · -- the last slot of the leaf: the scan finds the next leaf, if any
    have hblock : (t.cur r 0).block = n := by simp [Cursor.block, hn]
    rw [if_pos (hcond.2 hend), ok_bind, hblock]
    refine Ok.mono (nextSeqScan_spec hl.fresh _ n t (by omega) (fun hr m hm => ?_)
      (Rebuffered.refl (by simp [hp]))) ?_
    · subst hr; rw [show t.C = t.cur .builtIn from rfl, hn]; simpa using hm.ne'
    rintro res s ⟨hres, hs'⟩
    have hql := (List.getElem?_eq_some_iff.1 hq).1
    have key : pos 0 + 1 < v.total L R 0 ↔ pos 1 + 1 < (v.blocksAt L R 0).length := by
      rw [hend, ← hnext, v.start_lt_total_iff (hs.width_pos (Nat.zero_le L)) (by omega)]
    match res, hl.nextScan hq hres with
    | none, hnone =>
      dsimp only
      rw [ok_pure, if_neg (fun h => by simp [List.getElem?_eq_getElem (key.1 h)] at hnone)]
      exact ⟨rfl, hs'.n, hs'.c⟩
    | some (m, bm), hsome =>
      obtain ⟨b', hb', -, hne'⟩ := hs.block (Nat.zero_le L) (List.getElem?_mem hsome.symm)
      have hm := (List.getElem?_eq_some_iff.1 hsome.symm).1
      dsimp only
      rw [ok_bind, ok_modifyCur, ok_pure, if_pos (key.2 hm)]
      refine ⟨rfl, pos 1 + 1, m, b', hsome.symm, hb', by simp, by omega, ?_, ?_⟩
      · have := List.length_pos.2 hne'; omega
      · simp [hnext, hend, slotOf]
  · -- a slot follows in the same leaf
    have hlt : pos 0 + 1 < v.total L R 0 := by
      have := v.start_add_width_le_total hq
      simp only [View.width, hb, Option.map_some', Option.getD_some] at this
      omega
    rw [if_neg (mt hcond.1 hend), ok_bind, ok_modifyCur, ok_pure, if_pos hlt]
    refine ⟨rfl, pos 1, n, b, hq, hb, by simp [hn], by omega, by omega, ?_⟩
    simp only [Table.cur_modifyCur, Function.update_same, hc, slotOf, D2]
    omega

/-- **`prev_for_sequential(C_, 0)` under the layout**: a step to the previous leaf item, found in
the same leaf or, at its first slot, by the backward scan; false at the first leaf item, with the
cursor's level 0 where it was. -/
theorem prevForSequential_leaf (hs : Snapshot v L R) (ht : Shows t r v L R)
    (hpath : v.PathFrom L R (t.cur r) pos 0) (hl : SeqLayout t v L R) :
    Ok (prevForSequential r) (fun a t' => if 0 < pos 0
      then a = true ∧ v.OnLeaf L R (t'.cur r) (pos 0 - 1)
      else a = false ∧ (t'.cur r 0).n = (t.cur r 0).n ∧ (t'.cur r 0).c = (t.cur r 0).c) t := by
  obtain ⟨n, b, hq, hb, hn, hp, hlo, hhi, hc⟩ := hpath.2 0 le_rfl (Nat.zero_le L)
  simp only [Nat.zero_add] at hq hlo hhi hc
  have hcond : (t.cur r 0).c = (dirStart : Int) ↔ pos 0 = v.start L R 0 (pos 1) := by
    rw [hc, slotOf_eq_dirStart_iff]; omega
  rw [prevForSequential, ok_bind, ok_get]
  dsimp only
  by_cases hfirst : pos 0 = v.start L R 0 (pos 1)
  · -- the first slot of the leaf: the scan finds the previous leaf, if any
    have hblock : (t.cur r 0).block = n := by simp [Cursor.block, hn]
    have hnl := (hl.mem_leaves.1 (List.getElem?_mem hq)).1
    rw [if_pos (hcond.2 hfirst), ok_bind, hblock]
    refine Ok.mono (prevSeqScan_spec (fun m hm => hl.fresh m (by omega)) (n + 1) n t le_rfl
      (Nat.le_succ n) (fun hr m hm => ?_) (Rebuffered.refl (by simp [hp]))) ?_
    · subst hr; rw [show t.C = t.cur .builtIn from rfl, hn]; simpa using hm.ne
    rintro res s ⟨hres, hs'⟩
    have hql := (List.getElem?_eq_some_iff.1 hq).1
    match res, hl.prevScan hq hres, hres with
    | none, hnone, _ =>
      have hq0 : ¬0 < pos 1 := fun h => by
        simp [if_pos h] at hnone
        omega
      dsimp only
      rw [ok_pure, if_neg (by rw [hfirst, Nat.eq_zero_of_not_pos hq0]; simp [View.start])]
      exact ⟨rfl, hs'.n, hs'.c⟩
    | some (m, bm), hsome, ⟨_, hbm, _, _⟩ =>
      have hq0 : 0 < pos 1 := by
        by_contra h; simp [if_neg h] at hsome
      rw [if_pos hq0] at hsome
      have hmem := List.getElem?_mem hsome.symm
      obtain ⟨b', hb', -, hne'⟩ := hs.block (Nat.zero_le L) hmem
      obtain rfl : bm = b' := by
        have := (ht.look 0 (Nat.zero_le L) m hmem).symm.trans (Table.look_of_seqBlock hbm)
        exact (Option.some.inj (hb'.symm.trans this)).symm
      have hprev : v.start L R 0 (pos 1) = v.start L R 0 (pos 1 - 1) + bm.dir.length := by
        rw [← Nat.sub_add_cancel hq0, v.start_succ hsome.symm, Nat.sub_add_cancel hq0]
        simp [View.width, hb']
      have hlen := List.length_pos.2 hne'
      dsimp only
      rw [ok_bind, ok_modifyCur, ok_pure, if_pos (show 0 < pos 0 by omega)]
      refine ⟨rfl, pos 1 - 1, m, bm, hsome.symm, hb', by simp, by omega, by omega, ?_⟩
      simp only [Table.cur_modifyCur, Function.update_same, dirEnd_eq_slotOf, slotOf, D2]
      omega
  · -- a slot precedes in the same leaf
    rw [if_neg (mt hcond.1 hfirst), ok_bind, ok_modifyCur, ok_pure, if_pos (by omega)]
    refine ⟨rfl, pos 1, n, b, hq, hb, by simp [hn], by omega, by omega, ?_⟩
    simp only [Table.cur_modifyCur, Function.update_same, hc, slotOf, D2]
    omega

/-- **The sequential scans agree with the tree walk.**  When the blocks up to `last_block` lie as
`SeqLayout` says, for any cursor whose levels are a path of the tree to a leaf item,
`next_for_sequential(C_, 0)` and `next_default(C_, 0)` return the same value and leave level 0
of the cursor on the same block and slot, and so do `prev_for_sequential(C_, 0)` and
`prev_default(C_, 0)`. -/
theorem sequential_scans_agree (hs : Snapshot v L R) (ht : Shows t r v L R)
    (hpath : v.PathFrom L R (t.cur r) pos 0) (hl : SeqLayout t v L R) :
    SameStep r (nextForSequential r) (nextDefault r (t.level + 1) 0) t ∧
      SameStep r (prevForSequential r) (prevDefault r (t.level + 1) 0) t :=
  ⟨.of_ok (nextForSequential_leaf hs ht hpath hl) (nextDefault_leaf hs ht hpath),
    .of_ok (prevForSequential_leaf hs ht hpath hl) (prevDefault_leaf hs ht hpath)⟩

end Steps

/-! ## The two leaves, scanned -/

/-- The reader of the two leaves with the base they were committed with: revision 1, blocks 0 to
2 handed out. -/
def twoLeavesSeqReader : Table :=
  { twoLeavesReader 1 with base := { Base.empty with lastBlock := 2 } }

theorem twoLeavesSeq_shows : Shows twoLeavesSeqReader .user (twoLeavesView 1) 1 2 :=
  ⟨rfl, fun _ _ _ _ => rfl, fun k h => absurd h (by
    simp only [Table.cur, twoLeavesSeqReader, twoLeavesReader, twoLeavesCursor]
    split_ifs <;> decide), fun h => absurd h (by decide)⟩

/-- The reader of the two leaves, in sequential mode with its cursor on `a`, the last item of
the first leaf: the scans step to `m` in block 1 and find nothing before `a`, as the tree walk
does. -/
theorem twoLeaves_scans_agree :
    Snapshot (twoLeavesView 1) 1 2 ∧ Shows twoLeavesSeqReader .user (twoLeavesView 1) 1 2 ∧
      (twoLeavesView 1).PathFrom 1 2 (twoLeavesSeqReader.cur .user) (fun _ => 0) 0 ∧
      SeqLayout twoLeavesSeqReader (twoLeavesView 1) 1 2 ∧
      (SameStep .user (nextForSequential .user)
        (nextDefault .user (twoLeavesSeqReader.level + 1) 0) twoLeavesSeqReader ∧
      SameStep .user (prevForSequential .user)
        (prevDefault .user (twoLeavesSeqReader.level + 1) 0) twoLeavesSeqReader) :=
  have hs : Snapshot (twoLeavesView 1) 1 2 := ⟨twoLeaves_tree 1, twoLeaves_nodup 1, by decide⟩
  have hpath : (twoLeavesView 1).PathFrom 1 2 (twoLeavesSeqReader.cur .user) (fun _ => 0) 0 :=
    twoLeaves_path 1
  have hl : SeqLayout twoLeavesSeqReader (twoLeavesView 1) 1 2 := by decide
  ⟨hs, twoLeavesSeq_shows, hpath, hl, sequential_scans_agree hs twoLeavesSeq_shows hpath hl⟩

/-! ## A reader of a discarded revision -/

/-- The first leaf of a table built by adding `a` and then `m`, split at `m` and committed as
revision 1: the faked root's empty first key, then `a`. -/
def seqLeafA : Block :=
  addItemToBlock 2048 (fakeRoot 2048 1) ⟨some ⟨[97], 1⟩, .chunk 1 false [1]⟩ (dirStart + D2)

/-- The leaf the split started with key `m`, stamped with revision `rev`. -/
def seqLeafM (rev : Nat) : Block :=
  addItemToBlock 2048 (emptyRoot 2048 rev 0) ⟨some ⟨[109], 1⟩, .chunk 1 false [2]⟩ dirStart

/-- That leaf once a second transaction added `n`, revision 2. -/
def seqLeafMN : Block :=
  addItemToBlock 2048 (seqLeafM 2) ⟨some ⟨[110], 1⟩, .chunk 1 false [3]⟩ (dirStart + D2)

/-- The root over the first leaf, block 0, and the leaf of `m`, block `child`, revision `rev`. -/
def seqRoot (rev child : Nat) : Block :=
  addItemToBlock 2048 (addItemToBlock 2048 (emptyRoot 2048 rev 1) (Item.formNullKey 0) dirStart)
    ⟨some ⟨[109], 1⟩, .child child⟩ (dirStart + D2)

/-- Revision 1 in base B, in sequential mode, in blocks 0 to 2 as ascending insertion lays them
out; and revision 2 in base A, where the transaction that added `n` moved the leaf of `m` and the
root, which revision 1 holds, to blocks 3 and 4.  The items are small enough to write out: of a
block the scans read only its level and revision. -/
def discardedFiles : Files where
  db n := if n = 0 then some seqLeafA else if n = 1 then some (seqLeafM 1) else
    if n = 2 then some (seqRoot 1 1) else if n = 3 then some seqLeafMN else
    if n = 4 then some (seqRoot 2 3) else none
  baseA := some ⟨2, 2048, 4, 1, 3, false, false, 4,
    ((Bitmap.empty.set 0 true).set 3 true).set 4 true⟩
  baseB := some ⟨1, 2048, 2, 1, 2, false, true, 2,
    ((Bitmap.empty.set 0 true).set 1 true).set 2 true⟩
  tmp := none

/-- A reader opens revision 1 and looks up `m`. -/
def discardedReaderRun : List Op := [.openAt 1, .getExactEntry [109]]

/-- A writer opens the newest revision, deletes `n` and flushes. -/
def discardedWriterRun : List Op := [.open, .del [110], .flushDb]

/-- The tables the calls of `discardedReaderRun` leave, one after another. -/
def discardedReader₁ : Table :=
  after (Op.call sampleEnv (.openAt 1) (Table.new discardedFiles true .dontCompress))
def discardedReader₂ : Table := after (Op.call sampleEnv (.getExactEntry [109]) discardedReader₁)

/-- The tables the calls of `discardedWriterRun` leave, one after another. -/
def discardedWriter₁ : Table :=
  after (Op.call sampleEnv .open (Table.new discardedFiles false .dontCompress))
def discardedWriter₂ : Table := after (Op.call sampleEnv (.del [110]) discardedWriter₁)
def discardedWriter₃ : Table := after (Op.call sampleEnv .flushDb discardedWriter₂)

/-- The reader once the writer has flushed: its cursors as its own calls left them, the files as
the writer's calls left them. -/
def discardedReader₃ : Table := { discardedReader₂ with files := discardedWriter₃.files }

set_option maxRecDepth 100000

/-- The reader's calls return and leave it in sequential mode at revision 1, its built-in cursor
on `m`, the last leaf item, in block 1, where both steps return false. -/
private theorem discardedReader_facts :
    returned (Op.call sampleEnv (.openAt 1) (Table.new discardedFiles true .dontCompress)) =
        true ∧
      returned (Op.call sampleEnv (.getExactEntry [109]) discardedReader₁) = true ∧
      discardedReader₂.sequential = true ∧ discardedReader₂.revisionNumber = 1 ∧
      (discardedReader₂.C 0).n = some 1 ∧
      discardedReader₂.leafItem .builtIn = some ⟨some ⟨[109], 1⟩, .chunk 1 false [2]⟩ ∧
      returnedValue (nextForSequential .builtIn discardedReader₂) = some false ∧
      returnedValue (nextDefault .builtIn (discardedReader₂.level + 1) 0 discardedReader₂) =
        some false := by
  decide

/-- The writer's calls return, its flush having written blocks 1 and 2 with revision 3 and deleted
base B; the reader's steps then disagree. -/
private theorem discardedWriter_facts :
    returned (Op.call sampleEnv .open (Table.new discardedFiles false .dontCompress)) = true ∧
      returned (Op.call sampleEnv (.del [110]) discardedWriter₁) = true ∧
      returned (Op.call sampleEnv .flushDb discardedWriter₂) = true ∧
      discardedWriter₃.writes.map (fun w => (w.n, w.revision)) = [(1, 3), (2, 3)] ∧
      discardedWriter₃.files.baseB.isNone = true ∧
      returnedValue (nextDefault .builtIn (discardedReader₃.level + 1) 0 discardedReader₃) =
        some false ∧
      (match nextForSequential .builtIn discardedReader₃ with
        | .error e _ => some e
        | .ok _ _ => none) =
        some (.databaseModifiedError ("The revision being read has been discarded - " ++
          "you should call Xapian::Database::reopen() and retry the operation")) := by
  decide

/-- **The sequential flag does not give the layout.**  A reader opens revision 1 of
`discardedFiles`, whose base has `sequential` set, and looks up `m`, which leaves its built-in
cursor on the last leaf item, in block 1: there `next_for_sequential(C, 0)` and
`next_default(C, 0)` both return false.  A writer then opens the newest revision, 2, deletes `n`
and flushes: it moves the leaf and the root into blocks 1 and 2, which revision 2 freed, stamps
them with revision 3 and deletes base B.  With its cursor where it was, the reader's
`next_for_sequential` now reads block 2, newer than the revision it reads, and raises
`DatabaseModifiedError`, where `next_default` still returns false. -/
theorem sequential_scan_reads_discarded_revision :
    run sampleEnv discardedReaderRun (Table.new discardedFiles true .dontCompress) =
        .ok () discardedReader₂ ∧
      discardedReader₂.sequential = true ∧ discardedReader₂.revisionNumber = 1 ∧
      (discardedReader₂.C 0).n = some 1 ∧
      discardedReader₂.leafItem .builtIn = some ⟨some ⟨[109], 1⟩, .chunk 1 false [2]⟩ ∧
      returnedValue (nextForSequential .builtIn discardedReader₂) = some false ∧
      returnedValue (nextDefault .builtIn (discardedReader₂.level + 1) 0 discardedReader₂) =
        some false ∧
      run sampleEnv discardedWriterRun (Table.new discardedFiles false .dontCompress) =
        .ok () discardedWriter₃ ∧
      discardedWriter₃.writes.map (fun w => (w.n, w.revision)) = [(1, 3), (2, 3)] ∧
      discardedWriter₃.files.baseB.isNone = true ∧
      discardedReader₃.C = discardedReader₂.C ∧
      returnedValue (nextDefault .builtIn (discardedReader₃.level + 1) 0 discardedReader₃) =
        some false ∧
      (match nextForSequential .builtIn discardedReader₃ with
        | .error e _ => some e
        | .ok _ _ => none) =
        some (.databaseModifiedError ("The revision being read has been discarded - " ++
          "you should call Xapian::Database::reopen() and retry the operation")) := by
  obtain ⟨o₁, o₂, hseq, hrev, hn, hitem, hnext, hdef⟩ := discardedReader_facts
  obtain ⟨p₁, p₂, p₃, hwrites, hbase, hdef', hraise⟩ := discardedWriter_facts
  have r₁ : Op.call sampleEnv (.openAt 1) (Table.new discardedFiles true .dontCompress) =
    .ok () discardedReader₁ := eq_ok_of_returned o₁
  have r₂ : Op.call sampleEnv (.getExactEntry [109]) discardedReader₁ = .ok () discardedReader₂ :=
    eq_ok_of_returned o₂
  have w₁ : Op.call sampleEnv .open (Table.new discardedFiles false .dontCompress) =
    .ok () discardedWriter₁ := eq_ok_of_returned p₁
  have w₂ : Op.call sampleEnv (.del [110]) discardedWriter₁ = .ok () discardedWriter₂ :=
    eq_ok_of_returned p₂
  have w₃ : Op.call sampleEnv .flushDb discardedWriter₂ = .ok () discardedWriter₃ :=
    eq_ok_of_returned p₃
  refine ⟨?_, hseq, hrev, hn, hitem, hnext, hdef, ?_, hwrites, hbase, rfl, hdef', hraise⟩
  · rw [discardedReaderRun, run_cons_ok _ r₁, run_cons_ok _ r₂]
    rfl
  · rw [discardedWriterRun, run_cons_ok _ w₁, run_cons_ok _ w₂, run_cons_ok _ w₃]
    rfl

end FlintBtree
