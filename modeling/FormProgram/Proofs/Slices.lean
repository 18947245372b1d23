/-
Slices are trees. The slice of a block is found by counting what hangs under the block in the forest; in a
canonical list it holds exactly the block and what repeats under it (`blockSlice_tree`), which is also where a scan
of the list from the block on stops (`TreeAt.scanStop_eq`).
-/
import FormProgram.Proofs.Exchange

set_option autoImplicit false

namespace FormProgram

variable {l : List Block} {b : Block} {i j n : Nat} {id : BlockId} {s s' : Slice}

/-- The block at position `j` repeats under one that stands before it, from position `i` on. -/
def repeatsWithin (l : List Block) (i j : Nat) : Bool :=
  (l[j]?.map fun b => (Slice.extract ⟨i, j⟩ l).any fun c => b.enumerator == some c.id).getD false

/-- Where a scan from position `i` stops: at the first block behind that repeats under none of those passed, or at
the end of the list. -/
def scanStop (l : List Block) (i : Nat) : Nat :=
  ((List.range' (i + 1) (l.length - (i + 1))).find? fun j => !repeatsWithin l i j).getD l.length

theorem Slice.mem_extract {α : Type} {s : Slice} {l : List α} {a : α} :
    a ∈ s.extract l ↔ ∃ m, s.start ≤ m ∧ m < s.stop ∧ l[m]? = some a := by
  rw [Slice.extract, List.mem_iff_getElem?]
  simp only [List.getElem?_drop, List.getElem?_take]
  constructor
  · rintro ⟨k, hk⟩
    split at hk
    next hlt => exact ⟨s.start + k, by omega, hlt, hk⟩
    next => cases hk
  · rintro ⟨m, hlo, hhi, hm⟩
    refine ⟨m - s.start, ?_⟩
    rw [Nat.add_sub_cancel' hlo, if_pos hhi]
    exact hm

theorem repeatsWithin_iff : repeatsWithin l i j = true ↔ ∃ m, i ≤ m ∧ m < j ∧ RepeatsAt l j m := by
  cases hb : l[j]? with
  | none => simp [repeatsWithin, RepeatsAt, hb]
  | some b =>
    simp only [repeatsWithin, hb, Option.map_some, Option.getD_some, List.any_eq_true, beq_iff_eq,
      Slice.mem_extract]
    constructor
    · rintro ⟨c, ⟨m, hlo, hhi, hc⟩, he⟩
      exact ⟨m, hlo, hhi, b, c, hb, hc, he⟩
    · rintro ⟨m, hlo, hhi, b', c, hb', hc, he⟩
      rw [hb] at hb'
      cases hb'
      exact ⟨c, ⟨m, hlo, hhi, hc⟩, he⟩

/-- The scan passes a tree: what repeats under a block of the tree is in the tree. -/
theorem TreeAt.scanStop_eq (h : TreeAt l i n) (hl : LaidOut l) (hd : DistinctIds l) (hn : 0 < n)
    (hstop : i + n ≤ l.length) : scanStop l i = i + n := by
  have hinside : ∀ j, i < j → j < i + n → repeatsWithin l i j = true := by
    intro j hij hjn
    rw [repeatsWithin_iff]
    rcases (h j).1 ⟨Nat.le_of_lt hij, hjn⟩ with rfl | hunder
    · omega
    · cases hunder with
      | direct hr => exact ⟨i, Nat.le_refl i, hij, hr⟩
      | through hr hrest =>
        obtain ⟨hlo, -⟩ := (h _).2 (.inr hrest)
        exact ⟨_, hlo, (hl.of_repeatsAt hd hr).1, hr⟩
  have hbehind : repeatsWithin l i (i + n) = false := by
    -- under one of those passed it would be in the tree, which ends before it
    rw [Bool.eq_false_iff, Ne, repeatsWithin_iff]
    rintro ⟨m, hlo, hhi, hr⟩
    have hunder : RepeatsUnder l (i + n) i := by
      rcases (h m).1 ⟨hlo, hhi⟩ with rfl | hrest
      · exact .direct hr
      · exact .through hr hrest
    have := (h (i + n)).2 (.inr hunder)
    omega
  rw [scanStop]
  rcases Nat.lt_or_eq_of_le hstop with hlt | hend
  · have hfind : ((List.range' (i + 1) (l.length - (i + 1))).find? fun j => !repeatsWithin l i j) = some (i + n) := by
      rw [List.find?_range'_eq_some, List.mem_range'_1]
      refine ⟨by rw [hbehind]; rfl, by omega, fun j hlo hhi => ?_⟩
      rw [hinside j (by omega) hhi]
      rfl
    rw [hfind, Option.getD_some]
  · have hfind : ((List.range' (i + 1) (l.length - (i + 1))).find? fun j => !repeatsWithin l i j) = none := by
      rw [List.find?_range'_eq_none]
      intro j hlo hhi
      rw [hinside j (by omega) (by omega)]
      rfl
    rw [hfind, Option.getD_none, hend]

theorem blockSlice_eq_none : blockSlice l id = none ↔ ∀ b ∈ l, b.id ≠ id := by
  rw [blockSlice, Option.map_eq_none_iff, positionOf_eq_none]

/-- The slice of a block in a canonical list holds the block and exactly what repeats under it. -/
theorem blockSlice_tree (hn : Nested none l) (hd : DistinctIds l) (hs : blockSlice l id = some s) :
    ∃ b n, l[s.start]? = some b ∧ b.id = id ∧ TreeAt l s.start n ∧ 0 < n ∧ s.stop = s.start + n ∧
      s.stop ≤ l.length ∧ (b.isEnumerator = false → n = 1) := by
  obtain ⟨i, hi, rfl⟩ := Option.map_eq_some_iff.1 hs
  obtain ⟨b, hb, hid⟩ := block_of_positionOf hi
  obtain ⟨before, earlier, below, later, after, rfl, site⟩ := hn.site_at hb
  rw [site.sliceAt hd]
  refine ⟨b, (b :: below).length, hb, hid, site.treeAt hd, Nat.succ_pos _, rfl, ?_, fun hleaf => ?_⟩
  · rw [site.list_tree]
    simp only [List.length_append]
    omega
  · rw [site.leaf hleaf]
    rfl

theorem TreeAt.nested {n' : Nat} (h : TreeAt l i n) (h' : TreeAt l j n') (hlo : i ≤ j) (hhi : j < i + n)
    (hn' : 0 < n') : j + n' ≤ i + n := by
  obtain ⟨last, hlast⟩ : ∃ last, j + n' = last + 1 := ⟨j + n' - 1, by omega⟩
  have hinside : i ≤ last ∧ last < i + n := by
    rw [h last]
    rcases (h j).1 ⟨hlo, hhi⟩ with rfl | hunder
    · exact (h' last).1 (by omega)
    · rcases (h' last).1 (by omega) with rfl | hrest
      · exact .inr hunder
      · exact .inr (hrest.trans hunder)
  omega

/-- **A slice is a subtree.** In a canonical list with distinct ids there is a slice for exactly the ids of its
blocks. It begins with the block, ends within the list, and its positions are that of the block and those of the
blocks whose chain of enumerators passes through it; a scan from the block stops at its end, and it is the block
alone if the block is no enumerator. So of two slices one lies in the other, or they have nothing in common. -/
theorem slice_is_subtree (l : List Block) (hc : isCanonical l = true) (hd : DistinctIds l) :
    (∀ id, blockSlice l id = none ↔ ∀ b ∈ l, b.id ≠ id) ∧
    (∀ id s, blockSlice l id = some s →
      (s.start < s.stop ∧ s.stop ≤ l.length) ∧
      (∀ j, s.start ≤ j ∧ j < s.stop ↔ j = s.start ∨ RepeatsUnder l j s.start) ∧
      s.stop = scanStop l s.start ∧
      ∃ b, l[s.start]? = some b ∧ b.id = id ∧ (b.isEnumerator = false → s.stop = s.start + 1)) ∧
    ∀ id id' s s', blockSlice l id = some s → blockSlice l id' = some s' →
      (s.stop ≤ s'.start ∨ s'.stop ≤ s.start) ∨
        (s.start ≤ s'.start ∧ s'.stop ≤ s.stop) ∨ (s'.start ≤ s.start ∧ s.stop ≤ s'.stop) := by
  have hn := isCanonical_iff_nested.1 hc
  refine ⟨fun id => blockSlice_eq_none, fun id s hs => ?_, fun id id' s s' hs hs' => ?_⟩
  · obtain ⟨b, n, hb, hid, htree, hpos, hstop, hend, hleaf⟩ := blockSlice_tree hn hd hs
    have hscan := htree.scanStop_eq ((isCanonical_iff_laidOut hd).1 hc) hd hpos (hstop ▸ hend)
    refine ⟨⟨by omega, hend⟩, hstop ▸ htree, hstop.trans hscan.symm, b, hb, hid, fun hen => ?_⟩
    rw [hstop, hleaf hen]
  · obtain ⟨-, n, -, -, htree, hpos, hstop, -⟩ := blockSlice_tree hn hd hs
    obtain ⟨-, n', -, -, htree', hpos', hstop', -⟩ := blockSlice_tree hn hd hs'
    by_cases hapart : s.stop ≤ s'.start ∨ s'.stop ≤ s.start
    · exact .inl hapart
    · refine .inr ?_
      rcases Nat.le_total s.start s'.start with hle | hle
      · have := htree.nested htree' hle (by omega) hpos'
        omega
      · have := htree'.nested htree hle (by omega) hpos
        omega

/-- In the household form the slice of the members goes as far as a scan from them, and the slice of the jobs lies
in it. -/
theorem slice_is_subtree_household :
    isCanonical household = true ∧ DistinctIds household ∧
      blockSlice household 2 = some ⟨1, 4⟩ ∧ blockSlice household 3 = some ⟨2, 4⟩ ∧ scanStop household 1 = 4 ∧
      RepeatsUnder household 3 1 ∧ ¬ RepeatsUnder household 4 1 ∧ blockSlice household 9 = none := by
  have hc : isCanonical household = true := by decide
  have hd : DistinctIds household := by decide
  have hmembers : blockSlice household 2 = some ⟨1, 4⟩ := by decide +kernel
  obtain ⟨hnone, hslice, -⟩ := slice_is_subtree household hc hd
  obtain ⟨-, htree, hscan, -⟩ := hslice 2 _ hmembers
  refine ⟨hc, hd, hmembers, by decide +kernel, hscan.symm, ?_, fun hsummary => ?_, (hnone 9).2 (by decide)⟩
  · exact ((htree 3).1 (by decide)).resolve_left (by decide)
  · exact absurd ((htree 4).2 (.inr hsummary)) (by decide)

end FormProgram
