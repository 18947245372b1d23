/-
Moving a block in a canonical list with distinct ids.

`Neighbors` shows two siblings with their trees, one right behind the other. A move exchanges the two
trees (`Neighbors.move_down`, `Neighbors.move_up`) and shows them again the other way round
(`Neighbors.exchange`); at the end of a sibling group nothing moves. The slices that are exchanged
always touch: the nearest earlier block of the group is the sibling just before, with its whole tree
in between.
-/
import FormProgram.Proofs.Site

set_option autoImplicit false

namespace FormProgram

theorem Slice.extract_append {α : Type} (xs mid ys : List α) :
    Slice.extract ⟨xs.length, xs.length + mid.length⟩ (xs ++ mid ++ ys) = mid := by
  rw [Slice.extract, ← List.length_append, List.take_left', List.drop_left'] <;> rfl

theorem swapSlices_comm {l : List Block} {p q : Slice} (h : p.start ≠ q.start) :
    swapSlices l p q = swapSlices l q p := by
  rcases Nat.lt_or_gt_of_ne h with hlt | hlt
  · simp only [swapSlices, if_pos hlt, if_neg (Nat.not_lt_of_gt hlt)]
  · simp only [swapSlices, if_pos hlt, if_neg (Nat.not_lt_of_gt hlt)]

theorem swapSlices_append (xs first second ys : List Block) (hfirst : first ≠ []) :
    swapSlices (xs ++ first ++ second ++ ys) ⟨xs.length, xs.length + first.length⟩
      ⟨xs.length + first.length, xs.length + first.length + second.length⟩ =
      some (xs ++ second ++ first ++ ys) := by
  have hpos : 0 < first.length := List.length_pos_iff.2 hfirst
  have hlt : xs.length < xs.length + first.length := by omega
  have hone := Slice.extract_append xs first (second ++ ys)
  have htwo := Slice.extract_append (xs ++ first) second ys
  rw [← List.append_assoc] at hone
  rw [List.length_append] at htwo
  have htake : (xs ++ first ++ second ++ ys).take xs.length = xs := by
    rw [List.append_assoc, List.append_assoc, List.take_left']
    rfl
  have hdrop : (xs ++ first ++ second ++ ys).drop (xs.length + first.length + second.length) = ys := by
    rw [List.drop_left']
    simp [Nat.add_assoc]
  have hstop : xs.length + first.length + second.length ≤ (xs ++ first ++ second ++ ys).length := by
    simp only [List.length_append]
    omega
  simp only [swapSlices, if_pos hlt, hone, htwo, htake, hdrop, true_and, if_pos hstop]

theorem exchange_perm (front first second back : List Block) :
    (front ++ second ++ first ++ back).Perm (front ++ first ++ second ++ back) :=
  (perm_outside front second first).append_right back

/-! ## Neighbouring siblings -/

theorem Nested.exists_last {k : Option BlockId} {l : List Block} (h : Nested k l) (hne : l ≠ []) :
    ∃ front y below, l = front ++ y :: below ∧ Nested k front ∧ y.enumerator = k ∧
      (y.isEnumerator = false → below = []) ∧ Nested (some y.id) below := by
  induction h with
  | nil => exact absurd rfl hne
  | @cons k b below rest he leaf inner later _ ih =>
    by_cases hr : rest = []
    · subst hr
      exact ⟨[], b, below, by simp, .nil, he, leaf, inner⟩
    · obtain ⟨front, y, low, rfl, hf, hy, hleaf, hin⟩ := ih hr
      exact ⟨b :: (below ++ front), y, low, by simp, .cons he leaf inner hf, hy, hleaf, hin⟩

/-- Two siblings `x` and `y`, the tree of `y` right behind the tree of `x`. -/
structure Neighbors (l before earlier : List Block) (x : Block) (below : List Block) (y : Block)
    (below' later after : List Block) : Prop where
  first : Site none l before earlier x below (y :: below' ++ later) after
  second : Site none l before (earlier ++ x :: below) y below' later after
  group : y.enumerator = x.enumerator

variable {l before earlier below below' later after : List Block} {x y : Block}

/-- A block with later siblings has one right behind its tree. -/
theorem Site.exists_next (s : Site none l before earlier x below later after) (hne : later ≠ []) :
    ∃ y below' later', later = y :: below' ++ later' ∧
      Neighbors l before earlier x below y below' later' after := by
  have hl := s.last
  generalize hk : x.enumerator = k at hl
  cases hl with
  | nil => exact absurd rfl hne
  | @cons _ y below' later' he leaf inner hlater =>
    refine ⟨y, below', later', rfl, s, ⟨?_, ?_, ?_, leaf, inner, ?_⟩, he.trans hk.symm⟩
    · rw [s.list]
      simp [List.append_assoc]
    · rw [he, ← hk]
      exact s.around
    · rw [he, ← hk]
      exact s.first.append (.tree s.leaf s.inner)
    · rw [he]
      exact hlater

/-- A block with earlier siblings has one whose tree ends right before it. -/
theorem Site.exists_previous (s : Site none l before earlier y below' later after) (hne : earlier ≠ []) :
    ∃ front x below, earlier = front ++ x :: below ∧
      Neighbors l before front x below y below' later after := by
  obtain ⟨front, x, below, rfl, hf, he, leaf, inner⟩ := s.first.exists_last hne
  refine ⟨front, x, below, rfl, ⟨?_, ?_, ?_, leaf, inner, ?_⟩, s, he.symm⟩
  · rw [s.list]
    simp [List.append_assoc]
  · rw [he]
    exact s.around
  · rw [he]
    exact hf
  · rw [he]
    exact (Nested.tree s.leaf s.inner).append s.last

namespace Neighbors

/-- The trees of both siblings exchanged. -/
theorem exchange (n : Neighbors l before earlier x below y below' later after) :
    Neighbors (before ++ (earlier ++ (y :: below') ++ (x :: below) ++ later) ++ after) before earlier
      y below' x below later after := by
  have hg := n.group
  refine ⟨⟨by simp [List.append_assoc], n.second.around, ?_, n.second.leaf, n.second.inner, ?_⟩,
    ⟨by simp [List.append_assoc], n.first.around, ?_, n.first.leaf, n.first.inner, ?_⟩, hg.symm⟩
  · rw [hg]
    exact n.first.first
  · rw [hg]
    exact (Nested.tree n.first.leaf n.first.inner).append (hg ▸ n.second.last)
  · have htree := Nested.tree n.second.leaf n.second.inner
    rw [hg] at htree
    exact n.first.first.append htree
  · rw [← hg]
    exact n.second.last

theorem list (n : Neighbors l before earlier x below y below' later after) :
    l = (before ++ earlier) ++ (x :: below) ++ (y :: below') ++ (later ++ after) := by
  rw [n.first.list]
  simp [List.append_assoc]

theorem perm (n : Neighbors l before earlier x below y below' later after) :
    (before ++ (earlier ++ (y :: below') ++ (x :: below) ++ later) ++ after).Perm l := by
  rw [n.exchange.list, n.list]
  exact exchange_perm (before ++ earlier) (x :: below) (y :: below') (later ++ after)

end Neighbors

/-! ## The sibling to change places with -/

theorem length_append_append {α : Type} (xs ys zs : List α) :
    (xs ++ (ys ++ zs)).length = (xs ++ ys).length + zs.length := by
  rw [← List.append_assoc, List.length_append]

theorem find?_reverse_range {n i : Nat} {pass : Nat → Bool} (hi : i < n) (hp : pass i = true)
    (h : ∀ j, i < j → j < n → pass j = false) : (List.range n).reverse.find? pass = some i := by
  induction n with
  | zero => omega
  | succ n ih =>
    rw [List.range_succ, List.reverse_append, List.reverse_singleton, List.singleton_append, List.find?_cons]
    by_cases hin : i = n
    · subst hin
      rw [hp]
    · rw [h n (by omega) (by omega)]
      exact ih (by omega) fun j hj hjn => h j hj (by omega)

/-- The block at a position belongs to a group. -/
def isSibling (blocks : List Block) (k : Option BlockId) (i : Nat) : Bool :=
  (blocks[i]?.map (·.enumerator == k)).getD false

theorem isSibling_eq {blocks : List Block} {i : Nat} {b : Block} {k : Option BlockId} (hb : blocks[i]? = some b) :
    isSibling blocks k i = (b.enumerator == k) := by
  rw [isSibling, hb]
  rfl

/-- A stretch of blocks outside of a group. -/
theorem isSibling_eq_false (xs mid ys : List Block) {k : Option BlockId} (h : ∀ b ∈ mid, b.enumerator ≠ k)
    {i : Nat} (hlo : xs.length ≤ i) (hhi : i < xs.length + mid.length) :
    isSibling (xs ++ mid ++ ys) k i = false := by
  have hi : i - xs.length < mid.length := by omega
  have hb : (xs ++ mid ++ ys)[i]? = some mid[i - xs.length] := by
    rw [List.append_assoc, List.getElem?_append_right hlo, List.getElem?_append_left hi,
      List.getElem?_eq_getElem hi]
  rw [isSibling_eq hb]
  simpa using h _ (List.getElem_mem hi)

namespace Site

variable {z : Block}

theorem neighbor_down (s : Site none l before earlier z below later after) (stop : Nat) :
    neighbor l ⟨(before ++ earlier).length, stop⟩ .down =
      if isSibling l z.enumerator stop then some stop else none := by
  simp only [neighbor, s.getElem?]
  rfl

theorem neighbor_up (s : Site none l before earlier z below later after) (stop : Nat) :
    neighbor l ⟨(before ++ earlier).length, stop⟩ .up =
      (List.range (before ++ earlier).length).reverse.find? (isSibling l z.enumerator) := by
  simp only [neighbor, s.getElem?]
  rfl

/-- What stands around the group of a block does not belong to it. -/
theorem around_ne (s : Site none l before earlier z below later after) (hd : DistinctIds l) :
    ∀ b ∈ before ++ after, b.enumerator ≠ z.enumerator := by
  have hsub : (before ++ after).Sublist l := by
    rw [s.list, List.append_assoc]
    exact (List.sublist_append_right _ _).append_left before
  exact s.around.enumerator_ne (List.Nodup.sublist (hsub.map _) hd) nofun

theorem neighbor_down_last (s : Site none l before earlier z below [] after) (hd : DistinctIds l) :
    neighbor l ⟨(before ++ earlier).length, (before ++ earlier).length + (z :: below).length⟩ .down = none := by
  have hl : l = ((before ++ earlier) ++ (z :: below)) ++ after ++ [] := by
    rw [s.list_tree]
    simp
  rw [s.neighbor_down, ← List.length_append]
  by_cases hin : ((before ++ earlier) ++ (z :: below)).length <
      ((before ++ earlier) ++ (z :: below)).length + after.length
  · have hne := fun b hb => s.around_ne hd b (List.mem_append_right before hb)
    have hno := isSibling_eq_false _ _ [] hne (Nat.le_refl _) hin
    rw [← hl] at hno
    rw [hno]
    rfl
  · have hnone : l[((before ++ earlier) ++ (z :: below)).length]? = none := by
      rw [List.getElem?_eq_none_iff, hl]
      simp only [List.length_append, List.length_nil] at hin ⊢
      omega
    rw [isSibling, hnone]
    rfl

theorem neighbor_up_first (s : Site none l before [] z below later after) (hd : DistinctIds l) (stop : Nat) :
    neighbor l ⟨(before ++ ([] : List Block)).length, stop⟩ .up = none := by
  have hl : l = [] ++ before ++ (z :: below ++ later ++ after) := by
    rw [s.list]
    simp
  rw [s.neighbor_up, List.find?_eq_none]
  intro i hi
  rw [List.mem_reverse, List.mem_range, List.append_nil] at hi
  have hne := fun b hb => s.around_ne hd b (List.mem_append_left after hb)
  have hlt : i < ([] : List Block).length + before.length := by simpa using hi
  have hno := isSibling_eq_false [] before (z :: below ++ later ++ after) hne (Nat.zero_le i) hlt
  rw [← hl] at hno
  rw [hno]
  exact Bool.false_ne_true

end Site

namespace Neighbors

theorem neighbor_down (n : Neighbors l before earlier x below y below' later after) :
    neighbor l ⟨(before ++ earlier).length, (before ++ earlier).length + (x :: below).length⟩ .down =
      some ((before ++ earlier).length + (x :: below).length) := by
  have hy := n.second.getElem?
  rw [length_append_append] at hy
  rw [n.first.neighbor_down, isSibling_eq hy, n.group, beq_self_eq_true, if_pos rfl]

/-- The blocks between two neighbouring siblings repeat under the first, so the first is the nearest
earlier block of the group. -/
theorem neighbor_up (n : Neighbors l before earlier x below y below' later after) (hd : DistinctIds l)
    (stop : Nat) :
    neighbor l ⟨(before ++ (earlier ++ x :: below)).length, stop⟩ .up = some (before ++ earlier).length := by
  rw [n.second.neighbor_up, n.group]
  have hlen := length_append_append before earlier (x :: below)
  rw [List.length_cons] at hlen
  refine find?_reverse_range (by omega) ?_ fun j hlo hhi => ?_
  · rw [isSibling_eq n.first.getElem?, beq_self_eq_true]
  · have hne : ∀ b ∈ below, b.enumerator ≠ x.enumerator := fun b hb =>
      n.first.below_ne hd (by simp) hb
    have hl : l = ((before ++ earlier) ++ [x]) ++ below ++ (y :: below' ++ (later ++ after)) := by
      rw [n.list]
      simp [List.append_assoc]
    rw [hl]
    have hone : ((before ++ earlier) ++ [x]).length = (before ++ earlier).length + 1 := by
      rw [List.length_append, List.length_singleton]
    exact isSibling_eq_false _ _ _ hne (by omega) (by omega)

end Neighbors

/-! ## Moving -/

variable {z : Block} {d : Direction}

namespace Site

theorem moveBlock_of_none (s : Site none l before earlier z below later after) (hd : DistinctIds l)
    (h : neighbor l ((Forest.ofBlocks l).sliceAt (before ++ earlier).length) d = none) :
    moveBlock l z.id d = .ok .atBoundary := by
  simp only [moveBlock, firstDuplicate_eq_none.2 hd, hd.positionOf s.getElem?, h]

theorem moveBlock_of_some (s : Site none l before earlier z below later after) (hd : DistinctIds l)
    {i : Nat} {moved : List Block}
    (h : neighbor l ((Forest.ofBlocks l).sliceAt (before ++ earlier).length) d = some i)
    (hswap : swapSlices l ((Forest.ofBlocks l).sliceAt (before ++ earlier).length)
      ((Forest.ofBlocks l).sliceAt i) = some moved) :
    moveBlock l z.id d = .ok (.moved moved) := by
  simp only [moveBlock, firstDuplicate_eq_none.2 hd, hd.positionOf s.getElem?, h, hswap]

theorem move_down_last (s : Site none l before earlier z below [] after) (hd : DistinctIds l) :
    moveBlock l z.id .down = .ok .atBoundary := by
  refine s.moveBlock_of_none hd ?_
  rw [s.sliceAt hd, s.neighbor_down_last hd]

theorem move_up_first (s : Site none l before [] z below later after) (hd : DistinctIds l) :
    moveBlock l z.id .up = .ok .atBoundary := by
  refine s.moveBlock_of_none hd ?_
  rw [s.sliceAt hd, s.neighbor_up_first hd]

end Site

namespace Neighbors

theorem swap (n : Neighbors l before earlier x below y below' later after) (hd : DistinctIds l) :
    swapSlices l ((Forest.ofBlocks l).sliceAt (before ++ earlier).length)
        ((Forest.ofBlocks l).sliceAt (before ++ (earlier ++ x :: below)).length) =
      some (before ++ (earlier ++ (y :: below') ++ (x :: below) ++ later) ++ after) := by
  have h := swapSlices_append (before ++ earlier) (x :: below) (y :: below') (later ++ after)
    (List.cons_ne_nil x below)
  rw [← n.list] at h
  rw [n.first.sliceAt hd, n.second.sliceAt hd, length_append_append, h]
  simp [List.append_assoc]

/-- Moving the first of two neighbours down exchanges their trees. -/
theorem move_down (n : Neighbors l before earlier x below y below' later after) (hd : DistinctIds l) :
    moveBlock l x.id .down =
      .ok (.moved (before ++ (earlier ++ (y :: below') ++ (x :: below) ++ later) ++ after)) := by
  refine n.first.moveBlock_of_some hd ?_ (n.swap hd)
  rw [n.first.sliceAt hd, n.neighbor_down, length_append_append]

/-- So does moving the second up. -/
theorem move_up (n : Neighbors l before earlier x below y below' later after) (hd : DistinctIds l) :
    moveBlock l y.id .up =
      .ok (.moved (before ++ (earlier ++ (y :: below') ++ (x :: below) ++ later) ++ after)) := by
  have hne : (before ++ earlier).length ≠ (before ++ (earlier ++ x :: below)).length := by
    rw [length_append_append, List.length_cons]
    omega
  have hswap := n.swap hd
  rw [swapSlices_comm hne] at hswap
  refine n.second.moveBlock_of_some hd ?_ hswap
  rw [n.second.sliceAt hd, n.neighbor_up hd]

end Neighbors

/-- What a move of a block does to its list. -/
inductive Moved (l : List Block) (id : BlockId) : Direction → MoveOutcome → Prop
  | last {before earlier below after : List Block} {z : Block} (site : Site none l before earlier z below [] after)
      (named : z.id = id) : Moved l id .down .atBoundary
  | first {before below later after : List Block} {z : Block} (site : Site none l before [] z below later after)
      (named : z.id = id) : Moved l id .up .atBoundary
  | down {before earlier below below' later after : List Block} {x y : Block}
      (neighbors : Neighbors l before earlier x below y below' later after) (named : x.id = id) :
      Moved l id .down (.moved (before ++ (earlier ++ (y :: below') ++ (x :: below) ++ later) ++ after))
  | up {before earlier below below' later after : List Block} {x y : Block}
      (neighbors : Neighbors l before earlier x below y below' later after) (named : y.id = id) :
      Moved l id .up (.moved (before ++ (earlier ++ (y :: below') ++ (x :: below) ++ later) ++ after))

/-- **A move in canonical order**: a block that is there either stays, being the first or the last of its
group, or changes places with its neighbour. -/
theorem moveBlock_cases (h : Nested none l) (hd : DistinctIds l) (id : BlockId) (d : Direction) :
    ((∀ b ∈ l, b.id ≠ id) ∧ moveBlock l id d = .error (.missingBlock id)) ∨
      ∃ outcome, moveBlock l id d = .ok outcome ∧ Moved l id d outcome := by
  cases hp : positionOf l id with
  | none =>
    refine .inl ⟨positionOf_eq_none.1 hp, ?_⟩
    simp only [moveBlock, firstDuplicate_eq_none.2 hd, hp]
  | some i =>
    obtain ⟨z, hz, rfl⟩ := block_of_positionOf hp
    obtain ⟨before, earlier, below, later, after, -, s⟩ := h.site_at hz
    refine .inr ?_
    cases d with
    | down =>
      by_cases hl : later = []
      · subst hl
        exact ⟨_, s.move_down_last hd, .last s rfl⟩
      · obtain ⟨y, below', later', -, n⟩ := s.exists_next hl
        exact ⟨_, n.move_down hd, .down n rfl⟩
    | up =>
      by_cases he : earlier = []
      · subst he
        exact ⟨_, s.move_up_first hd, .first s rfl⟩
      · obtain ⟨front, x, below', -, n⟩ := s.exists_previous he
        exact ⟨_, n.move_up hd, .up n rfl⟩

theorem Moved.of_moveBlock {id : BlockId} {outcome : MoveOutcome} (h : Nested none l) (hd : DistinctIds l)
    (hm : moveBlock l id d = .ok outcome) : Moved l id d outcome := by
  rcases moveBlock_cases h hd id d with ⟨-, he⟩ | ⟨_, ho, hcase⟩
  · rw [he] at hm
    cases hm
  · rw [hm] at ho
    cases ho
    exact hcase

/-- A move keeps the blocks and the canonical order. -/
theorem Moved.kept {id : BlockId} {moved : List Block} (h : Moved l id d (.moved moved)) :
    moved.Perm l ∧ Nested none moved := by
  cases h with
  | down n => exact ⟨n.perm, n.exchange.first.nested⟩
  | up n => exact ⟨n.perm, n.exchange.first.nested⟩

end FormProgram
