/-
A move, told by sibling groups and chains of enumerators: two neighbours in a group change places, each
with its tree.

The two directions look for the neighbour in different ways, one back over whole trees, the other at a
single position; what they find is the same (`moveBlock_eq_moved_iff`), and it is all that a move does
(`moveBlock_exchanges_siblings`).
-/
import FormProgram.Proofs.Layout
import FormProgram.Proofs.Moves

set_option autoImplicit false

namespace FormProgram

variable {l m before earlier below below' later after : List Block} {x y z : Block} {d : Direction}

/-- Of two siblings, one right behind the other, the one that a move in a direction is asked of. -/
def Direction.mover : Direction → Block → Block → Block
  | .up, _, second => second
  | .down, first, _ => first

/-- The block of a row that has no neighbour in a direction. -/
def Direction.endOf : Direction → List Block → Option Block
  | .up, row => row.head?
  | .down, row => row.getLast?

/-- So many blocks from a position on are the block there and exactly what repeats under it, directly or
further down. -/
def TreeAt (l : List Block) (i size : Nat) : Prop :=
  ∀ j, i ≤ j ∧ j < i + size ↔ j = i ∨ RepeatsUnder l j i

/-- `second` is the sibling right behind `first`. -/
def Precedes (l : List Block) (first second : Block) : Prop :=
  ∃ gs gs', group l first.enumerator = gs ++ first :: second :: gs'

/-- `m` is `l` with two trees exchanged that touch, the one of `x` and the one of `y` behind it. -/
def Exchange (l : List Block) (x y : Block) (m : List Block) : Prop :=
  ∃ xs below below' ys, l = xs ++ (x :: below) ++ (y :: below') ++ ys ∧
    m = xs ++ (y :: below') ++ (x :: below) ++ ys ∧
    TreeAt l xs.length (x :: below).length ∧ TreeAt l (xs ++ x :: below).length (y :: below').length

/-- `m` is `l` with `x` past its neighbour in a direction, both with their trees. -/
def Swapped (l : List Block) (x : Block) (d : Direction) (m : List Block) : Prop :=
  ∃ first second, d.mover first second = x ∧ Precedes l first second ∧ Exchange l first second m

theorem DistinctIds.nodup (hd : DistinctIds l) : l.Nodup := List.Nodup.of_map _ hd

theorem DistinctIds.nodup_group (hd : DistinctIds l) (k : Option BlockId) : (group l k).Nodup :=
  hd.nodup.sublist List.filter_sublist

theorem Precedes.mem (h : Precedes l x y) : x ∈ l ∧ y ∈ l ∧ y.enumerator = x.enumerator := by
  obtain ⟨gs, gs', hg⟩ := h
  have hx : x ∈ group l x.enumerator := by simp [hg]
  have hy : y ∈ group l x.enumerator := by simp [hg]
  exact ⟨(mem_group.1 hx).1, mem_group.1 hy⟩

theorem Precedes.mover (h : Precedes l x y) (d : Direction) :
    d.mover x y ∈ l ∧ (d.mover x y).enumerator = x.enumerator := by
  obtain ⟨hx, hy, he⟩ := h.mem
  cases d with
  | up => exact ⟨hy, he⟩
  | down => exact ⟨hx, rfl⟩

/-- An element that occurs once divides a list in one way. -/
theorem sides_unique {α : Type} {row xs ys xs' ys' : List α} {a : α} (hn : row.Nodup)
    (h : row = xs ++ a :: ys) (h' : row = xs' ++ a :: ys') : xs = xs' ∧ ys = ys' := by
  have hout : a ∉ xs ∧ a ∉ ys := by
    rw [h, List.nodup_append] at hn
    exact ⟨fun ha => hn.2.2 a ha a List.mem_cons_self rfl, (List.nodup_cons.1 hn.2.1).1⟩
  obtain ⟨hxs, -, hys⟩ := (List.append_cons_inj_of_notMem hout.1 hout.2).1 (h.symm.trans h')
  exact ⟨hxs, hys⟩

theorem Precedes.second_unique (hd : DistinctIds l) (h : Precedes l x y) (h' : Precedes l x z) : y = z := by
  obtain ⟨_, _, hg⟩ := h
  obtain ⟨_, _, hg'⟩ := h'
  exact (List.cons.inj (sides_unique (hd.nodup_group _) hg hg').2).1

theorem TreeAt.unique {i n n' : Nat} (h : TreeAt l i n) (h' : TreeAt l i n') : n = n' := by
  have hsame : ∀ j, i ≤ j ∧ j < i + n ↔ i ≤ j ∧ j < i + n' := fun j => (h j).trans (h' j).symm
  have hn := hsame (i + n)
  have hn' := hsame (i + n')
  omega

theorem Exchange.unique {m' : List Block} (hd : DistinctIds l) (h : Exchange l x y m) (h' : Exchange l x y m') :
    m = m' := by
  obtain ⟨xs, below, below', ys, hl, rfl, htree, htree'⟩ := h
  obtain ⟨xs₁, below₁, below₁', ys₁, hl₁, rfl, htree₁, htree₁'⟩ := h'
  have hx : l[xs.length]? = some x := by simp [hl, List.append_assoc]
  have hx₁ : l[xs₁.length]? = some x := by simp [hl₁, List.append_assoc]
  have hxs : xs.length = xs₁.length := hd.position_unique hx hx₁ rfl
  rw [← hxs] at htree₁
  have hfirst := htree.unique htree₁
  have hstart : (xs ++ x :: below).length = (xs₁ ++ x :: below₁).length := by
    rw [List.length_append, List.length_append, hxs, hfirst]
  rw [← hstart] at htree₁'
  have hsecond := htree'.unique htree₁'
  -- The parts have the same lengths, so they are the same.
  have hthree : (xs ++ (x :: below) ++ (y :: below')).length = (xs₁ ++ (x :: below₁) ++ (y :: below₁')).length := by
    rw [List.length_append, hstart, hsecond, ← List.length_append]
  obtain ⟨hl₂, rfl⟩ := List.append_inj (hl.symm.trans hl₁) hthree
  obtain ⟨hl₃, htwo⟩ := List.append_inj hl₂ hstart
  obtain ⟨rfl, hone⟩ := List.append_inj hl₃ hxs
  rw [hone, htwo]

/-! ## Sites and groups -/

namespace Site

theorem treeAt (s : Site none l before earlier z below later after) (hd : DistinctIds l) :
    TreeAt l (before ++ earlier).length (z :: below).length := by
  intro j
  rw [s.repeatsUnder_iff hd, List.length_cons]
  omega

/-- Of a tree only its root belongs to the group of the root. -/
theorem group_root (s : Site none l before earlier z below later after) (hd : DistinctIds l) :
    group (z :: below) z.enumerator = [z] := by
  have hbelow : group below z.enumerator = [] := group_eq_nil_of_ne fun c hc => s.below_ne hd (by simp) hc
  rw [← List.singleton_append, group_append, hbelow, List.append_nil]
  simp [group]

/-- The group of a block: what stands around the group has no part in it. -/
theorem group_list (s : Site none l before earlier z below later after) (hd : DistinctIds l) :
    group l z.enumerator = group earlier z.enumerator ++ z :: group later z.enumerator := by
  have hbefore : group before z.enumerator = [] :=
    group_eq_nil_of_ne fun b hb => s.around_ne hd b (List.mem_append_left after hb)
  have hafter : group after z.enumerator = [] :=
    group_eq_nil_of_ne fun b hb => s.around_ne hd b (List.mem_append_right before hb)
  have hl := congrArg (group · z.enumerator) s.list
  simp only [group_append, hbefore, hafter, s.group_root hd] at hl
  simpa using hl

/-- Whatever else repeats within a tree repeats under a block of the tree. -/
theorem owner_of_group (s : Site none l before earlier z below later after) {k : Option BlockId}
    (hk : k ≠ z.enumerator) (hne : group (z :: below) k ≠ []) : ∃ c ∈ z :: below, k = some c.id := by
  obtain ⟨b, hb⟩ := List.exists_mem_of_ne_nil _ hne
  obtain ⟨hmem, rfl⟩ := mem_group.1 hb
  rcases List.mem_cons.1 hmem with rfl | hmem
  · exact absurd rfl hk
  · rcases s.inner.enumerator_of_mem hmem with he | ⟨c, hc, he⟩
    · exact ⟨z, List.mem_cons_self, he⟩
    · exact ⟨c, List.mem_cons_of_mem z hc, he⟩

end Site

section Neighbors

variable (n : Neighbors l before earlier x below y below' later after) (hd : DistinctIds l)
include n hd

theorem group_of_neighbors :
    group l x.enumerator = group earlier x.enumerator ++ x :: y :: group later x.enumerator := by
  have hsecond := n.second.group_root hd
  rw [n.group] at hsecond
  rw [n.first.group_list hd, group_append, hsecond]
  rfl

theorem Neighbors.precedes : Precedes l x y := ⟨_, _, group_of_neighbors n hd⟩

theorem Neighbors.distinct_exchanged :
    DistinctIds (before ++ (earlier ++ (y :: below') ++ (x :: below) ++ later) ++ after) :=
  (DistinctIds.perm n.perm).2 hd

/-- In their group the two have changed places. -/
theorem group_of_exchanged :
    group (before ++ (earlier ++ (y :: below') ++ (x :: below) ++ later) ++ after) x.enumerator =
      group earlier x.enumerator ++ y :: x :: group later x.enumerator := by
  have h := group_of_neighbors n.exchange (n.distinct_exchanged hd)
  rwa [n.group] at h

/-- No other group has blocks in both trees. -/
theorem group_of_others {k : Option BlockId} (hk : k ≠ x.enumerator) :
    group (before ++ (earlier ++ (y :: below') ++ (x :: below) ++ later) ++ after) k = group l k := by
  have hone : group (x :: below) k = [] ∨ group (y :: below') k = [] := by
    by_contra! hne
    obtain ⟨c, hc, hkc⟩ := n.first.owner_of_group hk hne.1
    obtain ⟨c', hc', hkc'⟩ := n.second.owner_of_group (n.group ▸ hk) hne.2
    rw [n.list] at hd
    obtain ⟨hd, -, -⟩ := DistinctIds.append.1 hd
    obtain ⟨-, -, hdis⟩ := DistinctIds.append.1 hd
    exact hdis c (List.mem_append_right _ hc) c' hc' (Option.some.inj (hkc.symm.trans hkc'))
  have hcomm : group (y :: below') k ++ group (x :: below) k = group (x :: below) k ++ group (y :: below') k := by
    rcases hone with h | h <;> simp [h]
  rw [n.exchange.list, n.list]
  simp only [group_append, List.append_assoc]
  rw [← List.append_assoc (group (y :: below') k), hcomm, List.append_assoc]

theorem Neighbors.exchanged :
    Exchange l x y (before ++ (earlier ++ (y :: below') ++ (x :: below) ++ later) ++ after) := by
  have hsecond := n.second.treeAt hd
  rw [← List.append_assoc] at hsecond
  exact ⟨_, below, below', _, n.list, n.exchange.list, n.first.treeAt hd, hsecond⟩

end Neighbors

/-- Two siblings, one right behind the other, are neighbours. -/
theorem Precedes.neighbors (h : Precedes l x y) (hn : Nested none l) (hd : DistinctIds l) :
    ∃ before earlier below below' later after, Neighbors l before earlier x below y below' later after := by
  obtain ⟨i, hi⟩ := List.mem_iff_getElem?.1 h.mem.1
  obtain ⟨before, earlier, below, later, after, -, s⟩ := hn.site_at hi
  have hlater : later ≠ [] := by
    rintro rfl
    obtain ⟨gs, gs', hg⟩ := h
    have hbehind := (sides_unique (hd.nodup_group _) hg (s.group_list hd)).2
    cases hbehind
  obtain ⟨y', below', later', -, n⟩ := s.exists_next hlater
  cases h.second_unique hd (n.precedes hd)
  exact ⟨_, _, _, _, _, _, n⟩

/-! ## Moves -/

theorem Moved.swapped {id : BlockId} (h : Moved l id d (.moved m)) (hd : DistinctIds l) :
    ∃ x, x.id = id ∧ Swapped l x d m := by
  cases h with
  | down n hid => exact ⟨_, hid, _, _, rfl, n.precedes hd, n.exchanged hd⟩
  | up n hid => exact ⟨_, hid, _, _, rfl, n.precedes hd, n.exchanged hd⟩

/-- Where there is a neighbour, the move finds it. -/
theorem Swapped.moveBlock (h : Swapped l x d m) (hn : Nested none l) (hd : DistinctIds l) :
    FormProgram.moveBlock l x.id d = .ok (.moved m) := by
  obtain ⟨first, second, hx, hp, he⟩ := h
  obtain ⟨before, earlier, below, below', later, after, n⟩ := hp.neighbors hn hd
  rw [he.unique hd (n.exchanged hd), ← hx]
  cases d with
  | up => exact n.move_up hd
  | down => exact n.move_down hd

/-- **What a move does in canonical order** is to exchange two neighbouring trees. -/
theorem moveBlock_eq_moved_iff (hn : Nested none l) (hd : DistinctIds l) {id : BlockId} :
    moveBlock l id d = .ok (.moved m) ↔ ∃ x, x.id = id ∧ Swapped l x d m := by
  constructor
  · intro h
    exact (Moved.of_moveBlock hn hd h).swapped hd
  · rintro ⟨x, rfl, h⟩
    exact h.moveBlock hn hd

theorem moveBlock_eq_missing_iff (hd : DistinctIds l) {id : BlockId} :
    moveBlock l id d = .error (.missingBlock id) ↔ ∀ b ∈ l, b.id ≠ id := by
  rw [← positionOf_eq_none, moveBlock, firstDuplicate_eq_none.2 hd]
  dsimp only
  cases positionOf l id with
  | none => simp
  | some i =>
    simp only [reduceCtorEq, iff_false]
    split
    · simp
    · split <;> simp

/-! ## Ends of groups -/

/-- A block with a neighbour in a direction is not the end of its group there. -/
theorem Precedes.endOf_ne (h : Precedes l x y) (hd : DistinctIds l) (d : Direction) :
    d.endOf (group l x.enumerator) ≠ some (d.mover x y) := by
  obtain ⟨gs, gs', hg⟩ := h
  have hn := hd.nodup_group x.enumerator
  intro hend
  cases d with
  | up =>
    obtain ⟨rest, hrest⟩ := List.head?_eq_some_iff.1 hend
    rw [List.append_cons] at hg
    have hstart : group l x.enumerator = [] ++ y :: rest := hrest
    have hfront : [] = gs ++ [x] := (sides_unique hn hstart hg).1
    simp at hfront
  | down =>
    obtain ⟨rest, hrest⟩ := List.getLast?_eq_some_iff.1 hend
    have hback : [] = y :: gs' := (sides_unique hn hrest hg).2
    cases hback

/-- A block that stays is the end of its group. -/
theorem Moved.endOf {id : BlockId} (h : Moved l id d .atBoundary) (hd : DistinctIds l) :
    ∃ x ∈ l, x.id = id ∧ d.endOf (group l x.enumerator) = some x := by
  cases h with
  | last s hid =>
    refine ⟨_, List.mem_of_getElem? s.getElem?, hid, ?_⟩
    rw [s.group_list hd]
    exact List.getLast?_concat
  | first s hid =>
    refine ⟨_, List.mem_of_getElem? s.getElem?, hid, ?_⟩
    rw [s.group_list hd]
    rfl

/-- Two siblings, the second right behind the first, and the list in which they have changed places: their
trees are exchanged, so that the two are transposed in their group, and all else is as it was. -/
structure Trade (l : List Block) (first second : Block) (m : List Block) : Prop where
  trees : Exchange l first second m
  transposed : ∃ gs gs', group l first.enumerator = gs ++ first :: second :: gs' ∧
    group m first.enumerator = gs ++ second :: first :: gs'
  others : ∀ k, k ≠ first.enumerator → group m k = group l k
  canonical : isCanonical m = true

theorem Trade.precedes (h : Trade l x y m) : Precedes l x y := h.transposed.imp fun _ h => h.imp fun _ h => h.1

theorem Neighbors.trade (n : Neighbors l before earlier x below y below' later after) (hd : DistinctIds l) :
    Trade l x y (before ++ (earlier ++ (y :: below') ++ (x :: below) ++ later) ++ after) where
  trees := n.exchanged hd
  transposed := ⟨_, _, group_of_neighbors n hd, group_of_exchanged n hd⟩
  others _ := group_of_others n hd
  canonical := isCanonical_iff_nested.2 n.exchange.first.nested

theorem Moved.trade {id : BlockId} (h : Moved l id d (.moved m)) (hd : DistinctIds l) :
    ∃ first second, (d.mover first second).id = id ∧ Trade l first second m := by
  cases h with
  | down n hid => exact ⟨_, _, hid, n.trade hd⟩
  | up n hid => exact ⟨_, _, hid, n.trade hd⟩

/-- **A move exchanges two neighbouring siblings.** In a list with an id that repeats nothing is moved, and the
first such id is reported. Otherwise a block is missing only if none has the id; and in canonical order the block
stays just where it is the end of its group in the direction of the move, and else changes places with its
neighbour in the group, each with all that repeats under it. The slices always touch. -/
theorem moveBlock_exchanges_siblings (l : List Block) (id : BlockId) (d : Direction) :
    (¬ DistinctIds l → ∃ before b after, l = before ++ b :: after ∧ DistinctIds before ∧
      (∃ c ∈ before, c.id = b.id) ∧ moveBlock l id d = .error (.duplicateBlock b.id)) ∧
    (DistinctIds l → (moveBlock l id d = .error (.missingBlock id) ↔ ∀ b ∈ l, b.id ≠ id)) ∧
    (isCanonical l = true → DistinctIds l →
      (∀ e, moveBlock l id d ≠ .error (.apart e)) ∧
      ∀ x ∈ l, x.id = id →
        (moveBlock l id d = .ok .atBoundary ↔ d.endOf (group l x.enumerator) = some x) ∧
        (d.endOf (group l x.enumerator) ≠ some x → ∃ first second m, d.mover first second = x ∧
          moveBlock l id d = .ok (.moved m) ∧ Trade l first second m)) := by
  refine ⟨fun hrepeat => ?_, fun hd => moveBlock_eq_missing_iff hd, fun hc hd => ?_⟩
  · obtain ⟨twice, htwice⟩ := Option.ne_none_iff_exists'.1 (mt firstDuplicate_eq_none.1 hrepeat)
    obtain ⟨before, b, after, hl, rfl, hbefore, hb⟩ := firstDuplicate_eq_some htwice
    exact ⟨before, b, after, hl, hbefore, hb, by rw [moveBlock, htwice]⟩
  · have hn := isCanonical_iff_nested.1 hc
    rcases moveBlock_cases hn hd id d with ⟨hmissing, he⟩ | ⟨outcome, ho, hcase⟩
    · rw [he]
      exact ⟨by simp, fun x hx hid => absurd hid (hmissing x hx)⟩
    · rw [ho]
      refine ⟨by simp, fun x hx hid => ?_⟩
      cases outcome with
      | atBoundary =>
        obtain ⟨z, hz, hzid, hend⟩ := hcase.endOf hd
        cases hd.eq_of_id hz hx (hzid.trans hid.symm)
        exact ⟨iff_of_true rfl hend, fun hne => absurd hend hne⟩
      | moved m =>
        obtain ⟨first, second, hmover, ht⟩ := hcase.trade hd
        obtain ⟨hz, he⟩ := ht.precedes.mover d
        cases hd.eq_of_id hz hx (hmover.trans hid.symm)
        have hend := ht.precedes.endOf_ne hd d
        rw [← he] at hend
        exact ⟨iff_of_false (by simp) hend, fun _ => ⟨first, second, m, rfl, rfl, ht⟩⟩

/-- In the household form the summary moves up past the members and all that repeats under them, and the jobs, being
the only block that repeats under the members, stay. -/
theorem moveBlock_exchanges_siblings_household :
    isCanonical household = true ∧ DistinctIds household ∧
      (∃ first second m, Direction.up.mover first second = household[4] ∧
        moveBlock household 5 .up = .ok (.moved m) ∧ Trade household first second m) ∧
      moveBlock household 3 .down = .ok .atBoundary := by
  have hc : isCanonical household = true := by decide
  have hd : DistinctIds household := by decide
  have hsummary : Direction.up.endOf (group household none) ≠ some household[4] := by
    intro h
    have hid : (Direction.up.endOf (group household none)).map (·.id) = some 5 := congrArg (Option.map (·.id)) h
    revert hid
    decide
  obtain ⟨-, -, hup⟩ := moveBlock_exchanges_siblings household 5 .up
  obtain ⟨-, -, hdown⟩ := moveBlock_exchanges_siblings household 3 .down
  refine ⟨hc, hd, ((hup hc hd).2 household[4] (List.getElem_mem _) rfl).2 hsummary, ?_⟩
  exact ((hdown hc hd).2 household[2] (List.getElem_mem _) rfl).1.2 rfl

end FormProgram
