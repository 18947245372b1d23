/-
The forest of a block list, read as blocks.

`nested_canonicalOrder`: whatever the list, walking its forest gives a nested list. With distinct ids
the walk is fixed by the sibling groups alone (`canonicalOrder_eq`), so a nested list is its own
canonical order (`canonicalOrder_eq_self`).
-/
import FormProgram.Proofs.ForestFacts
import FormProgram.Proofs.Nested
import FormProgram.Proofs.Positions

set_option autoImplicit false

namespace FormProgram

variable {blocks : List Block} {b c : Block} {i j : Nat}

theorem size_ofBlocks : (Forest.ofBlocks blocks).size = blocks.length := by
  simp [Forest.size, Forest.ofBlocks]

theorem place_ofBlocks {p : Place} :
    (Forest.ofBlocks blocks).places[i]? = some p ↔ ∃ b, blocks[i]? = some b ∧ Place.of blocks i b = p := by
  simp [Forest.ofBlocks]

theorem placeOf_eq_root : Place.of blocks i b = .root ↔ b.enumerator = none := by
  unfold Place.of
  split
  next h => simp [h]
  next e h =>
    simp only [h, reduceCtorEq, iff_false]
    split
    · simp
    · split <;> simp

theorem placeOf_eq_under :
    Place.of blocks j b = .under i ↔
      i ≠ j ∧ ∃ c, blocks[i]? = some c ∧ c.isEnumerator = true ∧ b.enumerator = some c.id ∧
        positionOf blocks c.id = some i := by
  unfold Place.of
  split
  next h => simp [h]
  next e h =>
    split
    next hp =>
      simp only [reduceCtorEq, false_iff, not_and, not_exists]
      rintro - c - - he hc
      cases h.symm.trans he
      rw [hp] at hc
      cases hc
    next p hp =>
      obtain ⟨c, hc, hid⟩ := block_of_positionOf hp
      simp only [hc, Option.map_some, Option.getD_some, Bool.and_eq_true, bne_iff_ne]
      split
      next hcond =>
        constructor
        · intro heq
          cases heq
          exact ⟨hcond.1, c, hc, hcond.2, by rw [h, hid], by rw [hid, hp]⟩
        · rintro ⟨-, d, -, -, he, hd⟩
          cases h.symm.trans he
          rw [hp] at hd
          cases hd
          rfl
      next hcond =>
        simp only [reduceCtorEq, false_iff, not_and, not_exists]
        intro hne d hd hen he hpos
        cases h.symm.trans he
        rw [hp] at hpos
        cases hpos
        rw [hc] at hd
        cases hd
        exact hcond ⟨hne, hen⟩

theorem mem_roots_ofBlocks :
    i ∈ (Forest.ofBlocks blocks).roots ↔ ∃ b, blocks[i]? = some b ∧ b.enumerator = none := by
  simp [Forest.mem_roots, place_ofBlocks, placeOf_eq_root]

/-- A node's parent is the first enumerator block of the id it names, unless that is the node. -/
theorem parent?_ofBlocks :
    (Forest.ofBlocks blocks).parent? j = some i ↔
      i ≠ j ∧ ∃ b c, blocks[j]? = some b ∧ blocks[i]? = some c ∧ c.isEnumerator = true ∧
        b.enumerator = some c.id ∧ positionOf blocks c.id = some i := by
  rw [Forest.parent?_eq_some, place_ofBlocks]
  constructor
  · rintro ⟨b, hb, h⟩
    obtain ⟨hne, c, hc, h⟩ := placeOf_eq_under.1 h
    exact ⟨hne, b, c, hb, hc, h⟩
  · rintro ⟨hne, b, c, hb, hc, h⟩
    exact ⟨b, hb, placeOf_eq_under.2 ⟨hne, c, hc, h⟩⟩

theorem nested_pick_walk (n : Nat) (hb : blocks[i]? = some b) :
    Nested b.enumerator (pick blocks ((Forest.ofBlocks blocks).walk n i)) := by
  induction n generalizing i b with
  | zero => exact .nil
  | succ n ih =>
    rw [Forest.walk, pick_cons hb, pick_flatMap]
    refine Nested.tree (fun hleaf => ?_) (Nested.flatMap fun j hj => ?_)
    · have hnone : (Forest.ofBlocks blocks).children i = [] := by
        refine List.eq_nil_iff_forall_not_mem.2 fun j hj => ?_
        obtain ⟨-, -, c, -, hc, hen, -⟩ := parent?_ofBlocks.1 (Forest.mem_children.1 hj)
        rw [hb] at hc
        cases hc
        rw [hleaf] at hen
        cases hen
      rw [hnone]
      rfl
    · obtain ⟨-, d, c, hd, hc, -, he, -⟩ := parent?_ofBlocks.1 (Forest.mem_children.1 hj)
      rw [hb] at hc
      cases hc
      rw [← he]
      exact ih hd

/-- **Ordering gives nested lists**, from lists of any kind: ids may repeat, enumerators may be missing
or repeat in a circle. -/
theorem nested_canonicalOrder (blocks : List Block) : Nested none (canonicalOrder blocks) := by
  rw [canonicalOrder, Forest.preorder, pick_flatMap]
  refine Nested.flatMap fun i hi => ?_
  obtain ⟨b, hb, he⟩ := mem_roots_ofBlocks.1 hi
  rw [← he]
  exact nested_pick_walk _ hb

theorem isCanonical_canonicalOrder (blocks : List Block) : isCanonical (canonicalOrder blocks) = true :=
  isCanonical_iff_nested.2 (nested_canonicalOrder blocks)

/-- The blocks that repeat under `k`, in list order. -/
def group (blocks : List Block) (k : Option BlockId) : List Block := blocks.filter (·.enumerator == k)

theorem mem_group {k : Option BlockId} : b ∈ group blocks k ↔ b ∈ blocks ∧ b.enumerator = k := by
  simp [group]

theorem group_append {xs ys : List Block} (k : Option BlockId) :
    group (xs ++ ys) k = group xs k ++ group ys k := List.filter_append ..

theorem group_eq_nil_of_ne {k : Option BlockId} (h : ∀ b ∈ blocks, b.enumerator ≠ k) : group blocks k = [] := by
  simpa [group] using h

/-- A nested list has blocks of its own group and of the groups under its blocks only. -/
theorem Nested.group_eq_nil {k k' : Option BlockId} {l : List Block} (h : Nested k l) (hk : k ≠ k')
    (hid : ∀ c ∈ l, some c.id ≠ k') : group l k' = [] := by
  refine group_eq_nil_of_ne fun x hx hxk => ?_
  rcases h.enumerator_of_mem hx with h | ⟨c, hc, h⟩
  · exact hk (h.symm.trans hxk)
  · exact hid c hc (h.symm.trans hxk)

/-- The blocks that repeat directly under a block. -/
def groupUnder (blocks : List Block) (b : Block) : List Block :=
  if b.isEnumerator then group blocks (some b.id) else []

/-- A block followed by what repeats under it, on that many levels. -/
def subtreeOf (blocks : List Block) : Nat → Block → List Block
  | 0, _ => []
  | n + 1, b => b :: (groupUnder blocks b).flatMap (subtreeOf blocks n)

theorem pick_roots : pick blocks (Forest.ofBlocks blocks).roots = group blocks none := by
  rw [Forest.roots, Forest.nodesAt_eq, size_ofBlocks]
  refine pick_filter_range fun i b hb => ?_
  rw [Bool.eq_iff_iff, beq_iff_eq, beq_iff_eq, place_ofBlocks]
  simp [hb, placeOf_eq_root]

theorem pick_children (hd : DistinctIds blocks) (hb : blocks[i]? = some b) (hself : b.enumerator ≠ some b.id) :
    pick blocks ((Forest.ofBlocks blocks).children i) = groupUnder blocks b := by
  rw [Forest.children, Forest.nodesAt_eq, size_ofBlocks, groupUnder]
  have hkeep : ∀ (j : Nat) (c : Block), blocks[j]? = some c → (((Forest.ofBlocks blocks).places[j]? == some (Place.under i)) =
      (b.isEnumerator && c.enumerator == some b.id)) := by
    intro j c hc
    rw [Bool.eq_iff_iff, beq_iff_eq, Bool.and_eq_true, beq_iff_eq, place_ofBlocks]
    simp only [hc, Option.some.injEq, exists_eq_left', placeOf_eq_under, hb]
    constructor
    · rintro ⟨-, hen, he, -⟩
      exact ⟨hen, he⟩
    · rintro ⟨hen, he⟩
      refine ⟨?_, hen, he, hd.positionOf hb⟩
      rintro rfl
      rw [hb] at hc
      cases hc
      exact hself he
  rw [pick_filter_range hkeep]
  cases b.isEnumerator <;> simp [group]

/-- With distinct ids the walk below a node is fixed by the sibling groups. -/
theorem pick_walk (hd : DistinctIds blocks) (n : Nat) (hb : blocks[i]? = some b)
    (hself : b.enumerator ≠ some b.id) :
    pick blocks ((Forest.ofBlocks blocks).walk n i) = subtreeOf blocks n b := by
  induction n generalizing i b with
  | zero => rfl
  | succ n ih =>
    rw [Forest.walk, pick_cons hb, subtreeOf, ← pick_children hd hb hself]
    congr 1
    refine pick_flatMap_eq fun j hj => ?_
    obtain ⟨hne, c, b', hc, hb', -, he, -⟩ := parent?_ofBlocks.1 (Forest.mem_children.1 hj)
    rw [hb] at hb'
    cases hb'
    refine ⟨c, hc, ih hc fun hcs => hne ?_⟩
    exact hd.position_unique hb hc (Option.some.inj (he.symm.trans hcs))

/-- With distinct ids the canonical order is fixed by the sibling groups. -/
theorem canonicalOrder_eq (hd : DistinctIds blocks) :
    canonicalOrder blocks = (group blocks none).flatMap (subtreeOf blocks blocks.length) := by
  rw [canonicalOrder, Forest.preorder, ← pick_roots]
  refine pick_flatMap_eq fun i hi => ?_
  obtain ⟨b, hb, he⟩ := mem_roots_ofBlocks.1 hi
  refine ⟨b, hb, ?_⟩
  rw [Forest.subtree, size_ofBlocks]
  exact pick_walk hd _ hb (by simp [he])

/-- A nested list that holds the whole group under each of its blocks is its top level, each block
followed by its subtree. -/
theorem Nested.flatMap_subtreeOf (blocks : List Block) {k : Option BlockId} {l : List Block} (h : Nested k l) :
    DistinctIds l → (∀ x ∈ l, k ≠ some x.id) → (∀ x ∈ l, group blocks (some x.id) = group l (some x.id)) →
      ∀ {n : Nat}, l.length ≤ n → (group l k).flatMap (subtreeOf blocks n) = l := by
  induction h with
  | nil => intros; rfl
  | @cons k b below rest he leaf inner later ih₁ ih₂ =>
    intro hd hk hg n hn
    obtain ⟨n, rfl⟩ : ∃ m, n = m + 1 := ⟨n - 1, by simp at hn; omega⟩
    simp only [List.length_cons, List.length_append] at hn
    obtain ⟨hb, hd'⟩ := DistinctIds.cons.1 hd
    obtain ⟨hdb, hdr, hdis⟩ := DistinctIds.append.1 hd'
    simp only [List.mem_cons, List.mem_append] at hb hk hg
    have hne : ∀ {x y : Block}, x.id ≠ y.id → some x.id ≠ some y.id := fun h h' => h (Option.some.inj h')
    have hgroup : ∀ {x : Block}, k ≠ some x.id →
        group (b :: (below ++ rest)) (some x.id) = group below (some x.id) ++ group rest (some x.id) := by
      intro x hx
      rw [← List.singleton_append, group_append, group_append,
        show group [b] (some x.id) = [] from group_eq_nil_of_ne (by simpa [he] using hx), List.nil_append]
    -- The groups of `b` and of the blocks in `below` lie in `below`.
    have hinner : ∀ {x : Block}, k ≠ some x.id → (∀ y ∈ rest, y.id ≠ x.id) →
        group (b :: (below ++ rest)) (some x.id) = group below (some x.id) := by
      intro x hkx hx
      rw [hgroup hkx, later.group_eq_nil hkx fun y hy => hne (hx y hy), List.append_nil]
    have hsub : subtreeOf blocks (n + 1) b = b :: below := by
      rw [subtreeOf]
      congr 1
      cases hen : b.isEnumerator with
      | false => simp [groupUnder, hen, leaf hen]
      | true =>
        rw [groupUnder, if_pos hen, hg b (.inl rfl), hinner (hk b (.inl rfl)) fun y hy => hb y (.inr hy)]
        refine ih₁ hdb (fun x hx => (hne (hb x (.inl hx))).symm) (fun x hx => ?_) (by omega)
        rw [hg x (.inr (.inl hx)), hinner (hk x (.inr (.inl hx))) fun y hy => (hdis x hx y hy).symm]
    -- Nothing in `below` repeats under `k` or under a block of `rest`.
    have htop : group (b :: (below ++ rest)) k = b :: group rest k := by
      rw [← List.singleton_append, group_append, group_append,
        inner.group_eq_nil (hk b (.inl rfl)).symm fun c hc => (hk c (.inr (.inl hc))).symm]
      simp [group, he]
    rw [htop, List.flatMap_cons, hsub, List.cons_append]
    congr 2
    refine ih₂ hdr (fun x hx => hk x (.inr (.inr hx))) (fun x hx => ?_) (by omega)
    rw [hg x (.inr (.inr hx)), hgroup (hk x (.inr (.inr hx))),
      inner.group_eq_nil (hne (hb x (.inr hx)).symm) fun c hc => hne (hdis c hc x hx), List.nil_append]

/-- **A canonical list is its own canonical order**, when its ids are distinct. -/
theorem canonicalOrder_eq_self (h : Nested none blocks) (hd : DistinctIds blocks) :
    canonicalOrder blocks = blocks := by
  rw [canonicalOrder_eq hd]
  exact h.flatMap_subtreeOf blocks hd (by simp) (fun _ _ => rfl) (Nat.le_refl _)

end FormProgram
