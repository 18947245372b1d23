/-
What the report on late reads says, told by positions: whatever the ids are, it has one entry for each predicate that
reads a question too early, in list order and of one block the visibility predicate first, and an entry names exactly
these questions.

A question is read where it stands at a leaf, at any depth (`Condition.HasLeaf`), and it is too early where every block
that collects it stands too far behind (`ReadsTooEarly`). The pass over the list knows the questions before a block
only; `placesAfter` follows it and keeps the position instead.
-/
import FormProgram.Proofs.LateReads

set_option autoImplicit false

namespace FormProgram

namespace Condition

variable {cond : Condition} {q : QuestionId}

/-- The comparison stands at a leaf of the condition. -/
inductive HasLeaf : Condition → Comparison → Prop
  | leaf (c : Comparison) : HasLeaf (.leaf c) c
  | all {children : List Condition} {child : Condition} {c : Comparison} (mem : child ∈ children)
      (below : HasLeaf child c) : HasLeaf (.all children) c
  | any {children : List Condition} {child : Condition} {c : Comparison} (mem : child ∈ children)
      (below : HasLeaf child c) : HasLeaf (.any children) c

theorem mem_readsOf {children : List Condition} : q ∈ readsOf children ↔ ∃ child ∈ children, q ∈ child.reads := by
  induction children with
  | nil => simp [readsOf]
  | cons child children ih => simp [readsOf, ih]

theorem HasLeaf.mem_reads {c : Comparison} (h : cond.HasLeaf c) : c.question ∈ cond.reads := by
  induction h with
  | leaf c => simp [reads]
  | all hmem _ ih | any hmem _ ih =>
    rw [reads, mem_readsOf]
    exact ⟨_, hmem, ih⟩

mutual

theorem exists_leaf : ∀ {cond : Condition}, q ∈ cond.reads → ∃ c, cond.HasLeaf c ∧ c.question = q
  | .leaf c, h => by
    rw [reads, List.mem_singleton] at h
    exact ⟨c, .leaf c, h.symm⟩
  | .all children, h => by
    rw [reads] at h
    obtain ⟨child, hmem, c, hc, hq⟩ := exists_leafOf h
    exact ⟨c, .all hmem hc, hq⟩
  | .any children, h => by
    rw [reads] at h
    obtain ⟨child, hmem, c, hc, hq⟩ := exists_leafOf h
    exact ⟨c, .any hmem hc, hq⟩

theorem exists_leafOf : ∀ {children : List Condition}, q ∈ readsOf children →
    ∃ child ∈ children, ∃ c, child.HasLeaf c ∧ c.question = q
  | [], h => by simp [readsOf] at h
  | child :: children, h => by
    rw [readsOf, List.mem_append] at h
    rcases h with h | h
    · exact ⟨child, List.mem_cons_self, exists_leaf h⟩
    · obtain ⟨child', hmem, hc⟩ := exists_leafOf h
      exact ⟨child', List.mem_cons_of_mem child hmem, hc⟩

end

/-- **The questions that are read are those at the leaves.** -/
theorem mem_reads_iff : q ∈ cond.reads ↔ ∃ c, cond.HasLeaf c ∧ c.question = q := by
  constructor
  · exact exists_leaf
  · rintro ⟨c, hc, hq⟩
    exact hq ▸ hc.mem_reads

end Condition

/-- The predicate of a kind on the block has a leaf on the question. -/
def Block.Compares (b : Block) (kind : PredicateKind) (q : QuestionId) : Prop :=
  ∃ p c, b.predicate kind = some p ∧ p.root.HasLeaf c ∧ c.question = q

theorem Block.mem_reads_iff {b : Block} {kind : PredicateKind} {q : QuestionId} :
    q ∈ b.reads kind ↔ b.Compares kind q := by
  rw [Block.reads, Block.Compares]
  cases b.predicate kind with
  | none => simp
  | some p => simp [Predicate.mem_questions, Condition.mem_reads_iff]

/-- The predicate of a kind on the block at `i` may read what the block at `j` collects. -/
def PredicateKind.MayRead : PredicateKind → Nat → Nat → Prop
  | .visibility, i, j => j < i
  | .eligibility, i, j => j ≤ i

/-- The predicate of a kind on the block at `i` reads a question that no block collects from which it may read. -/
def ReadsTooEarly (blocks : List Block) (i : Nat) (kind : PredicateKind) (q : QuestionId) : Prop :=
  (∃ b, blocks[i]? = some b ∧ b.Compares kind q) ∧
    ∀ j c, blocks[j]? = some c → q ∈ c.questionIds → ¬ kind.MayRead i j

/-- The order of a report: by position, and of one block the visibility predicate first. -/
def Ahead (x y : Nat × PredicateKind) : Prop :=
  x.1 < y.1 ∨ x.1 = y.1 ∧ x.2 = .visibility ∧ y.2 = .eligibility

/-- What an entry of a report on `blocks` says of the predicate at a place. -/
structure Reports (blocks : List Block) (place : Nat × PredicateKind) (v : LateRead) : Prop where
  block : ∃ b, blocks[place.1]? = some b ∧ v.block = b.id
  kind : v.kind = place.2
  missing : ∀ q, q ∈ v.missing ↔ ReadsTooEarly blocks place.1 place.2 q

variable {blocks before rest : List Block} {b : Block} {i j : Nat} {kind : PredicateKind} {q : QuestionId}

theorem mem_questionIds_take : q ∈ (blocks.take i).flatMap Block.questionIds ↔
    ∃ j < i, ∃ c, blocks[j]? = some c ∧ q ∈ c.questionIds := by
  rw [List.mem_flatMap]
  constructor
  · rintro ⟨c, hc, hq⟩
    obtain ⟨j, hj⟩ := List.mem_iff_getElem?.1 hc
    rw [List.getElem?_take] at hj
    split at hj
    next hlt => exact ⟨j, hlt, c, hj, hq⟩
    next => cases hj
  · rintro ⟨j, hlt, c, hc, hq⟩
    rw [← List.getElem?_take_of_lt hlt] at hc
    exact ⟨c, List.mem_of_getElem? hc, hq⟩

/-- What is collected when a predicate is decided, by position. -/
theorem mem_collected_take (hb : blocks[i]? = some b) : q ∈ b.collected (blocks.take i) kind ↔
    ∃ j c, blocks[j]? = some c ∧ q ∈ c.questionIds ∧ kind.MayRead i j := by
  rw [Block.mem_collected, mem_questionIds_take]
  cases kind with
  | visibility =>
    simp only [PredicateKind.MayRead, reduceCtorEq, false_and, or_false]
    constructor
    · rintro ⟨j, hlt, c, hc, hq⟩
      exact ⟨j, c, hc, hq, hlt⟩
    · rintro ⟨j, c, hc, hq, hlt⟩
      exact ⟨j, hlt, c, hc, hq⟩
  | eligibility =>
    simp only [PredicateKind.MayRead, true_and]
    constructor
    · intro h
      rcases h with ⟨j, hlt, c, hc, hq⟩ | hq
      · exact ⟨j, c, hc, hq, Nat.le_of_lt hlt⟩
      · exact ⟨i, b, hb, hq, Nat.le_refl i⟩
    · rintro ⟨j, c, hc, hq, hle⟩
      rcases Nat.lt_or_eq_of_le hle with hlt | rfl
      · exact .inl ⟨j, hlt, c, hc, hq⟩
      · rw [hb] at hc
        cases hc
        exact .inr hq

/-- **Too early, by position and by what stands before**: both say the same. -/
theorem readsTooEarly_iff (hb : blocks[i]? = some b) :
    ReadsTooEarly blocks i kind q ↔ q ∈ b.missing kind (blocks.take i) := by
  rw [Block.mem_missing, Block.mem_reads_iff, mem_collected_take hb, ReadsTooEarly]
  simp only [hb, Option.some.injEq, exists_eq_left', not_exists, not_and]

/-- The places of the predicates of `rest` that read too early, when `before` stands before it. -/
def placesAfter : List Block → List Block → List (Nat × PredicateKind)
  | _, [] => []
  | before, b :: rest => (b.lateKinds before).map (before.length, ·) ++ placesAfter (before ++ [b]) rest

theorem pairwise_lateKinds (i : Nat) : ((b.lateKinds before).map (i, ·)).Pairwise Ahead := by
  rw [List.pairwise_map]
  refine List.Pairwise.filter _ ?_
  simp [Ahead]

namespace LateRead

/-- The pass over the rest of a list reports its places, one after the other. -/
theorem forall₂_placesAfter (before rest : List Block) :
    List.Forall₂ (Reports (before ++ rest)) (placesAfter before rest)
      (ofBlocksAfter (before.flatMap Block.questionIds) rest) := by
  induction rest generalizing before with
  | nil => exact .nil
  | cons b rest ih =>
    have hb : (before ++ b :: rest)[before.length]? = some b := by simp
    have hfirst : ∀ kind ∈ b.lateKinds before,
        Reports (before ++ b :: rest) (before.length, kind) ⟨b.id, kind, b.missing kind before⟩ := by
      intro kind _
      refine ⟨⟨b, hb, rfl⟩, rfl, fun q => ?_⟩
      rw [readsTooEarly_iff hb, List.take_left' rfl]
    have hrest := ih (before ++ [b])
    rw [List.append_assoc, List.singleton_append, List.flatMap_append, List.flatMap_singleton] at hrest
    rw [placesAfter, ofBlocksAfter, ofBlock_eq]
    refine List.rel_append ?_ hrest
    rw [List.forall₂_map_left_iff, List.forall₂_map_right_iff, List.forall₂_same]
    exact hfirst

end LateRead

theorem mem_placesAfter : (i, kind) ∈ placesAfter before rest ↔
    before.length ≤ i ∧ ∃ q, ReadsTooEarly (before ++ rest) i kind q := by
  induction rest generalizing before with
  | nil =>
    simp only [placesAfter, List.not_mem_nil, List.append_nil, false_iff, not_and, not_exists]
    rintro hle q ⟨⟨b, hb, -⟩, -⟩
    have := (List.getElem?_eq_some_iff.1 hb).1
    omega
  | cons b rest ih =>
    have hb : (before ++ b :: rest)[before.length]? = some b := by simp
    have hkind : kind ∈ b.lateKinds before ↔ ∃ q, ReadsTooEarly (before ++ b :: rest) before.length kind q := by
      simp only [Block.mem_lateKinds, readsTooEarly_iff hb, List.take_left' rfl]
    have hfirst : (i, kind) ∈ (b.lateKinds before).map (before.length, ·) ↔
        before.length = i ∧ kind ∈ b.lateKinds before := by
      simp only [List.mem_map, Prod.mk.injEq]
      constructor
      · rintro ⟨kind', hk, hi, hkind'⟩
        exact ⟨hi, hkind' ▸ hk⟩
      · rintro ⟨hi, hk⟩
        exact ⟨kind, hk, hi, rfl⟩
    rw [placesAfter, List.mem_append, hfirst, hkind, ih, List.append_assoc, List.singleton_append, List.length_append,
      List.length_singleton]
    constructor
    · intro h
      rcases h with ⟨rfl, h⟩ | ⟨hle, h⟩
      · exact ⟨Nat.le_refl _, h⟩
      · exact ⟨by omega, h⟩
    · rintro ⟨hle, h⟩
      rcases Nat.lt_or_eq_of_le hle with hlt | rfl
      · exact .inr ⟨hlt, h⟩
      · exact .inl ⟨rfl, h⟩

theorem pairwise_placesAfter (before rest : List Block) : (placesAfter before rest).Pairwise Ahead := by
  induction rest generalizing before with
  | nil => exact .nil
  | cons b rest ih =>
    refine List.pairwise_append.2 ⟨pairwise_lateKinds before.length, ih (before ++ [b]), fun x hx y hy => .inl ?_⟩
    obtain ⟨kind, -, rfl⟩ := List.mem_map.1 hx
    have hle := (mem_placesAfter.1 hy).1
    rw [List.length_append, List.length_singleton] at hle
    exact hle

/-- **The report on late reads is exact**, for lists of any kind. Its entries stand for the predicates that read a
question too early, one for each, by position and of one block the visibility predicate first; an entry holds the id of
its block, its kind, and exactly the questions that the predicate reads too early. So there is no entry just when no
predicate reads a question that is collected only later. -/
theorem late_reads_by_position (blocks : List Block) :
    (∃ places : List (Nat × PredicateKind), places.Pairwise Ahead ∧
      (∀ i kind, (i, kind) ∈ places ↔ ∃ q, ReadsTooEarly blocks i kind q) ∧
      List.Forall₂ (Reports blocks) places (LateRead.ofBlocks blocks)) ∧
    (readsInOrder blocks = true ↔ ∀ i kind q, ¬ ReadsTooEarly blocks i kind q) := by
  have hmem : ∀ i kind, (i, kind) ∈ placesAfter [] blocks ↔ ∃ q, ReadsTooEarly blocks i kind q := by
    intro i kind
    rw [mem_placesAfter, List.nil_append]
    exact and_iff_right (Nat.zero_le i)
  have hreports : List.Forall₂ (Reports blocks) (placesAfter [] blocks) (LateRead.ofBlocks blocks) :=
    LateRead.forall₂_placesAfter [] blocks
  refine ⟨⟨placesAfter [] blocks, pairwise_placesAfter [] blocks, hmem, hreports⟩, ?_⟩
  rw [readsInOrder, List.isEmpty_iff]
  constructor
  · intro hnone i kind q hq
    have hplace := (hmem i kind).2 ⟨q, hq⟩
    rw [hnone, List.forall₂_nil_right_iff] at hreports
    rw [hreports] at hplace
    cases hplace
  · intro hnone
    have hplaces : placesAfter [] blocks = [] := by
      rw [List.eq_nil_iff_forall_not_mem]
      rintro ⟨i, kind⟩ hplace
      obtain ⟨q, hq⟩ := (hmem i kind).1 hplace
      exact hnone i kind q hq
    rwa [hplaces, List.forall₂_nil_left_iff] at hreports

end FormProgram
