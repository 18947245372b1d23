/-
The late reads of a list, block by block: they are the late reads of each block when the questions of the
blocks before it are collected.

What a predicate is missing depends on the block and on the questions before it alone (`Block.missing`). With
distinct ids it is what a report on the whole list says of the predicate (`missingIn_ofBlocks`), so two lists are
compared by what stands before each block.
-/
import FormProgram.LateRead
import FormProgram.Proofs.Positions

set_option autoImplicit false

namespace FormProgram

namespace Block

/-- The predicate of a kind. -/
def predicate (b : Block) : PredicateKind → Option Predicate
  | .visibility => b.visibility
  | .eligibility => b.eligibility

/-- The questions that the predicate of a kind reads. -/
def reads (b : Block) (kind : PredicateKind) : SortedSet QuestionId :=
  (b.predicate kind).elim ∅ Predicate.questions

/-- The questions that are collected when the predicate of a kind is decided, with these blocks before. -/
def collected (b : Block) (before : List Block) : PredicateKind → List QuestionId
  | .visibility => before.flatMap questionIds
  | .eligibility => before.flatMap questionIds ++ b.questionIds

/-- What the predicate of a kind reads too early, with these blocks before. -/
def missing (b : Block) (kind : PredicateKind) (before : List Block) : SortedSet QuestionId :=
  (b.reads kind).filter fun q => !(b.collected before kind).contains q

/-- The kinds of those predicates that read too early, with these blocks before. -/
def lateKinds (b : Block) (before : List Block) : List PredicateKind :=
  [.visibility, .eligibility].filter fun kind => !(b.missing kind before).isEmpty

variable {b : Block} {before : List Block} {kind : PredicateKind} {q : QuestionId}

theorem mem_collected :
    q ∈ b.collected before kind ↔ q ∈ before.flatMap questionIds ∨ kind = .eligibility ∧ q ∈ b.questionIds := by
  cases kind <;> simp [collected]

theorem mem_missing : q ∈ b.missing kind before ↔ q ∈ b.reads kind ∧ q ∉ b.collected before kind := by
  simp [missing]

theorem mem_lateKinds : kind ∈ b.lateKinds before ↔ ∃ q, q ∈ b.missing kind before := by
  rw [lateKinds, List.mem_filter, Bool.not_eq_true', Bool.eq_false_iff, Ne, SortedSet.isEmpty_iff, not_forall_not,
    and_iff_right_iff_imp]
  cases kind <;> simp

end Block

namespace LateRead

variable {blocks : List Block} {b : Block} {collected : List QuestionId} {v : LateRead}

/-- A predicate reads nothing late exactly when all that it reads is collected. -/
theorem ofPredicate?_eq_none {id : BlockId} {k : PredicateKind} {o : Option Predicate} :
    ofPredicate? id k collected o = none ↔ ∀ p ∈ o, ∀ q ∈ p.questions, q ∈ collected := by
  cases o with
  | none => simp [ofPredicate?]
  | some p =>
    have hempty : (p.questions.filter fun q => !collected.contains q).isEmpty = true ↔
        ∀ q ∈ p.questions, q ∈ collected := by
      rw [SortedSet.isEmpty, SortedSet.filter, List.isEmpty_iff, List.filter_eq_nil_iff]
      simp [SortedSet.mem_toList]
    simp only [ofPredicate?, Option.mem_some_iff, forall_eq', ← hempty]
    split
    · rename_i h
      exact iff_of_true rfl h
    · rename_i h
      exact iff_of_false (Option.some_ne_none _) h

theorem block_of_ofPredicate? {id : BlockId} {k : PredicateKind} {o : Option Predicate}
    (h : ofPredicate? id k collected o = some v) : v.block = id := by
  cases o with
  | none => cases h
  | some p =>
    simp only [ofPredicate?] at h
    split at h
    · cases h
    · cases h
      rfl

theorem block_of_mem_ofBlock (h : v ∈ ofBlock collected b) : v.block = b.id := by
  rw [ofBlock, List.mem_append, Option.mem_toList, Option.mem_toList] at h
  rcases h with h | h
  · exact block_of_ofPredicate? h
  · exact block_of_ofPredicate? h

/-- A block reads nothing late exactly when its visibility predicate reads what is collected before it, and its
eligibility predicate that and the questions of the block. -/
theorem ofBlock_eq_nil :
    ofBlock collected b = [] ↔
      (∀ p ∈ b.visibility, ∀ q ∈ p.questions, q ∈ collected) ∧
        ∀ p ∈ b.eligibility, ∀ q ∈ p.questions, q ∈ collected ∨ q ∈ b.questionIds := by
  simp only [ofBlock, List.append_eq_nil_iff, Option.toList_eq_nil_iff, ofPredicate?_eq_none,
    List.mem_append]

theorem mem_ofBlocksAfter :
    v ∈ ofBlocksAfter collected blocks ↔
      ∃ i b, blocks[i]? = some b ∧
        v ∈ ofBlock (collected ++ (blocks.take i).flatMap Block.questionIds) b := by
  induction blocks generalizing collected with
  | nil => simp [ofBlocksAfter]
  | cons c rest ih =>
    rw [ofBlocksAfter, List.mem_append, ih]
    constructor
    · rintro (h | ⟨i, b, hb, h⟩)
      · exact ⟨0, c, rfl, by simpa using h⟩
      · exact ⟨i + 1, b, hb, by simpa using h⟩
    · rintro ⟨i, b, hb, h⟩
      cases i with
      | zero =>
        cases hb
        exact .inl (by simpa using h)
      | succ i => exact .inr ⟨i, b, hb, by simpa using h⟩

/-- The late reads of a list are those of its blocks, each after the questions of the blocks before it. -/
theorem mem_ofBlocks :
    v ∈ ofBlocks blocks ↔
      ∃ i b, blocks[i]? = some b ∧ v ∈ ofBlock ((blocks.take i).flatMap Block.questionIds) b := by
  rw [ofBlocks, mem_ofBlocksAfter]
  simp

theorem ofBlocksAfter_append {xs ys : List Block} :
    ofBlocksAfter collected (xs ++ ys) =
      ofBlocksAfter collected xs ++ ofBlocksAfter (collected ++ xs.flatMap Block.questionIds) ys := by
  induction xs generalizing collected with
  | nil => simp [ofBlocksAfter]
  | cons x xs ih => simp [ofBlocksAfter, ih, List.append_assoc]

theorem block_of_mem_ofBlocksAfter (h : v ∈ ofBlocksAfter collected blocks) : ∃ b ∈ blocks, v.block = b.id := by
  obtain ⟨i, b, hb, hv⟩ := mem_ofBlocksAfter.1 h
  exact ⟨b, List.mem_of_getElem? hb, block_of_mem_ofBlock hv⟩

/-- What a report says that a predicate reads too early: nothing, if the predicate is not in it. -/
def missingIn (report : List LateRead) (block : BlockId) (kind : PredicateKind) : SortedSet QuestionId :=
  ((report.find? fun v => v.block == block && v.kind == kind).map (·.missing)).getD ∅

variable {id : BlockId} {kind : PredicateKind} {before after : List Block}

theorem missingIn_nil : missingIn [] id kind = ∅ := rfl

/-- A report is searched past what it says of other predicates. -/
theorem missingIn_append {xs ys : List LateRead} (h : ∀ v ∈ xs, v.block = id → v.kind ≠ kind) :
    missingIn (xs ++ ys) id kind = missingIn ys id kind := by
  have hnone : (xs.find? fun v => v.block == id && v.kind == kind) = none := by
    rw [List.find?_eq_none]
    intro v hv
    simpa using h v hv
  rw [missingIn, List.find?_append, hnone, Option.none_or, missingIn]

theorem missingIn_eq_empty {report : List LateRead} (h : ∀ v ∈ report, v.block = id → v.kind ≠ kind) :
    missingIn report id kind = ∅ := by
  rw [← List.append_nil report, missingIn_append h, missingIn_nil]

/-- The late read of a predicate, told by what it is missing. -/
theorem ofPredicate?_eq :
    ofPredicate? b.id kind (b.collected before kind) (b.predicate kind) =
      if (b.missing kind before).isEmpty then none else some ⟨b.id, kind, b.missing kind before⟩ := by
  cases hp : b.predicate kind with
  | none =>
    have hnone : (b.missing kind before).isEmpty = true := by
      rw [SortedSet.isEmpty_iff]
      intro q hq
      simp [Block.mem_missing, Block.reads, hp] at hq
    rw [if_pos hnone]
    rfl
  | some p => simp only [ofPredicate?, Block.missing, Block.reads, hp, Option.elim_some]

theorem ofPredicate?_eq_some :
    ofPredicate? b.id kind (b.collected before kind) (b.predicate kind) = some v ↔
      v = ⟨b.id, kind, b.missing kind before⟩ ∧ ∃ q, q ∈ b.missing kind before := by
  rw [ofPredicate?_eq]
  split
  next hempty =>
    rw [SortedSet.isEmpty_iff] at hempty
    exact iff_of_false nofun fun ⟨_, q, hq⟩ => hempty q hq
  next hne =>
    rw [SortedSet.isEmpty_iff, not_forall_not] at hne
    rw [Option.some.injEq, eq_comm, and_iff_left hne]

/-- The late reads of one block, one for each kind. -/
theorem ofBlock_eq : ofBlock (before.flatMap Block.questionIds) b =
    (b.lateKinds before).map fun kind => ⟨b.id, kind, b.missing kind before⟩ := by
  have hkinds : ofBlock (before.flatMap Block.questionIds) b =
      (ofPredicate? b.id .visibility (b.collected before .visibility) (b.predicate .visibility)).toList ++
        (ofPredicate? b.id .eligibility (b.collected before .eligibility) (b.predicate .eligibility)).toList := rfl
  rw [hkinds, ofPredicate?_eq, ofPredicate?_eq, Block.lateKinds]
  cases hv : (b.missing .visibility before).isEmpty <;> cases he : (b.missing .eligibility before).isEmpty <;>
    simp [hv, he]

theorem mem_ofBlock :
    v ∈ ofBlock (before.flatMap Block.questionIds) b ↔
      ∃ kind, v = ⟨b.id, kind, b.missing kind before⟩ ∧ ∃ q, q ∈ b.missing kind before := by
  rw [ofBlock_eq, List.mem_map]
  constructor
  · rintro ⟨kind, hkind, rfl⟩
    exact ⟨kind, rfl, Block.mem_lateKinds.1 hkind⟩
  · rintro ⟨kind, rfl, hq⟩
    exact ⟨kind, Block.mem_lateKinds.2 hq, rfl⟩

/-- **The late reads of a list** are those predicates that read what is not collected by the blocks before, each with
all that it reads so. -/
theorem mem_ofBlocks_iff :
    v ∈ ofBlocks blocks ↔ ∃ before b after kind, blocks = before ++ b :: after ∧
      v = ⟨b.id, kind, b.missing kind before⟩ ∧ ∃ q, q ∈ b.missing kind before := by
  rw [mem_ofBlocks]
  constructor
  · rintro ⟨i, b, hb, hv⟩
    obtain ⟨kind, h⟩ := mem_ofBlock.1 hv
    obtain ⟨hi, rfl⟩ := List.getElem?_eq_some_iff.1 hb
    refine ⟨blocks.take i, blocks[i], blocks.drop (i + 1), kind, ?_, h⟩
    rw [List.getElem_cons_drop, List.take_append_drop]
  · rintro ⟨before, b, after, kind, rfl, h⟩
    refine ⟨before.length, b, by simp, ?_⟩
    rw [List.take_left' rfl]
    exact mem_ofBlock.2 ⟨kind, h⟩

/-- A report that begins with a predicate and does not come back to it says of it what it is missing. -/
theorem missingIn_predicate {report : List LateRead} (h : ∀ v ∈ report, v.block = b.id → v.kind ≠ kind) :
    missingIn ((ofPredicate? b.id kind (b.collected before kind) (b.predicate kind)).toList ++ report) b.id kind =
      b.missing kind before := by
  rw [ofPredicate?_eq]
  split
  next hempty =>
    rw [Option.toList_none, List.nil_append, missingIn_eq_empty h]
    exact (SortedSet.eq_empty_iff.2 (SortedSet.isEmpty_iff.1 hempty)).symm
  next => simp [missingIn]

/-- **What a report says of a predicate** in a list with distinct ids: all that it reads and that is not collected
by the blocks before its block and, for eligibility, by the block. -/
theorem missingIn_ofBlocks (hd : DistinctIds (before ++ b :: after)) (kind : PredicateKind) :
    missingIn (ofBlocks (before ++ b :: after)) b.id kind = b.missing kind before := by
  obtain ⟨-, hbehind, hfront⟩ := DistinctIds.append.1 hd
  have hbefore : ∀ v ∈ ofBlocksAfter [] before, v.block = b.id → v.kind ≠ kind := by
    intro v hv hid
    obtain ⟨c, hc, hvc⟩ := block_of_mem_ofBlocksAfter hv
    exact absurd (hvc.symm.trans hid) (hfront c hc b List.mem_cons_self)
  have hafter : ∀ collected, ∀ v ∈ ofBlocksAfter collected after, v.block = b.id → v.kind ≠ kind := by
    intro collected v hv hid
    obtain ⟨c, hc, hvc⟩ := block_of_mem_ofBlocksAfter hv
    exact absurd (hvc.symm.trans hid) ((DistinctIds.cons.1 hbehind).1 c hc)
  have hother : ∀ k, k ≠ kind → ∀ v ∈ (ofPredicate? b.id k (b.collected before k) (b.predicate k)).toList,
      v.block = b.id → v.kind ≠ kind := by
    intro k hk v hv _
    rwa [(ofPredicate?_eq_some.1 (Option.mem_toList.1 hv)).1]
  have hreport : ofBlocks (before ++ b :: after) = ofBlocksAfter [] before ++
      ((ofPredicate? b.id .visibility (b.collected before .visibility) (b.predicate .visibility)).toList ++
        ((ofPredicate? b.id .eligibility (b.collected before .eligibility) (b.predicate .eligibility)).toList ++
          ofBlocksAfter (before.flatMap Block.questionIds ++ b.questionIds) after)) := by
    rw [ofBlocks, ofBlocksAfter_append, List.nil_append, ofBlocksAfter, ofBlock, List.append_assoc]
    rfl
  rw [hreport, missingIn_append hbefore]
  cases kind with
  | visibility =>
    refine missingIn_predicate fun v hv => ?_
    rcases List.mem_append.1 hv with hv | hv
    · exact hother .eligibility nofun v hv
    · exact hafter _ v hv
  | eligibility =>
    rw [missingIn_append (hother .visibility nofun)]
    exact missingIn_predicate (hafter _)

/-- An entry of the report says of its predicate what it is missing. -/
theorem missingIn_of_mem (hd : DistinctIds blocks) (hv : v ∈ ofBlocks blocks) :
    missingIn (ofBlocks blocks) v.block v.kind = v.missing := by
  obtain ⟨before, b, after, kind, rfl, rfl, -⟩ := mem_ofBlocks_iff.1 hv
  exact missingIn_ofBlocks hd kind

theorem exists_of_mem_missingIn {report : List LateRead} {q : QuestionId} (h : q ∈ missingIn report id kind) :
    ∃ v ∈ report, v.block = id ∧ v.kind = kind ∧ v.missing = missingIn report id kind := by
  rw [missingIn] at h ⊢
  cases hfind : report.find? fun v => v.block == id && v.kind == kind with
  | none => simp [hfind] at h
  | some v =>
    have hv := List.find?_some hfind
    rw [Bool.and_eq_true, beq_iff_eq, beq_iff_eq] at hv
    exact ⟨v, List.mem_of_find?_eq_some hfind, hv.1, hv.2, rfl⟩

end LateRead

/-- Predicates are in order when no report says anything of any. -/
theorem readsInOrder_iff {blocks : List Block} (hd : DistinctIds blocks) :
    readsInOrder blocks = true ↔
      ∀ b ∈ blocks, ∀ kind, LateRead.missingIn (LateRead.ofBlocks blocks) b.id kind = ∅ := by
  rw [readsInOrder, List.isEmpty_iff]
  constructor
  · intro hnone b _ kind
    rw [hnone, LateRead.missingIn_nil]
  · intro h
    refine List.eq_nil_iff_forall_not_mem.2 fun v hv => ?_
    obtain ⟨before, b, after, kind, rfl, rfl, q, hq⟩ := LateRead.mem_ofBlocks_iff.1 hv
    rw [← LateRead.missingIn_ofBlocks hd, h b (by simp)] at hq
    exact SortedSet.not_mem_empty hq

theorem readsInOrder_eq_false_iff_missing {blocks : List Block} (hd : DistinctIds blocks) :
    readsInOrder blocks = false ↔
      ∃ b ∈ blocks, ∃ kind q, q ∈ LateRead.missingIn (LateRead.ofBlocks blocks) b.id kind := by
  rw [Bool.eq_false_iff, Ne, readsInOrder_iff hd]
  simp only [SortedSet.eq_empty_iff]
  push Not
  rfl

end FormProgram
