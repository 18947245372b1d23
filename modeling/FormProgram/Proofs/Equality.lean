/-
What `==` says of blocks and programs. Values in predicates are compared as numbers, so equal blocks may
be different terms (the two zeros); everything else of equal blocks is the same, and their predicates
read the same questions.
-/
import FormProgram.Program.Basic

set_option autoImplicit false

namespace FormProgram

theorem Json.Finite.beq_self (x : Json.Finite) : (x.val == x.val) = true := by
  obtain ⟨x, hx⟩ := x
  change x.toModel.unpack.isFinite = true at hx
  change x.toModel.unpack.beq x.toModel.unpack = true
  generalize x.toModel.unpack = u at hx
  cases u with
  | infinity s => cases hx
  | notANumber => cases hx
  | zero s => rfl
  | finite s m e h =>
    have he : compare e e = .eq := Std.ReflCmp.compare_self
    have hm : compare m m = .eq := Std.ReflCmp.compare_self
    cases s with
    | positive =>
      change (some ((compare e e).then (compare m m)) == some .eq) = true
      rw [he, hm]
      rfl
    | negative =>
      change (some ((compare e e).then (compare m m)).swap == some .eq) = true
      rw [he, hm]
      rfl

instance : ReflBEq Json.Number where
  rfl {n} := by
    cases n with
    | natural n => exact beq_self_eq_true n
    | negative m => exact beq_self_eq_true m
    | float x => exact x.beq_self

namespace Json

mutual

theorem same_self : ∀ j : Json, j.same j = true
  | .null => rfl
  | .bool b => beq_self_eq_true b
  | .number n => beq_self_eq_true n
  | .string s => beq_self_eq_true s
  | .array items => sameItems_self items
  | .object members => sameMembers_self members

theorem sameItems_self : ∀ items : List Json, sameItems items items = true
  | [] => rfl
  | j :: rest => by rw [sameItems, same_self j, sameItems_self rest]; rfl

theorem sameMembers_self : ∀ members : List (String × Json), sameMembers members members = true
  | [] => rfl
  | (k, j) :: rest => by rw [sameMembers, beq_self_eq_true, same_self j, sameMembers_self rest]; rfl

end

end Json

instance : ReflBEq JsonValue where
  rfl {v} := v.json.same_self

theorem Comparison.beq_iff {c d : Comparison} :
    (c == d) = true ↔ c.question = d.question ∧ c.scalar = d.scalar ∧ c.operator = d.operator ∧
      (c.value == d.value) = true := by
  cases c
  cases d
  change instBEqComparison.beq _ _ = true ↔ _
  simp [instBEqComparison.beq]

instance : ReflBEq Comparison where
  rfl := Comparison.beq_iff.2 ⟨rfl, rfl, rfl, BEq.rfl⟩

namespace Condition

mutual

theorem same_self : ∀ c : Condition, c.same c = true
  | .leaf c => beq_self_eq_true c
  | .all children => sameAll_self children
  | .any children => sameAll_self children

theorem sameAll_self : ∀ children : List Condition, sameAll children children = true
  | [] => rfl
  | c :: rest => by rw [sameAll, same_self c, sameAll_self rest]; rfl

end

mutual

theorem reads_of_same : ∀ {c d : Condition}, c.same d = true → c.reads = d.reads
  | .leaf c, .leaf d, h => by
    rw [reads, reads, (Comparison.beq_iff.1 h).1]
  | .all cs, .all ds, h => @readsOf_of_same cs ds h
  | .any cs, .any ds, h => @readsOf_of_same cs ds h

theorem readsOf_of_same : ∀ {cs ds : List Condition}, sameAll cs ds = true → readsOf cs = readsOf ds
  | [], [], _ => rfl
  | c :: cs, d :: ds, h => by
    rw [sameAll, Bool.and_eq_true] at h
    rw [readsOf, readsOf, reads_of_same h.1, readsOf_of_same h.2]

end

end Condition

theorem Predicate.beq_iff {p q : Predicate} :
    (p == q) = true ↔ p.root.same q.root = true ∧ p.action = q.action := by
  cases p
  cases q
  change instBEqPredicate.beq _ _ = true ↔ _
  simp only [instBEqPredicate.beq, Bool.and_eq_true, beq_iff_eq]
  rfl

instance : ReflBEq Predicate where
  rfl {p} := Predicate.beq_iff.2 ⟨p.root.same_self, rfl⟩

theorem Predicate.questions_of_beq {p q : Predicate} (h : (p == q) = true) : p.questions = q.questions := by
  rw [questions, questions, Condition.reads_of_same (Predicate.beq_iff.1 h).1]

namespace Block

variable {b c : Block}

theorem beq_iff : (b == c) = true ↔ b.id = c.id ∧ b.name = c.name ∧ b.description = c.description ∧
    b.enumerator = c.enumerator ∧ b.isEnumerator = c.isEnumerator ∧ b.questions = c.questions ∧
    (b.visibility == c.visibility) = true ∧ (b.eligibility == c.eligibility) = true := by
  cases b
  cases c
  change instBEqBlock.beq _ _ = true ↔ _
  simp only [instBEqBlock.beq, Bool.and_eq_true, beq_iff_eq]

instance : ReflBEq Block where
  rfl := beq_iff.2 ⟨rfl, rfl, rfl, rfl, rfl, rfl, BEq.rfl, BEq.rfl⟩

end Block

/-- Which questions a predicate reads, if there is one. -/
def reads (p : Option Predicate) : Option (SortedSet QuestionId) := p.map (·.questions)

theorem reads_of_beq {p q : Option Predicate} (h : (p == q) = true) : reads p = reads q := by
  cases p with
  | none =>
    cases q with
    | none => rfl
    | some q => cases h
  | some p =>
    cases q with
    | none => cases h
    | some q => exact congrArg some (Predicate.questions_of_beq (by simpa using h))

/-- Everything that is looked at in a block to find something out: of a predicate, which questions it
reads. -/
structure Block.Like (b c : Block) : Prop where
  id : b.id = c.id
  enumerator : b.enumerator = c.enumerator
  isEnumerator : b.isEnumerator = c.isEnumerator
  questions : b.questions = c.questions
  visibility : reads b.visibility = reads c.visibility
  eligibility : reads b.eligibility = reads c.eligibility

theorem Block.like_of_beq {b c : Block} (h : (b == c) = true) : b.Like c := by
  obtain ⟨hid, -, -, he, hen, hq, hv, hel⟩ := Block.beq_iff.1 h
  exact ⟨hid, he, hen, hq, reads_of_beq hv, reads_of_beq hel⟩

namespace Block.Like

variable {b c : Block}

theorem isRepeated (l : b.Like c) : b.isRepeated = c.isRepeated := by
  rw [Block.isRepeated, Block.isRepeated, l.enumerator]

theorem questionIds (l : b.Like c) : b.questionIds = c.questionIds := by
  rw [Block.questionIds, Block.questionIds, l.questions]

theorem readableQuestions (l : b.Like c) : b.readableQuestions = c.readableQuestions := by
  rw [Block.readableQuestions, Block.readableQuestions, l.questions]

theorem isEligibility (l : b.Like c) : b.eligibility.isSome = c.eligibility.isSome := by
  have h := congrArg Option.isSome l.eligibility
  simpa [reads] using h

theorem predicateQuestions (l : b.Like c) : b.predicateQuestions = c.predicateQuestions := by
  have hreads : ∀ x : Block, x.predicateQuestions =
      match reads x.eligibility with
      | some qs => ((reads x.visibility).getD ∅).union qs
      | none => (reads x.visibility).getD ∅ := by
    intro x
    rw [Block.predicateQuestions]
    cases x.visibility <;> cases x.eligibility <;> rfl
  rw [hreads, hreads, l.visibility, l.eligibility]

end Block.Like

end FormProgram
