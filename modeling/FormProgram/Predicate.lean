/-
Predicates on answers: when a block is shown, hidden or makes the applicant eligible. Only which
questions a predicate reads matters here (`Predicate.questions`); nothing evaluates it.
-/
import FormProgram.Json.Basic
import FormProgram.Question

set_option autoImplicit false

namespace FormProgram

/-- What happens to the block when its predicate holds. -/
inductive PredicateAction where
  | hideBlock | showBlock | eligibleBlock
deriving DecidableEq, Repr, Inhabited

namespace PredicateAction

def label : PredicateAction → String
  | .hideBlock => "hide_block"
  | .showBlock => "show_block"
  | .eligibleBlock => "eligible_block"

def all : List PredicateAction := [.hideBlock, .showBlock, .eligibleBlock]

end PredicateAction

inductive Operator where
  | equal | notEqual | greaterThan | greaterThanOrEqual | lessThan | lessThanOrEqual
  | isIn | notIn | anyOf | noneOf | isBefore | isOnOrAfter
deriving DecidableEq, Repr, Inhabited

namespace Operator

def label : Operator → String
  | .equal => "equal"
  | .notEqual => "not_equal"
  | .greaterThan => "greater_than"
  | .greaterThanOrEqual => "greater_than_or_equal"
  | .lessThan => "less_than"
  | .lessThanOrEqual => "less_than_or_equal"
  | .isIn => "in"
  | .notIn => "not_in"
  | .anyOf => "any_of"
  | .noneOf => "none_of"
  | .isBefore => "is_before"
  | .isOnOrAfter => "is_on_or_after"

def all : List Operator :=
  [.equal, .notEqual, .greaterThan, .greaterThanOrEqual, .lessThan, .lessThanOrEqual,
    .isIn, .notIn, .anyOf, .noneOf, .isBefore, .isOnOrAfter]

end Operator

/-- One component of an answer (`text`, `number`, `zip`) against a value. -/
structure Comparison where
  question : QuestionId
  scalar : String
  operator : Operator
  value : JsonValue
deriving BEq, Inhabited

inductive Condition where
  | leaf (c : Comparison)
  | all (children : List Condition)
  | any (children : List Condition)
deriving Inhabited

namespace Condition

mutual

/-- Equality of conditions, with the values of their leaves compared as values. -/
def same : Condition → Condition → Bool
  | .leaf c, .leaf c' => c == c'
  | .all children, .all children' => sameAll children children'
  | .any children, .any children' => sameAll children children'
  | _, _ => false

def sameAll : List Condition → List Condition → Bool
  | [], [] => true
  | c :: rest, c' :: rest' => c.same c' && sameAll rest rest'
  | _, _ => false

end

instance : BEq Condition := ⟨same⟩

mutual

/-- The questions the leaves read, from left to right. -/
def reads : Condition → List QuestionId
  | .leaf c => [c.question]
  | .all children => readsOf children
  | .any children => readsOf children

def readsOf : List Condition → List QuestionId
  | [] => []
  | c :: rest => c.reads ++ readsOf rest

end

end Condition

structure Predicate where
  root : Condition
  action : PredicateAction
deriving BEq, Inhabited

namespace Predicate

def questions (p : Predicate) : SortedSet QuestionId := .ofList p.root.reads

@[simp] theorem mem_questions {p : Predicate} {q : QuestionId} :
    q ∈ p.questions ↔ q ∈ p.root.reads := SortedSet.mem_ofList

end Predicate

end FormProgram
