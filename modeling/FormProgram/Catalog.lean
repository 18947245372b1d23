/-
The catalog of questions that programs draw on.
-/
import FormProgram.Question

set_option autoImplicit false

namespace FormProgram

structure Catalog where
  questions : List Question
deriving Inhabited

namespace Catalog

def question? (c : Catalog) (id : QuestionId) : Option Question :=
  c.questions.find? (·.id == id)

def size (c : Catalog) : Nat := c.questions.length

/-- The first id that an earlier question has already. -/
def firstRepeat : List QuestionId → List Question → Option QuestionId
  | _, [] => none
  | seen, q :: rest => if seen.contains q.id then some q.id else firstRepeat (q.id :: seen) rest

/-- The catalog of questions with distinct ids; otherwise the first id that repeats. -/
def ofQuestions (questions : List Question) : Except QuestionId Catalog :=
  match firstRepeat [] questions with
  | some id => .error id
  | none => .ok ⟨questions⟩

/-- The catalog in which the last question with an id counts. -/
def ofLatest (questions : List Question) : Catalog := ⟨questions.reverse⟩

end Catalog

end FormProgram
