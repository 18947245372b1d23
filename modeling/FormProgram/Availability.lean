/-
Which questions a predicate on a block may read.

A predicate may only read answers given by the time its block is shown. For a repeated block these
come from its chain of enumerators and from earlier siblings at each level, never from the blocks
nested under such a sibling, which repeat on their own.
-/
import FormProgram.Order

set_option autoImplicit false

namespace FormProgram

/-- A list up to and including the first `x`; the whole list if there is none. -/
def upTo (x : Nat) : List Nat → List Nat
  | [] => []
  | y :: rest => if y = x then [y] else y :: upTo x rest

/-- The nodes whose answers are there when the node is shown: along its chain, at each level the
siblings up to the chain's member. -/
def Forest.visibleFrom (f : Forest) (i : Nat) : List Nat :=
  (f.chain i).flatMap fun j => upTo j (f.siblings j)

def availableThrough (blocks : List Block) (id : BlockId) : Option (List Question) :=
  (positionOf blocks id).map fun i =>
    (pick blocks ((Forest.ofBlocks blocks).visibleFrom i)).flatMap Block.readableQuestions

/-- What a visibility predicate on a block may read: all that is available through the block just
before it. -/
def availableForVisibility (blocks : List Block) (id : BlockId) : Option (List Question) :=
  match positionOf blocks id with
  | none => none
  | some 0 => some []
  | some (i + 1) => (blocks[i]?).bind fun previous => availableThrough blocks previous.id

end FormProgram
