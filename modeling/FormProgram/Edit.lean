/-
Structural edits of a block list in canonical order: inserting a block, and moving a block past a
sibling together with all that repeats under it. Predicates are not looked at.
-/
import FormProgram.Order

set_option autoImplicit false

namespace FormProgram

inductive EditError where
  /-- No block has the id, or the block with it is no enumerator. -/
  | missingBlock (id : BlockId)
  | duplicateBlock (id : BlockId)
  /-- The two slices to be exchanged do not touch. -/
  | apart (id : BlockId)
deriving DecidableEq, Repr

/-- Where a new block goes: a top-level block at the end, a repeated one behind everything that
repeats under its enumerator. -/
def insertionIndex (blocks : List Block) (b : Block) : Except EditError Nat :=
  if blocks.any (·.id == b.id) then .error (.duplicateBlock b.id)
  else
    match b.enumerator with
    | none => .ok blocks.length
    | some e =>
      match positionOf blocks e with
      | none => .error (.missingBlock e)
      | some i =>
        if (blocks[i]?.map (·.isEnumerator)).getD false then
          .ok ((Forest.ofBlocks blocks).sliceAt i).stop
        else .error (.missingBlock e)

def insertBlock (blocks : List Block) (b : Block) : Except EditError (List Block) :=
  (insertionIndex blocks b).map fun i => blocks.take i ++ b :: blocks.drop i

/-- The first id that an earlier block has already. -/
def firstDuplicateAfter : List BlockId → List Block → Option BlockId
  | _, [] => none
  | seen, b :: rest =>
    if seen.contains b.id then some b.id else firstDuplicateAfter (b.id :: seen) rest

def firstDuplicate (blocks : List Block) : Option BlockId := firstDuplicateAfter [] blocks

/-- The sibling to change places with: upward the nearest earlier block with the same enumerator,
downward the block just behind the slice if it has the same enumerator. -/
def neighbor (blocks : List Block) (s : Slice) (d : Direction) : Option Nat :=
  match blocks[s.start]? with
  | none => none
  | some b =>
    let sibling := fun i => (blocks[i]?.map (·.enumerator == b.enumerator)).getD false
    match d with
    | .up => (List.range s.start).reverse.find? sibling
    | .down => if sibling s.stop then some s.stop else none

/-- Exchanges two slices, one of which must end where the other starts. -/
def swapSlices (blocks : List Block) (p q : Slice) : Option (List Block) :=
  let (first, second) := if p.start < q.start then (p, q) else (q, p)
  if first.stop = second.start ∧ second.stop ≤ blocks.length then
    some (blocks.take first.start ++ second.extract blocks ++ first.extract blocks
      ++ blocks.drop second.stop)
  else none

inductive MoveOutcome where
  /-- There is no sibling in that direction. -/
  | atBoundary
  | moved (blocks : List Block)

/-- Moves a block past its neighbour. With repeated ids no slice is certain, so none is moved. -/
def moveBlock (blocks : List Block) (id : BlockId) (d : Direction) :
    Except EditError MoveOutcome :=
  match firstDuplicate blocks with
  | some twice => .error (.duplicateBlock twice)
  | none =>
    match positionOf blocks id with
    | none => .error (.missingBlock id)
    | some i =>
      let forest := Forest.ofBlocks blocks
      match neighbor blocks (forest.sliceAt i) d with
      | none => .ok .atBoundary
      | some n =>
        match swapSlices blocks (forest.sliceAt i) (forest.sliceAt n) with
        | some moved => .ok (.moved moved)
        | none => .error (.apart id)

end FormProgram
