/-
Canonical order: every enumerator block is followed at once by all blocks that repeat under it,
directly or further down.

`isCanonical` decides it in one pass over the list; `canonicalOrder` establishes it by walking the
forest. In a canonical list a block and everything that repeats under it form a slice.
-/
import FormProgram.Forest
import FormProgram.Slice

set_option autoImplicit false

namespace FormProgram

/-- Closes open enumerators, the innermost first, until one is the block's own. -/
def closeDownTo (enumerator : Option BlockId) : List BlockId → List BlockId
  | [] => []
  | e :: rest => if enumerator = some e then e :: rest else closeDownTo enumerator rest

/-- The check with some enumerators open, the innermost first. -/
def isCanonicalFrom : List BlockId → List Block → Bool
  | _, [] => true
  | opened, b :: rest =>
    let opened := closeDownTo b.enumerator opened
    b.enumerator == opened.head? &&
      isCanonicalFrom (if b.isEnumerator then b.id :: opened else opened) rest

def isCanonical (blocks : List Block) : Bool := isCanonicalFrom [] blocks

def pick (blocks : List Block) (positions : List Nat) : List Block :=
  positions.filterMap (blocks[·]?)

/-- Blocks that hang under no root are left out. -/
def canonicalOrder (blocks : List Block) : List Block :=
  pick blocks (Forest.ofBlocks blocks).preorder

def Forest.sliceAt (f : Forest) (i : Nat) : Slice := ⟨i, i + f.subtreeSize i⟩

/-- The slice of the first block with an id, in a canonical list. -/
def blockSlice (blocks : List Block) (id : BlockId) : Option Slice :=
  (positionOf blocks id).map (Forest.ofBlocks blocks).sliceAt

end FormProgram
