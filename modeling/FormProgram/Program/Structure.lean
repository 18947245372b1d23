/-
Operations that depend on canonical order. Each puts the blocks in order first and then works on
the ordered list; positions and slices refer to that list.
-/
import FormProgram.Availability
import FormProgram.LateRead
import FormProgram.Program.Error

set_option autoImplicit false

namespace FormProgram

namespace Program

/-- The first block with an id, in stored order. -/
def block (p : Program) (id : BlockId) : Except ProgramError Block :=
  match p.blocks.find? (·.id == id) with
  | some b => .ok b
  | none => .error (.blockNotFound p.id id)

/-- The value of a look-up by block id. -/
def found {α : Type} (p : Program) (id : BlockId) : Option α → Except ProgramError α
  | some a => .ok a
  | none => .error (.blockNotFound p.id id)

/-- A block with everything that repeats under it. -/
def slice (p : Program) (id : BlockId) : Except ProgramError Slice :=
  p.found id (blockSlice p.order.blocks id)

structure SliceReport where
  block : BlockId
  slice : Slice
  ids : List BlockId
deriving DecidableEq

def sliceReport (p : Program) (id : BlockId) : Except ProgramError SliceReport :=
  (p.slice id).map fun s => ⟨id, s, (s.extract p.order.blocks).map (·.id)⟩

def lateReads (p : Program) : List LateRead := LateRead.ofBlocks p.order.blocks

def readsInOrder (p : Program) : Bool := FormProgram.readsInOrder p.order.blocks

/-- What a visibility predicate on the block may read. -/
def availableForVisibility (p : Program) (id : BlockId) : Except ProgramError (List Question) :=
  p.found id (FormProgram.availableForVisibility p.order.blocks id)

/-- What an eligibility predicate on the block may read: its own questions. -/
def availableForEligibility (p : Program) (id : BlockId) : Except ProgramError (List Question) :=
  (p.block id).map Block.readableQuestions

/-- What can be read once the block has been answered; nothing for no block. -/
def availableThrough (p : Program) (id : BlockId) : Except ProgramError (List Question) :=
  if id = 0 then .ok [] else p.found id (FormProgram.availableThrough p.order.blocks id)

def available (p : Program) (kind : PredicateKind) (id : BlockId) :
    Except ProgramError (List Question) :=
  match kind with
  | .visibility => p.availableForVisibility id
  | .eligibility => p.availableForEligibility id

/-- What a report on order and predicates says. -/
structure Report where
  program : ProgramId
  blockCount : Nat
  ordered : Bool
  lateReads : List LateRead

def Report.isClean (r : Report) : Bool := r.ordered && r.lateReads.isEmpty

def report (p : Program) : Report := ⟨p.id, p.blocks.length, p.isOrdered, p.lateReads⟩

/-- A new block goes where it keeps the canonical order. -/
def insert (p : Program) (b : Block) : Except ProgramError Program :=
  match insertBlock p.order.blocks b with
  | .ok blocks => .ok (p.order.withBlocks blocks)
  | .error e => .error (.ofEdit p.id e)

/-- Moves a block past its neighbouring sibling. Without a neighbour the ordered program comes
back; a move after which some predicate reads a question collected only later is refused. -/
def move (p : Program) (id : BlockId) (d : Direction) : Except ProgramError Program :=
  match moveBlock p.order.blocks id d with
  | .error e => .error (.ofEdit p.id e)
  | .ok .atBoundary => .ok p.order
  | .ok (.moved blocks) =>
    if FormProgram.readsInOrder blocks then .ok (p.withOrderedBlocks blocks)
    else .error (.illegalPredicateOrdering id d)

end Program

end FormProgram
