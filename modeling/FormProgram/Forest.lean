/-
The forest that a block list spells out by its enumerator ids.

Nodes are positions in the list. A block without enumerator id is a root. A block that names an
enumerator hangs under the first block with that id, provided that one is an enumerator and not the
block itself; otherwise it is a stray. Every node has one parent at most, so a chain upward either
ends or runs into a cycle within as many steps as there are nodes, and a node is reached from the
roots exactly when its chain ends at a root.
-/
import FormProgram.Block

set_option autoImplicit false

namespace FormProgram

def positionOf (blocks : List Block) (id : BlockId) : Option Nat :=
  blocks.findIdx? (·.id == id)

inductive Place where
  | root
  | under (parent : Nat)
  | stray
deriving DecidableEq, Repr

def Place.of (blocks : List Block) (i : Nat) (b : Block) : Place :=
  match b.enumerator with
  | none => .root
  | some e =>
    match positionOf blocks e with
    | none => .stray
    | some p =>
      if p != i && (blocks[p]?.map (·.isEnumerator)).getD false then .under p else .stray

/-- The place of every node, in list order. -/
structure Forest where
  places : List Place
deriving DecidableEq, Repr

namespace Forest

def ofBlocks (blocks : List Block) : Forest :=
  ⟨blocks.mapIdx fun i b => Place.of blocks i b⟩

def size (f : Forest) : Nat := f.places.length

def nodesAt (f : Forest) (p : Place) : List Nat :=
  (f.places.zipIdx.filter (·.1 == p)).map (·.2)

def roots (f : Forest) : List Nat := f.nodesAt .root

def children (f : Forest) (i : Nat) : List Nat := f.nodesAt (.under i)

def parent? (f : Forest) (i : Nat) : Option Nat :=
  match f.places[i]? with
  | some (.under p) => some p
  | _ => none

/-- The children of the same parent. A node without a parent has the roots for siblings. -/
def siblings (f : Forest) (i : Nat) : List Nat :=
  match f.parent? i with
  | some p => f.children p
  | none => f.roots

/-- A node and its descendants on that many levels, parents before their children. -/
def walk (f : Forest) : Nat → Nat → List Nat
  | 0, _ => []
  | levels + 1, i => i :: (f.children i).flatMap (f.walk levels)

/-- A node with all its descendants, parents first. Away from cycles no chain has more levels than
there are nodes. -/
def subtree (f : Forest) (i : Nat) : List Nat := f.walk f.size i

def subtreeSize (f : Forest) (i : Nat) : Nat := (f.subtree i).length

/-- Every node that hangs under a root, parents first and siblings in list order. -/
def preorder (f : Forest) : List Nat := f.roots.flatMap f.subtree

def unreachable (f : Forest) : List Nat :=
  let reached := f.preorder
  (List.range f.size).filter fun i => !reached.contains i

/-- A node after its nearest ancestors, that many at most, the outermost first. -/
def climb (f : Forest) : Nat → Nat → List Nat
  | 0, i => [i]
  | steps + 1, i =>
    match f.parent? i with
    | none => [i]
    | some p => f.climb steps p ++ [i]

/-- The ancestors of a node, the outermost first, and then the node. On a cycle the chain is cut
off one node after it has been all the way round. -/
def chain (f : Forest) (i : Nat) : List Nat := f.climb f.size i

end Forest

end FormProgram
