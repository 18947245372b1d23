/-
Structural operations never reach outside of their list.

The definitions in `Strict` are the operations again with every access guarded: where a position or a range
lies outside of the list, where a loop over the forest has not ended after so many rounds, or where a slice
is empty, there is no result at all. On lists in canonical order they all have one, the result of the
unguarded operation.

What carries this is `parentsFirst`: in a canonical list, repeated ids or not, every parent in the forest
stands before its children. A block that names an enumerator finds the first block of that id, and one with
the id is open when the check accepts the block, so the first stands before it too.
-/
import FormProgram.Proofs.Instances
import FormProgram.Proofs.Rows
import FormProgram.Proofs.StackWalk

set_option autoImplicit false

namespace FormProgram

variable {l : List Block} {i j rounds : Nat}

/-! ## Canonical lists -/

theorem positionOf_le {id : BlockId} {b : Block} (hp : positionOf l id = some i) (hb : l[j]? = some b)
    (hid : b.id = id) : i ≤ j := by
  obtain ⟨hi, -, hbefore⟩ := List.findIdx?_eq_some_iff_getElem.1 hp
  obtain ⟨hj, hb⟩ := List.getElem?_eq_some_iff.1 hb
  refine Nat.le_of_not_lt fun hlt => hbefore j hlt ?_
  rw [hb, hid, beq_self_eq_true]

/-- **Parents come first** in a canonical list, also where ids repeat. -/
theorem parentsFirst (h : isCanonical l = true) : (Forest.ofBlocks l).ParentsFirst := by
  intro i j hp
  obtain ⟨-, b, c, hb, -, -, he, hpos⟩ := parent?_ofBlocks.1 hp
  obtain ⟨hj, hbj⟩ := List.getElem?_eq_some_iff.1 hb
  have hl : l = l.take j ++ b :: l.drop (j + 1) := by
    rw [← hbj, List.getElem_cons_drop, List.take_append_drop]
  rcases (isCanonical_iff_nested.1 h).enumerator_of_split hl with hnone | ⟨d, hd, -, hed⟩
  · rw [he] at hnone
    cases hnone
  · obtain ⟨k, hk⟩ := List.mem_iff_getElem?.1 hd
    have hkj : k < j := by
      have := (List.getElem?_eq_some_iff.1 hk).1
      rw [List.length_take] at this
      omega
    rw [List.getElem?_take_of_lt hkj] at hk
    have hid : d.id = c.id := Option.some.inj (hed.symm.trans he)
    exact Nat.lt_of_le_of_lt (positionOf_le hpos hk hid) hkj

/-- The slice holds a position, and all that it holds are positions of the list. -/
def Slice.Within (s : Slice) (l : List Block) : Prop := s.start < s.stop ∧ s.stop ≤ l.length

instance {s : Slice} : Decidable (s.Within l) := inferInstanceAs (Decidable (_ ∧ _))

theorem sliceAt_within (h : isCanonical l = true) (hi : i < l.length) :
    ((Forest.ofBlocks l).sliceAt i).Within l := by
  rw [← size_ofBlocks] at hi
  have hpos := Forest.subtreeSize_pos hi
  have hle := (parentsFirst h).subtreeSize_le hi
  rw [size_ofBlocks] at hle
  exact ⟨Nat.lt_add_of_pos_right hpos, hle⟩

theorem lt_of_positionOf {id : BlockId} (hp : positionOf l id = some i) : i < l.length := by
  obtain ⟨b, hb, -⟩ := block_of_positionOf hp
  exact (List.getElem?_eq_some_iff.1 hb).1

theorem blockSlice_within (h : isCanonical l = true) {id : BlockId} {s : Slice}
    (hs : blockSlice l id = some s) : s.Within l := by
  obtain ⟨i, hp, rfl⟩ := Option.map_eq_some_iff.1 hs
  exact sliceAt_within h (lt_of_positionOf hp)

/-! ## The operations with every access guarded -/

namespace Strict

/-- The part of a list from one position up to another. -/
def range (l : List Block) (start stop : Nat) : Option (List Block) :=
  if start ≤ stop ∧ stop ≤ l.length then some ((l.take stop).drop start) else none

def placeOf (blocks : List Block) (i : Nat) (b : Block) : Option Place :=
  match b.enumerator with
  | none => some .root
  | some e =>
    match positionOf blocks e with
    | none => some .stray
    | some p =>
      if p = i then some .stray
      else (blocks[p]?).map fun c => if c.isEnumerator then .under p else .stray

def forest (blocks : List Block) : Option Forest :=
  (blocks.zipIdx.mapM fun e => placeOf blocks e.2 e.1).map Forest.mk

/-- The loop that counts puts the children on the stack in list order, so it takes the last off first. -/
def subtreeSize (rounds : Nat) (f : Forest) (i : Nat) : Option Nat :=
  (f.emit List.reverse rounds [i]).map List.length

/-- A slice must hold a block and end inside the list. -/
def sliceAt (rounds : Nat) (blocks : List Block) (i : Nat) : Option Slice := do
  let f ← forest blocks
  let size ← subtreeSize rounds f i
  let s : Slice := ⟨i, i + size⟩
  if s.Within blocks then some s else none

def canonicalOrder (rounds : Nat) (blocks : List Block) : Option (List Block) := do
  let f ← forest blocks
  let order ← f.emit id rounds f.roots
  order.mapM (blocks[·]?)

def blockSlice (rounds : Nat) (blocks : List Block) (id : BlockId) : Option (Option Slice) :=
  match positionOf blocks id with
  | none => some none
  | some i => (sliceAt rounds blocks i).map some

def insertionIndex (rounds : Nat) (blocks : List Block) (b : Block) : Option (Except EditError Nat) :=
  if blocks.any (·.id == b.id) then some (.error (.duplicateBlock b.id))
  else
    match b.enumerator with
    | none => some (.ok blocks.length)
    | some e =>
      match positionOf blocks e with
      | none => some (.error (.missingBlock e))
      | some i => do
        let c ← blocks[i]?
        if c.isEnumerator then (sliceAt rounds blocks i).map fun s => .ok s.stop
        else some (.error (.missingBlock e))

def insertBlock (rounds : Nat) (blocks : List Block) (b : Block) :
    Option (Except EditError (List Block)) := do
  match ← insertionIndex rounds blocks b with
  | .error e => some (.error e)
  | .ok i => do
    let front ← range blocks 0 i
    let back ← range blocks i blocks.length
    some (.ok (front ++ b :: back))

/-- The position behind the slice may be the end of the list; there is no sibling then. -/
def neighbor (blocks : List Block) (s : Slice) (d : Direction) : Option (Option Nat) := do
  let b ← blocks[s.start]?
  match d with
  | .up => (List.range s.start).reverse.findM? fun i => (blocks[i]?).map (·.enumerator == b.enumerator)
  | .down => some (if isSibling blocks b.enumerator s.stop then some s.stop else none)

def swapSlices (blocks : List Block) (p q : Slice) : Option (Option (List Block)) :=
  let (first, second) := if p.start < q.start then (p, q) else (q, p)
  if first.stop = second.start ∧ second.stop ≤ blocks.length then do
    let front ← range blocks 0 first.start
    let latter ← range blocks second.start second.stop
    let earlier ← range blocks first.start first.stop
    let back ← range blocks second.stop blocks.length
    some (some (front ++ latter ++ earlier ++ back))
  else some none

def moveBlock (rounds : Nat) (blocks : List Block) (id : BlockId) (d : Direction) :
    Option (Except EditError MoveOutcome) :=
  match firstDuplicate blocks with
  | some twice => some (.error (.duplicateBlock twice))
  | none =>
    match positionOf blocks id with
    | none => some (.error (.missingBlock id))
    | some i => do
      let s ← sliceAt rounds blocks i
      match ← neighbor blocks s d with
      | none => some (.ok .atBoundary)
      | some n => do
        match ← swapSlices blocks s (← sliceAt rounds blocks n) with
        | some moved => some (.ok (.moved moved))
        | none => some (.error (.apart id))

def order (rounds : Nat) (p : Program) : Option Program :=
  if p.isOrdered then some p.noteOrdered
  else (canonicalOrder rounds p.blocks).map p.withOrderedBlocks

def slice (rounds : Nat) (p : Program) (id : BlockId) : Option (Except ProgramError Slice) := do
  let q ← order rounds p
  (blockSlice rounds q.blocks id).map (p.found id)

def sliceReport (rounds : Nat) (p : Program) (id : BlockId) :
    Option (Except ProgramError Program.SliceReport) := do
  match ← slice rounds p id with
  | .error e => some (.error e)
  | .ok s => do
    let q ← order rounds p
    let covered ← range q.blocks s.start s.stop
    some (.ok ⟨id, s, covered.map (·.id)⟩)

def insert (rounds : Nat) (p : Program) (b : Block) : Option (Except ProgramError Program) := do
  let q ← order rounds p
  match ← insertBlock rounds q.blocks b with
  | .ok blocks => some (.ok (q.withBlocks blocks))
  | .error e => some (.error (.ofEdit p.id e))

def move (rounds : Nat) (p : Program) (id : BlockId) (d : Direction) :
    Option (Except ProgramError Program) := do
  let q ← order rounds p
  match ← moveBlock rounds q.blocks id d with
  | .error e => some (.error (.ofEdit p.id e))
  | .ok .atBoundary => some (.ok q)
  | .ok (.moved blocks) =>
    some (if readsInOrder blocks then .ok (p.withOrderedBlocks blocks)
      else .error (.illegalPredicateOrdering id d))

theorem mapM_eq_some {α β : Type} {g : α → Option β} {r : α → β} {as : List α}
    (h : ∀ a ∈ as, g a = some (r a)) : as.mapM g = some (as.map r) := by
  rw [mapM_eq_some_iff, List.forall₂_map_right_iff, List.forall₂_same]
  exact h

theorem findM?_eq_some {α : Type} {g : α → Option Bool} {r : α → Bool} {as : List α}
    (h : ∀ a ∈ as, g a = some (r a)) : as.findM? g = some (as.find? r) := by
  induction as with
  | nil => rfl
  | cons a as ih =>
    rw [List.findM?, h a (by simp), ih fun b hb => h b (by simp [hb]), List.find?_cons]
    cases r a <;> rfl

theorem range_eq {start stop : Nat} (hs : start ≤ stop) (hl : stop ≤ l.length) :
    range l start stop = some ((l.take stop).drop start) := if_pos ⟨hs, hl⟩

theorem range_front (h : i ≤ l.length) : range l 0 i = some (l.take i) := by
  rw [range_eq (Nat.zero_le i) h, List.drop_zero]

theorem range_back (h : i ≤ l.length) : range l i l.length = some (l.drop i) := by
  rw [range_eq h (Nat.le_refl _), List.take_length]

theorem range_slice {s : Slice} (h : s.Within l) : range l s.start s.stop = some (s.extract l) :=
  range_eq (Nat.le_of_lt h.1) h.2

theorem placeOf_eq {b : Block} : placeOf l i b = some (Place.of l i b) := by
  rw [placeOf, Place.of]
  cases b.enumerator with
  | none => rfl
  | some e =>
    cases hp : positionOf l e with
    | none => simp only [hp]
    | some p =>
      obtain ⟨c, hc, -⟩ := block_of_positionOf hp
      by_cases hpi : p = i
      · simp [hp, hpi]
      · cases he : c.isEnumerator <;> simp [hp, hpi, hc, he]

theorem forest_eq : forest l = some (.ofBlocks l) := by
  rw [forest, mapM_eq_some fun e _ => placeOf_eq, Option.map_some, Forest.ofBlocks, List.mapIdx_eq_zipIdx_map]

/-- The loop counts the subtree within as many rounds as there are nodes, in a forest with parents first. -/
theorem subtreeSize_eq {f : Forest} (h : f.ParentsFirst) (hi : i < f.size) (hr : f.size ≤ rounds) :
    subtreeSize rounds f i = some (f.subtreeSize i) := by
  have hperm : (f.walkBy List.reverse f.size i).Perm (f.subtree i) := Forest.walkBy_perm List.reverse_perm
  have hlen : (f.walkBy List.reverse f.size i).length = f.subtreeSize i := hperm.length_eq
  have hle := h.subtreeSize_le hi
  have hemit : f.emit List.reverse rounds [i] = some ([i].flatMap (f.walkBy List.reverse f.size)) :=
    Forest.emit_eq (fun _ _ hc => List.mem_reverse.1 hc) [i] (by simpa using h.shallow hi) (by simpa using hi)
      (by simp only [List.flatMap_singleton]; omega)
  rw [subtreeSize, hemit, Option.map_some, List.flatMap_singleton, hlen]

/-- From a block on a cycle the loop counts for ever. -/
theorem subtreeSize_eq_none_of_cycle {f : Forest} {n : Nat} (h : f.up (n + 1) i = some i) (rounds : Nat) :
    subtreeSize rounds f i = none := by
  rw [subtreeSize, Forest.emit_eq_none_of_cycle (fun _ _ hc => List.mem_reverse.2 hc) h, Option.map_none]

theorem canonicalOrder_eq (hr : l.length ≤ rounds) :
    canonicalOrder rounds l = some (FormProgram.canonicalOrder l) := by
  have hf : (Forest.ofBlocks l).size ≤ rounds := by rwa [size_ofBlocks]
  have hin : ∀ i ∈ (Forest.ofBlocks l).preorder, l[i]? = some (l[i]?.getD default) := by
    intro i hi
    have hlt := (Forest.mem_preorder.1 hi).lt_size
    rw [size_ofBlocks] at hlt
    rw [List.getElem?_eq_getElem hlt, Option.getD_some]
  have hpick : FormProgram.canonicalOrder l =
      (Forest.ofBlocks l).preorder.map fun i => l[i]?.getD default := by
    rw [FormProgram.canonicalOrder, pick, List.filterMap_congr hin, List.filterMap_eq_map']
  simp only [canonicalOrder, forest_eq, Option.bind_eq_bind, Option.bind_some, Forest.emit_roots hf,
    mapM_eq_some hin, hpick]

/-! ## On canonical lists -/

section Canonical

variable (h : isCanonical l = true) (hr : l.length ≤ rounds)
include h hr

theorem sliceAt_eq (hi : i < l.length) : sliceAt rounds l i = some ((Forest.ofBlocks l).sliceAt i) := by
  have hsize : subtreeSize rounds (.ofBlocks l) i = some ((Forest.ofBlocks l).subtreeSize i) :=
    subtreeSize_eq (parentsFirst h) (by rwa [size_ofBlocks]) (by rwa [size_ofBlocks])
  have hw := sliceAt_within h hi
  simp only [sliceAt, forest_eq, Option.bind_eq_bind, Option.bind_some, hsize]
  exact if_pos hw

theorem blockSlice_eq (id : BlockId) : blockSlice rounds l id = some (FormProgram.blockSlice l id) := by
  rw [blockSlice, FormProgram.blockSlice]
  split
  next hp => rw [hp, Option.map_none]
  next i hp => rw [sliceAt_eq h hr (lt_of_positionOf hp), hp, Option.map_some, Option.map_some]

theorem insertionIndex_eq (b : Block) :
    insertionIndex rounds l b = some (FormProgram.insertionIndex l b) := by
  rw [insertionIndex, FormProgram.insertionIndex]
  by_cases hany : l.any (·.id == b.id) = true
  · rw [if_pos hany, if_pos hany]
  · rw [if_neg hany, if_neg hany]
    cases b.enumerator with
    | none => rfl
    | some e =>
      cases hp : positionOf l e with
      | none => simp only [hp]
      | some i =>
        obtain ⟨c, hc, -⟩ := block_of_positionOf hp
        cases he : c.isEnumerator <;> simp [hp, hc, he, sliceAt_eq h hr (lt_of_positionOf hp)]

omit hr in
theorem insertionIndex_le {b : Block} (hi : FormProgram.insertionIndex l b = .ok i) : i ≤ l.length := by
  unfold FormProgram.insertionIndex at hi
  split at hi
  next => cases hi
  next =>
    split at hi
    next =>
      cases hi
      exact Nat.le_refl _
    next =>
      split at hi
      next => cases hi
      next j hp =>
        split at hi
        next =>
          cases hi
          exact (sliceAt_within h (lt_of_positionOf hp)).2
        next => cases hi

theorem insertBlock_eq (b : Block) : insertBlock rounds l b = some (FormProgram.insertBlock l b) := by
  rw [insertBlock, FormProgram.insertBlock, insertionIndex_eq h hr b]
  cases hi : FormProgram.insertionIndex l b with
  | error e => rfl
  | ok i =>
    have hle := insertionIndex_le h hi
    simp only [Option.bind_eq_bind, Option.bind_some, range_front hle, range_back hle, Except.map]

omit h hr in
theorem neighbor_eq {s : Slice} (hs : s.Within l) (d : Direction) :
    neighbor l s d = some (FormProgram.neighbor l s d) := by
  have hlt : s.start < l.length := Nat.lt_of_lt_of_le hs.1 hs.2
  have hb := List.getElem?_eq_getElem hlt
  cases d with
  | down =>
    simp only [neighbor, FormProgram.neighbor, hb, Option.bind_eq_bind, Option.bind_some]
    rfl
  | up =>
    simp only [neighbor, FormProgram.neighbor, hb, Option.bind_eq_bind, Option.bind_some]
    refine findM?_eq_some fun i hi => ?_
    have hi : i < s.start := by simpa using hi
    rw [List.getElem?_eq_getElem (Nat.lt_trans hi hlt), Option.map_some, Option.getD_some]

omit h hr in
theorem neighbor_lt {s : Slice} {d : Direction} (hn : FormProgram.neighbor l s d = some i) : i < l.length := by
  -- Whichever way the sibling is found, its block has been looked at.
  have hsibling : ∀ {k : Option BlockId} {i : Nat}, isSibling l k i = true → i < l.length := by
    intro k i hi
    refine Nat.lt_of_not_le fun hle => ?_
    rw [isSibling, List.getElem?_eq_none hle] at hi
    cases hi
  rw [FormProgram.neighbor] at hn
  split at hn
  next => cases hn
  next b hb =>
    cases d with
    | up => exact hsibling (List.find?_some hn)
    | down =>
      obtain ⟨hi, hn⟩ := Option.ite_none_right_eq_some.1 hn
      cases hn
      exact hsibling hi

omit h hr in
/-- Slices are cut out only where they touch and end inside the list. -/
theorem swapSlices_eq {p q : Slice} (hp : p.start < p.stop) (hq : q.start < q.stop) :
    swapSlices l p q = some (FormProgram.swapSlices l p q) := by
  have hcases : ∀ first second : Slice, first.start < first.stop → second.start < second.stop →
      (if first.stop = second.start ∧ second.stop ≤ l.length then (do
        let front ← range l 0 first.start
        let latter ← range l second.start second.stop
        let earlier ← range l first.start first.stop
        let back ← range l second.stop l.length
        some (some (front ++ latter ++ earlier ++ back)))
      else some none) =
      some (if first.stop = second.start ∧ second.stop ≤ l.length then
        some (l.take first.start ++ second.extract l ++ first.extract l ++ l.drop second.stop)
      else none) := by
    intro first second hf hs
    split
    next hstop =>
      have hfirst : first.Within l := ⟨hf, by omega⟩
      have hstart : first.start ≤ l.length := Nat.le_trans (Nat.le_of_lt hf) hfirst.2
      simp only [range_front hstart, range_slice hfirst, range_slice ⟨hs, hstop.2⟩, range_back hstop.2,
        Option.bind_eq_bind, Option.bind_some]
    next => rfl
  by_cases hlt : p.start < q.start
  · simp only [swapSlices, FormProgram.swapSlices, if_pos hlt]
    exact hcases p q hp hq
  · simp only [swapSlices, FormProgram.swapSlices, if_neg hlt]
    exact hcases q p hq hp

theorem moveBlock_eq (id : BlockId) (d : Direction) :
    moveBlock rounds l id d = some (FormProgram.moveBlock l id d) := by
  rw [moveBlock, FormProgram.moveBlock]
  cases firstDuplicate l with
  | some twice => rfl
  | none =>
    cases hp : positionOf l id with
    | none => rfl
    | some i =>
      have hi := lt_of_positionOf hp
      have hs := sliceAt_within h hi
      simp only [sliceAt_eq h hr hi, neighbor_eq hs, Option.bind_eq_bind, Option.bind_some]
      cases hn : FormProgram.neighbor l ((Forest.ofBlocks l).sliceAt i) d with
      | none => rfl
      | some n =>
        have hn := neighbor_lt hn
        simp only [sliceAt_eq h hr hn, swapSlices_eq hs.1 (sliceAt_within h hn).1, Option.bind_some]
        cases FormProgram.swapSlices l ((Forest.ofBlocks l).sliceAt i) ((Forest.ofBlocks l).sliceAt n) <;> rfl

end Canonical

end Strict

/-! ## On programs -/

namespace Program.Truthful

variable {p : Program} (h : p.Truthful)
include h

theorem length_order_le : p.order.blocks.length ≤ p.blocks.length := by
  rw [h.order_blocks]
  split
  · exact Nat.le_refl _
  · have hle := Forest.length_preorder_le (f := .ofBlocks p.blocks)
    rw [size_ofBlocks] at hle
    exact Nat.le_trans (List.length_filterMap_le _ _) hle

variable (hr : p.blocks.length ≤ rounds)
include hr

omit h in
theorem strict_order : Strict.order rounds p = some p.order := by
  rw [Strict.order, Program.order, Strict.canonicalOrder_eq hr]
  split <;> rfl

theorem strict_slice (id : BlockId) : Strict.slice rounds p id = some (p.slice id) := by
  have hslice := Strict.blockSlice_eq h.isCanonical_order (Nat.le_trans h.length_order_le hr) id
  simp only [Strict.slice, strict_order hr, Option.bind_eq_bind, Option.bind_some, hslice, Option.map_some,
    Program.slice]

omit hr in
theorem slice_within {id : BlockId} {s : Slice} (hs : p.slice id = .ok s) : s.Within p.order.blocks := by
  rw [Program.slice] at hs
  cases hb : blockSlice p.order.blocks id with
  | none =>
    rw [hb] at hs
    cases hs
  | some s' =>
    rw [hb] at hs
    cases hs
    exact blockSlice_within h.isCanonical_order hb

theorem strict_sliceReport (id : BlockId) : Strict.sliceReport rounds p id = some (p.sliceReport id) := by
  simp only [Strict.sliceReport, h.strict_slice hr, strict_order hr, Option.bind_eq_bind, Option.bind_some,
    Program.sliceReport]
  cases hs : p.slice id with
  | error e => rfl
  | ok s =>
    simp only [Strict.range_slice (h.slice_within hs), Option.bind_some]
    rfl

theorem strict_insert (b : Block) : Strict.insert rounds p b = some (p.insert b) := by
  have hinsert := Strict.insertBlock_eq h.isCanonical_order (Nat.le_trans h.length_order_le hr) b
  simp only [Strict.insert, strict_order hr, Option.bind_eq_bind, Option.bind_some, hinsert, Program.insert]
  split <;> simp_all

theorem strict_move (id : BlockId) (d : Direction) : Strict.move rounds p id d = some (p.move id d) := by
  have hmove := Strict.moveBlock_eq h.isCanonical_order (Nat.le_trans h.length_order_le hr) id d
  simp only [Strict.move, strict_order hr, Option.bind_eq_bind, Option.bind_some, hmove, Program.move]
  split <;> simp_all

end Program.Truthful

/-- **Structural operations are safe on every program**, with repeated ids, id 0, blocks without their
enumerator, and enumerators that repeat in a circle. As many rounds for each loop as there are blocks are
enough, nothing reaches outside of the ordered list, and every slice holds a block and ends inside.

Underneath, every parent in the forest of a canonical list stands before its children. So the count of what
hangs under a block ends and stays inside the list, though from a block on a cycle it would not end. -/
theorem structural_operations_in_range (es : List Event) (p : Program) (hp : p ∈ live es) :
    (∀ rounds, p.blocks.length ≤ rounds → ∀ id d b,
      Strict.slice rounds p id = some (p.slice id) ∧
      Strict.sliceReport rounds p id = some (p.sliceReport id) ∧
      Strict.insert rounds p b = some (p.insert b) ∧
      Strict.move rounds p id d = some (p.move id d)) ∧
    (∀ id s, p.slice id = .ok s → s.start < s.stop ∧ s.stop ≤ p.order.blocks.length) ∧
    (∀ i < p.order.blocks.length, ((Forest.ofBlocks p.order.blocks).sliceAt i).Within p.order.blocks) ∧
    (∀ l, isCanonical l = true →
      (∀ i j, (Forest.ofBlocks l).parent? i = some j → j < i) ∧
      ∀ i < l.length,
        (∀ rounds, l.length ≤ rounds →
          Strict.subtreeSize rounds (.ofBlocks l) i = some ((Forest.ofBlocks l).subtreeSize i)) ∧
        1 ≤ (Forest.ofBlocks l).subtreeSize i ∧ (Forest.ofBlocks l).subtreeSize i ≤ l.length - i) ∧
    ∀ l i n, (Forest.ofBlocks l).up (n + 1) i = some i →
      ∀ rounds, Strict.subtreeSize rounds (.ofBlocks l) i = none := by
  have htrue := live_truthful es p hp
  refine ⟨fun rounds hr id d b => ?_, fun id s hs => htrue.slice_within hs,
    fun i hi => sliceAt_within htrue.isCanonical_order hi, fun l hl => ⟨?_, fun i hi => ⟨?_, ?_⟩⟩, ?_⟩
  · exact ⟨htrue.strict_slice hr id, htrue.strict_sliceReport hr id, htrue.strict_insert hr b,
      htrue.strict_move hr id d⟩
  · exact fun i j hp => parentsFirst hl j i hp
  · intro rounds hr
    exact Strict.subtreeSize_eq (parentsFirst hl) (by rwa [size_ofBlocks]) (by rwa [size_ofBlocks])
  · obtain ⟨hpos, hle⟩ := sliceAt_within hl hi
    simp only [Forest.sliceAt] at hpos hle
    omega
  · exact fun l i n hu rounds => Strict.subtreeSize_eq_none_of_cycle hu rounds

/-- The jobs twice with one id, one list of jobs inside the other, and two enumerators that repeat under each
other. The slice of the jobs is that of the first list; on the circle the count goes on for ever. -/
theorem structural_operations_in_range_household :
    let circle : List Block :=
      [{ id := 8, name := "these", enumerator := some 9, isEnumerator := true },
        { id := 9, name := "those", enumerator := some 8, isEnumerator := true }]
    let inner : Block := { id := 3, name := "more jobs", enumerator := some 3, isEnumerator := true }
    let p : Program := Draft.build { blocks := circle ++ household.take 3 ++ [inner] ++ household.drop 3 }
    p ∈ live [.build p.toDraft] ∧ p.slice 3 = .ok ⟨2, 5⟩ ∧ Strict.slice 8 p 3 = some (p.slice 3) ∧
      (Forest.ofBlocks p.blocks).up 2 0 = some 0 ∧ Strict.subtreeSize 100 (.ofBlocks p.blocks) 0 = none := by
  intro circle inner p
  have hp : p ∈ live [.build p.toDraft] := List.mem_singleton.2 rfl
  have hu : (Forest.ofBlocks p.blocks).up 2 0 = some 0 := by decide +kernel
  obtain ⟨hrun, -, -, -, hcycle⟩ := structural_operations_in_range _ p hp
  exact ⟨hp, by decide +kernel, (hrun 8 (by decide) 3 .up inner).1, hu, hcycle _ 0 1 hu 100⟩

end FormProgram
