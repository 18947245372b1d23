/-
What is computed from a block list comes out the same for a list that is equal block by block: order,
slices, late reads, available questions, and the edits.
-/
import FormProgram.Proofs.Alike

set_option autoImplicit false

namespace FormProgram

/-- Results that are related, or the same failure. -/
inductive SameResult {ε α β : Type} (R : α → β → Prop) : Except ε α → Except ε β → Prop
  | ok {a : α} {b : β} (related : R a b) : SameResult R (.ok a) (.ok b)
  | error (e : ε) : SameResult R (.error e) (.error e)

namespace Alike

variable {xs ys : List Block}

theorem isCanonicalFrom (h : Alike xs ys) (opened : List BlockId) :
    FormProgram.isCanonicalFrom opened xs = FormProgram.isCanonicalFrom opened ys := by
  induction h generalizing opened with
  | nil => rfl
  | cons hbc _ ih =>
    have l := Block.like_of_beq hbc
    rw [FormProgram.isCanonicalFrom, FormProgram.isCanonicalFrom, l.id, l.enumerator, l.isEnumerator, ih]

theorem isCanonical (h : Alike xs ys) : FormProgram.isCanonical xs = FormProgram.isCanonical ys :=
  h.isCanonicalFrom []

theorem isEnumeratorAt (h : Alike xs ys) (i : Nat) :
    (xs[i]?.map (·.isEnumerator)).getD false = (ys[i]?.map (·.isEnumerator)).getD false := by
  rw [h.map_getElem? i fun _ _ l => l.isEnumerator]

/-- Equal lists spell out the same forest. -/
theorem forest (h : Alike xs ys) : Forest.ofBlocks xs = Forest.ofBlocks ys := by
  have hplace : ∀ i b c, b.Like c → Place.of xs i b = Place.of ys i c := by
    intro i b c l
    simp only [Place.of, l.enumerator, h.positionOf, h.isEnumeratorAt]
  refine congrArg Forest.mk (List.ext_getElem? fun i => ?_)
  rw [List.getElem?_mapIdx, List.getElem?_mapIdx]
  have hi := h.getElem? i
  generalize xs[i]? = o, ys[i]? = o' at hi
  cases hi with
  | none => rfl
  | some hbc => exact congrArg some (hplace i _ _ (Block.like_of_beq hbc))

theorem canonicalOrder (h : Alike xs ys) : Alike (FormProgram.canonicalOrder xs) (FormProgram.canonicalOrder ys) := by
  rw [FormProgram.canonicalOrder, FormProgram.canonicalOrder, h.forest]
  exact h.pick _

theorem blockSlice (h : Alike xs ys) (id : BlockId) : FormProgram.blockSlice xs id = FormProgram.blockSlice ys id := by
  rw [FormProgram.blockSlice, FormProgram.blockSlice, h.positionOf, h.forest]

theorem extract (h : Alike xs ys) (s : Slice) : Alike (s.extract xs) (s.extract ys) :=
  List.forall₂_drop _ (List.forall₂_take _ h)

theorem ofPredicate? {p q : Option Predicate} (h : reads p = reads q) (id : BlockId) (kind : PredicateKind)
    (collected : List QuestionId) :
    LateRead.ofPredicate? id kind collected p = LateRead.ofPredicate? id kind collected q := by
  cases p with
  | none =>
    cases q with
    | none => rfl
    | some q => cases h
  | some p =>
    cases q with
    | none => cases h
    | some q => simp only [LateRead.ofPredicate?, Option.some.inj h]

theorem lateReadsAfter (h : Alike xs ys) (collected : List QuestionId) :
    LateRead.ofBlocksAfter collected xs = LateRead.ofBlocksAfter collected ys := by
  induction h generalizing collected with
  | nil => rfl
  | cons hbc _ ih =>
    have l := Block.like_of_beq hbc
    rw [LateRead.ofBlocksAfter, LateRead.ofBlocksAfter, LateRead.ofBlock, LateRead.ofBlock, l.id,
      l.questionIds, ofPredicate? l.visibility, ofPredicate? l.eligibility, ih]

theorem lateReads (h : Alike xs ys) : LateRead.ofBlocks xs = LateRead.ofBlocks ys := h.lateReadsAfter []

theorem readsInOrder (h : Alike xs ys) : FormProgram.readsInOrder xs = FormProgram.readsInOrder ys := by
  rw [FormProgram.readsInOrder, FormProgram.readsInOrder, h.lateReads]

theorem availableThrough (h : Alike xs ys) (id : BlockId) :
    FormProgram.availableThrough xs id = FormProgram.availableThrough ys id := by
  have hq := fun i => (h.pick ((Forest.ofBlocks ys).visibleFrom i)).flatMap_eq fun _ _ => Block.Like.readableQuestions
  simp only [FormProgram.availableThrough, h.positionOf, h.forest, hq]

theorem availableForVisibility (h : Alike xs ys) (id : BlockId) :
    FormProgram.availableForVisibility xs id = FormProgram.availableForVisibility ys id := by
  rw [FormProgram.availableForVisibility, FormProgram.availableForVisibility, h.positionOf]
  cases FormProgram.positionOf ys id with
  | none => rfl
  | some i =>
    cases i with
    | zero => rfl
    | succ i =>
      have hid := congrArg (·.bind (FormProgram.availableThrough ys)) (h.map_getElem? i fun _ _ l => l.id)
      simpa [h.availableThrough, Option.bind_map, Function.comp_def] using hid

theorem insertionIndex (h : Alike xs ys) (b : Block) :
    FormProgram.insertionIndex xs b = FormProgram.insertionIndex ys b := by
  have hany : xs.any (·.id == b.id) = ys.any (·.id == b.id) := h.any_eq fun _ _ l => by rw [l.id]
  simp only [FormProgram.insertionIndex, hany, h.length_eq, h.positionOf, h.isEnumeratorAt, h.forest]

theorem insertBlock (h : Alike xs ys) (b : Block) :
    SameResult Alike (FormProgram.insertBlock xs b) (FormProgram.insertBlock ys b) := by
  rw [FormProgram.insertBlock, FormProgram.insertBlock, h.insertionIndex]
  cases FormProgram.insertionIndex ys b with
  | error e => exact .error e
  | ok i =>
    have hrest : Alike (b :: xs.drop i) (b :: ys.drop i) := .cons BEq.rfl (List.forall₂_drop i h)
    exact .ok (append (List.forall₂_take i h) hrest)

theorem firstDuplicateAfter (h : Alike xs ys) (seen : List BlockId) :
    FormProgram.firstDuplicateAfter seen xs = FormProgram.firstDuplicateAfter seen ys := by
  induction h generalizing seen with
  | nil => rfl
  | cons hbc _ ih =>
    rw [FormProgram.firstDuplicateAfter, FormProgram.firstDuplicateAfter, (Block.like_of_beq hbc).id, ih]

theorem neighbor (h : Alike xs ys) (s : Slice) (d : Direction) :
    FormProgram.neighbor xs s d = FormProgram.neighbor ys s d := by
  have hsibling : ∀ (k : Option BlockId) (i : Nat),
      (xs[i]?.map (·.enumerator == k)).getD false = (ys[i]?.map (·.enumerator == k)).getD false := by
    intro k i
    have hk : ∀ b c : Block, b.Like c → (b.enumerator == k) = (c.enumerator == k) := fun _ _ l => by
      rw [l.enumerator]
    rw [h.map_getElem? i hk]
  simp only [FormProgram.neighbor, hsibling]
  have hs := h.getElem? s.start
  generalize xs[s.start]? = o, ys[s.start]? = o' at hs
  cases hs with
  | none => rfl
  | some hbc => simp only [(Block.like_of_beq hbc).enumerator]

theorem swapSlices (h : Alike xs ys) (p q : Slice) :
    Option.Rel Alike (FormProgram.swapSlices xs p q) (FormProgram.swapSlices ys p q) := by
  simp only [FormProgram.swapSlices, h.length_eq]
  generalize (if p.start < q.start then (p, q) else (q, p)) = slices
  obtain ⟨first, second⟩ := slices
  dsimp only
  split
  · have hfront := append (List.forall₂_take first.start h) (h.extract second)
    exact .some (append (append hfront (h.extract first)) (List.forall₂_drop second.stop h))
  · exact .none

/-- Moves that end alike. -/
inductive Moves : MoveOutcome → MoveOutcome → Prop
  | atBoundary : Moves .atBoundary .atBoundary
  | moved {xs ys : List Block} (alike : Alike xs ys) : Moves (.moved xs) (.moved ys)

theorem moveBlock (h : Alike xs ys) (id : BlockId) (d : Direction) :
    SameResult Moves (FormProgram.moveBlock xs id d) (FormProgram.moveBlock ys id d) := by
  have htwice : firstDuplicate xs = firstDuplicate ys := h.firstDuplicateAfter []
  simp only [FormProgram.moveBlock, htwice, h.positionOf, h.forest, h.neighbor]
  cases firstDuplicate ys with
  | some twice => exact .error _
  | none =>
    cases FormProgram.positionOf ys id with
    | none => exact .error _
    | some i =>
      dsimp only
      cases FormProgram.neighbor ys ((Forest.ofBlocks ys).sliceAt i) d with
      | none => exact .ok .atBoundary
      | some n =>
        dsimp only
        have hswap := h.swapSlices ((Forest.ofBlocks ys).sliceAt i) ((Forest.ofBlocks ys).sliceAt n)
        generalize FormProgram.swapSlices xs _ _ = o, FormProgram.swapSlices ys _ _ = o' at hswap
        cases hswap with
        | none => exact .error _
        | some ha => exact .ok (.moved ha)

end Alike

end FormProgram
