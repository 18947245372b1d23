/-
What the memos of a program may say: only what is so (`Program.Truthful`). A query of such a program
gives the answer that its blocks give, and every operation on it gives such a program again.

The memo that is set without a computation is the one to look at: `order` and `move` note that the
result is in canonical order. For `order` that is `isCanonical_canonicalOrder`, which holds of lists
of any kind.
-/
import FormProgram.Program.Basic
import FormProgram.Proofs.Subtree

set_option autoImplicit false

namespace FormProgram.Program

/-- What the memos say is so. -/
structure Truthful (p : Program) : Prop where
  ordered : ∀ b, p.memo.ordered = some b → b = isCanonical p.blocks
  questionIds : ∀ l, p.memo.questionIds = some l → l = p.questionIds

variable {p : Program}

namespace Truthful

theorem isOrdered (h : p.Truthful) : p.isOrdered = isCanonical p.blocks := by
  rw [Program.isOrdered]
  cases hm : p.memo.ordered with
  | none => rfl
  | some b => exact h.ordered b hm

theorem usedQuestions (h : p.Truthful) : p.usedQuestions = p.questionIds := by
  rw [Program.usedQuestions]
  cases hm : p.memo.questionIds with
  | none => rfl
  | some l => exact h.questionIds l hm

theorem hasQuestion (h : p.Truthful) (q : QuestionId) : p.hasQuestion q = true ↔ q ∈ p.questionIds := by
  rw [Program.hasQuestion, h.usedQuestions, List.contains_iff_mem]

theorem build (d : Draft) : d.build.Truthful := ⟨nofun, nofun⟩

theorem withBlocks (blocks : List Block) : (p.withBlocks blocks).Truthful := build _

theorem withOrderedBlocks {blocks : List Block} (h : isCanonical blocks = true) :
    (p.withOrderedBlocks blocks).Truthful := by
  refine ⟨fun b hb => ?_, nofun⟩
  cases hb
  exact h.symm

theorem noteOrdered (h : p.Truthful) : p.noteOrdered.Truthful := by
  refine ⟨fun b hb => ?_, h.questionIds⟩
  cases hb
  exact h.isOrdered

theorem noteQuestions (h : p.Truthful) : p.noteQuestions.Truthful := by
  refine ⟨h.ordered, fun l hl => ?_⟩
  cases hl
  exact h.usedQuestions

theorem order (h : p.Truthful) : p.order.Truthful := by
  rw [Program.order]
  split
  · exact h.noteOrdered
  · exact withOrderedBlocks (isCanonical_canonicalOrder _)

theorem order_blocks (h : p.Truthful) :
    p.order.blocks = if isCanonical p.blocks then p.blocks else canonicalOrder p.blocks := by
  rw [Program.order, h.isOrdered]
  split <;> rfl

theorem isCanonical_order (h : p.Truthful) : isCanonical p.order.blocks = true := by
  rw [h.order_blocks]
  split
  · assumption
  · exact isCanonical_canonicalOrder _

theorem nested_order (h : p.Truthful) : Nested none p.order.blocks :=
  isCanonical_iff_nested.1 h.isCanonical_order

/-- Ordering what is in order changes nothing. -/
theorem order_toDraft (h : p.Truthful) (hc : isCanonical p.blocks = true) : p.order.toDraft = p.toDraft := by
  rw [Program.order, h.isOrdered, if_pos hc]
  rfl

theorem order_blocks_of_canonical (h : p.Truthful) (hc : isCanonical p.blocks = true) : p.order.blocks = p.blocks := by
  rw [h.order_blocks, if_pos hc]

/-- With distinct ids the ordered program has the canonical order of the blocks, also where they are in
order already. -/
theorem order_blocks_of_distinct (h : p.Truthful) (hd : DistinctIds p.blocks) :
    p.order.blocks = canonicalOrder p.blocks := by
  rw [h.order_blocks]
  split
  next hc => exact (canonicalOrder_eq_self (isCanonical_iff_nested.1 hc) hd).symm
  next => rfl

end Truthful

theorem order_details : p.order.details = p.details := by
  rw [order]
  split <;> rfl

end FormProgram.Program
