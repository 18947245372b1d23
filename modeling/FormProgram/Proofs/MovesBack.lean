/-
Moves taken back: the opposite move of the same block restores the list, and a move of a block past its
neighbour is the opposite move of the neighbour.

In a program the opposite move could still be refused for a predicate. It is not when the predicates were in
order to begin with, for it leads back to the blocks as they were (`Truthful.move_back`).
-/
import FormProgram.Proofs.Exchange
import FormProgram.Proofs.Session

set_option autoImplicit false

namespace FormProgram

variable {l m : List Block} {x y : Block} {d : Direction} {id : BlockId}

theorem Moved.moveBlock (h : Moved l id d (.moved m)) (hn : Nested none l) (hd : DistinctIds l) :
    FormProgram.moveBlock l id d = .ok (.moved m) := (moveBlock_eq_moved_iff hn hd).2 (h.swapped hd)

theorem Neighbors.exchange_list {before earlier below below' later after : List Block}
    (n : Neighbors l before earlier x below y below' later after) :
    before ++ (earlier ++ (x :: below) ++ (y :: below') ++ later) ++ after = l := by
  rw [n.first.list]
  simp [List.append_assoc]

theorem Moved.back (h : Moved l id d (.moved m)) : Moved m id d.opposite (.moved l) := by
  cases h with
  | down n hid =>
    have hback := Moved.up n.exchange hid
    rwa [n.exchange_list] at hback
  | up n hid =>
    have hback := Moved.down n.exchange hid
    rwa [n.exchange_list] at hback

theorem moveBlock_back (hn : Nested none l) (hd : DistinctIds l) (h : moveBlock l id d = .ok (.moved m)) :
    moveBlock m id d.opposite = .ok (.moved l) := by
  have hmoved := Moved.of_moveBlock hn hd h
  obtain ⟨hperm, hnested⟩ := hmoved.kept
  have hd' : DistinctIds m := (DistinctIds.perm hperm).2 hd
  exact hmoved.back.moveBlock hnested hd'

/-- Moving a block up past its neighbour is moving the neighbour down past the block. -/
theorem Precedes.moveBlock_eq (h : Precedes l y x) (hn : Nested none l) (hd : DistinctIds l) :
    moveBlock l x.id .up = moveBlock l y.id .down := by
  obtain ⟨before, earlier, below, below', later, after, n⟩ := h.neighbors hn hd
  rw [n.move_up hd, n.move_down hd]

namespace Program

variable {p q : Program}

theorem beq_of_toDraft (h : p.toDraft = q.toDraft) : (p == q) = true :=
  beq_iff.2 ⟨congrArg Draft.details h, congrArg Draft.blocks h ▸ Alike.refl p.blocks⟩

/-- A move that changes something can be taken back, when no predicate was out of order before it: the opposite
move leads to the ordered program, whose predicates are the same. -/
theorem Truthful.move_back (h : p.Truthful) (hf : Formed p.blocks) (hr : p.readsInOrder = true)
    (hm : p.move id d = .ok q) (hne : (q == p.order) = false) :
    ∃ r, q.move id d.opposite = .ok r ∧ r.toDraft = p.order.toDraft := by
  rcases h.move_ok hm with rfl | ⟨blocks, hmoved, -, rfl⟩
  · rw [beq_of_toDraft rfl] at hne
    cases hne
  · have hc : isCanonical blocks = true := isCanonical_iff_nested.2 hmoved.kept.2
    have ht : (p.withOrderedBlocks blocks).Truthful := .withOrderedBlocks hc
    have hblocks : (p.withOrderedBlocks blocks).order.blocks = blocks := congrArg Draft.blocks (ht.order_toDraft hc)
    have hn := h.nested_order
    have hd := h.distinct_order hf
    have hback := moveBlock_back hn hd (hmoved.moveBlock hn hd)
    have hreads : FormProgram.readsInOrder p.order.blocks = true := hr
    have hdetails : p.order.details = p.details := order_details
    refine ⟨(p.withOrderedBlocks blocks).withOrderedBlocks p.order.blocks, ?_, ?_⟩
    · rw [Program.move, hblocks, hback]
      exact if_pos hreads
    · calc ((p.withOrderedBlocks blocks).withOrderedBlocks p.order.blocks).toDraft
          = ⟨p.details, p.order.blocks⟩ := rfl
        _ = p.order.toDraft := by rw [← hdetails]

end Program

/-- **Moves are taken back by moves.** In a canonical list the opposite move of the block restores the list, and
moving it up past a sibling is moving the sibling down past it. In a program without defects whose predicates are in
order, a move that changes something is undone by the opposite move, which is never refused. -/
theorem moves_are_taken_back :
    (∀ l : List Block, isCanonical l = true → DistinctIds l →
      (∀ id d m, moveBlock l id d = .ok (.moved m) → moveBlock m id d.opposite = .ok (.moved l)) ∧
      ∀ x y, Precedes l y x → moveBlock l x.id .up = moveBlock l y.id .down) ∧
    ∀ (events : List Event) (p : Program), p ∈ live events → p.defects = [] → p.readsInOrder = true →
      ∀ id d q, p.move id d = .ok q → (q == p.order) = false →
        ∃ r, q.move id d.opposite = .ok r ∧ r.toDraft = p.order.toDraft ∧ (r == p.order) = true := by
  constructor
  · intro l hc hd
    have hn := isCanonical_iff_nested.1 hc
    exact ⟨fun id d m h => moveBlock_back hn hd h, fun x y h => h.moveBlock_eq hn hd⟩
  · intro events p hp hdefects hr id d q hm hne
    obtain ⟨r, hback, hsame⟩ :=
      (live_truthful events p hp).move_back (Program.formed_of_defects hdefects) hr hm hne
    exact ⟨r, hback, hsame, Program.beq_of_toDraft hsame⟩

/-- The household form, stored with its repeated blocks in front: its summary goes up past the members and all that
repeats under them, and down again; and the list of the members goes down past the summary by the same move. -/
theorem moves_are_taken_back_household :
    let start : Draft := { blocks := [household[3], household[2], household[0], household[1], household[4]] }
    (∃ m, moveBlock household 5 .up = .ok (.moved m) ∧ moveBlock m 5 .down = .ok (.moved household)) ∧
      moveBlock household 5 .up = moveBlock household 2 .down ∧
      ∃ q r, start.build.move 5 .up = .ok q ∧ (q == start.build.order) = false ∧ q.move 5 .down = .ok r ∧
        r.blocks.map (·.id) = [1, 2, 3, 4, 5] ∧ (r == start.build.order) = true := by
  intro start
  have hc : isCanonical household = true := by decide
  have hd : DistinctIds household := by decide
  have hup : moveBlock household 5 .up =
      .ok (.moved [household[0], household[4], household[1], household[2], household[3]]) := rfl
  have hgroup : Precedes household household[1] household[4] := ⟨[household[0]], [], rfl⟩
  obtain ⟨hlists, hprograms⟩ := moves_are_taken_back
  obtain ⟨hback, hsame⟩ := hlists household hc hd
  refine ⟨⟨_, hup, hback 5 .up _ hup⟩, hsame _ _ hgroup, ?_⟩
  have hp : start.build ∈ live [.build start] := List.mem_singleton.2 rfl
  have hdefects : start.build.defects = [] := by decide +kernel
  have hreads : start.build.readsInOrder = true := by decide +kernel
  have hchanged : (start.build.move 5 .up).toOption.map (· == start.build.order) = some false := by decide +kernel
  obtain ⟨q, hkept, hne⟩ := Option.map_eq_some_iff.1 hchanged
  have hq := ok_of_toOption hkept
  obtain ⟨r, hr, hcontent, hequal⟩ := hprograms _ _ hp hdefects hreads 5 .up q hq hne
  refine ⟨q, r, hq, hne, hr, ?_, hequal⟩
  rw [hcontent]
  decide +kernel

end FormProgram
