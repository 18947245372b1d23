/-
Refused moves.

A move is refused when a predicate of the resulting list reads a question collected only later
(`move_refused_iff`). Where the predicates were in order before, it is the move that puts one of them before a
question it reads (`refused_moves`). Where they were not, what was out of order before is held against the move
too, even against one that puts predicates right (`refused_repair`).
-/
import FormProgram.Proofs.Exchange
import FormProgram.Proofs.LateReads
import FormProgram.Proofs.Session

set_option autoImplicit false

namespace FormProgram

variable {l m : List Block} {block : BlockId} {kind : PredicateKind} {q : QuestionId}

/-- A predicate on the block reads a question that is collected only later. -/
def ReadsLate (l : List Block) (block : BlockId) (kind : PredicateKind) (q : QuestionId) : Prop :=
  ∃ v ∈ LateRead.ofBlocks l, v.block = block ∧ v.kind = kind ∧ q ∈ v.missing

/-- In `m` a predicate reads a question too early that it does not read too early in `l`. -/
def NewlyLate (l m : List Block) : Prop := ∃ block kind q, ReadsLate m block kind q ∧ ¬ ReadsLate l block kind q

/-- In `m` as in `l` a predicate reads a question too early. -/
def StillLate (l m : List Block) : Prop := ∃ block kind q, ReadsLate m block kind q ∧ ReadsLate l block kind q

namespace LateRead

theorem exists_missing {v : LateRead} (h : v ∈ ofBlocks l) : ∃ q, q ∈ v.missing := by
  obtain ⟨before, b, after, kind, -, rfl, hq⟩ := mem_ofBlocks_iff.1 h
  exact hq

end LateRead

theorem readsInOrder_eq_false_iff : readsInOrder l = false ↔ ∃ block kind q, ReadsLate l block kind q := by
  rw [readsInOrder, List.isEmpty_eq_false_iff_exists_mem]
  constructor
  · rintro ⟨v, hv⟩
    obtain ⟨q, hq⟩ := LateRead.exists_missing hv
    exact ⟨v.block, v.kind, q, v, hv, rfl, rfl, hq⟩
  · rintro ⟨_, _, _, v, hv, -⟩
    exact ⟨v, hv⟩

theorem readsInOrder_eq_false_iff_late : readsInOrder m = false ↔ NewlyLate l m ∨ StillLate l m := by
  rw [readsInOrder_eq_false_iff]
  constructor
  · rintro ⟨block, kind, q, hm⟩
    by_cases hl : ReadsLate l block kind q
    · exact .inr ⟨block, kind, q, hm, hl⟩
    · exact .inl ⟨block, kind, q, hm, hl⟩
  · rintro (⟨block, kind, q, hm, -⟩ | ⟨block, kind, q, hm, -⟩)
    · exact ⟨block, kind, q, hm⟩
    · exact ⟨block, kind, q, hm⟩

theorem not_stillLate (hl : readsInOrder l = true) : ¬ StillLate l m := by
  rintro ⟨block, kind, q, -, h⟩
  have hlate := readsInOrder_eq_false_iff.2 ⟨block, kind, q, h⟩
  rw [hl] at hlate
  cases hlate

namespace Program.Truthful

variable {p : Program} {id : BlockId} {d : Direction} (h : p.Truthful) (hf : Formed p.blocks)
include h hf

theorem move_missing_iff : p.move id d = .error (.blockNotFound p.id id) ↔ ∀ b ∈ p.blocks, b.id ≠ id := by
  rw [← h.missing_order_iff hf, ← moveBlock_eq_missing_iff (d := d) (h.distinct_order hf), Program.move]
  cases moveBlock p.order.blocks id d with
  | error e => cases e <;> simp [ProgramError.ofEdit]
  | ok outcome =>
    cases outcome with
    | atBoundary => simp
    | moved m =>
      dsimp only
      split <;> simp

omit hf in
theorem move_refused_iff_of_distinct (hd : DistinctIds p.order.blocks) :
    p.move id d = .error (.illegalPredicateOrdering id d) ↔
      ∃ x m, x.id = id ∧ Swapped p.order.blocks x d m ∧ FormProgram.readsInOrder m = false := by
  have hn := h.nested_order
  constructor
  · intro hm
    rw [Program.move] at hm
    split at hm
    next e _ => cases e <;> cases hm
    next => cases hm
    next m hmoved =>
      obtain ⟨x, hx, hs⟩ := (moveBlock_eq_moved_iff hn hd).1 hmoved
      split at hm
      next => cases hm
      next hlate => exact ⟨x, m, hx, hs, Bool.eq_false_iff.2 hlate⟩
  · rintro ⟨x, m, rfl, hs, hlate⟩
    rw [Program.move, hs.moveBlock hn hd]
    exact if_neg (Bool.eq_false_iff.1 hlate)

/-- **Which moves are refused**: those after which some predicate reads a question collected only later. -/
theorem move_refused_iff :
    p.move id d = .error (.illegalPredicateOrdering id d) ↔
      ∃ x m, x.id = id ∧ Swapped p.order.blocks x d m ∧ FormProgram.readsInOrder m = false :=
  h.move_refused_iff_of_distinct (h.distinct_order hf)

end Program.Truthful

/-- **What a refused move tells.** In a program without defects a move is refused exactly when the block has a neighbour
in the direction and, with the two exchanged, some predicate reads a question too early, be that new or as it was
before. If the predicates were in order before, it is new. -/
theorem refused_moves (events : List Event) (p : Program) (hp : p ∈ live events) (h : p.defects = []) (id : BlockId)
    (d : Direction) :
    (∀ block d', p.move id d = .error (.illegalPredicateOrdering block d') → block = id ∧ d' = d) ∧
    (p.move id d = .error (.illegalPredicateOrdering id d) ↔
      ∃ x m, x.id = id ∧ Swapped p.order.blocks x d m ∧
        (NewlyLate p.order.blocks m ∨ StillLate p.order.blocks m)) ∧
    (p.readsInOrder = true → (p.move id d = .error (.illegalPredicateOrdering id d) ↔
      ∃ x m, x.id = id ∧ Swapped p.order.blocks x d m ∧ NewlyLate p.order.blocks m)) := by
  have ht := live_truthful events p hp
  have hf := Program.formed_of_defects h
  have hrefused : p.move id d = .error (.illegalPredicateOrdering id d) ↔
      ∃ x m, x.id = id ∧ Swapped p.order.blocks x d m ∧
        (NewlyLate p.order.blocks m ∨ StillLate p.order.blocks m) := by
    simp only [ht.move_refused_iff hf, readsInOrder_eq_false_iff_late (l := p.order.blocks)]
  refine ⟨fun block d' hm => ?_, hrefused, fun hr => ?_⟩
  · rcases ht.move_error hf hm with he | he
    · cases he
    · cases he
      exact ⟨rfl, rfl⟩
  · simpa only [not_stillLate hr, or_false] using hrefused

/-- Two questions far too late: the conditions of the first two blocks read what the last two collect, the second
what is collected right behind it. -/
def crossed : List Block :=
  let shownBy (q : QuestionId) : Predicate :=
    { root := .leaf { question := q, scalar := "text", operator := .equal, value := ⟨.string "yes", trivial⟩ }
      action := .showBlock }
  let asking (q : QuestionId) : Usage := { question := { id := q, name := "answer", type := .text } }
  [{ id := 1, name := "benefits", visibility := some (shownBy 8) },
    { id := 2, name := "income", visibility := some (shownBy 9) },
    { id := 3, name := "job", questions := [asking 9] },
    { id := 4, name := "housing", questions := [asking 8] }]

/-- With the job asked for before the income, the income cannot be moved up. -/
theorem refused_moves_job_first :
    let p := Draft.build { blocks := [crossed[2], crossed[1]] }
    p.defects = [] ∧ p.readsInOrder = true ∧ p.move 2 .up = .error (.illegalPredicateOrdering 2 .up) ∧
      ∃ x m, x.id = 2 ∧ Swapped p.order.blocks x .up m ∧ NewlyLate p.order.blocks m := by
  intro p
  have hp : p ∈ live [.build p.toDraft] := List.mem_singleton.2 rfl
  have hdefects : p.defects = [] := by decide +kernel
  have hreads : p.readsInOrder = true := by decide +kernel
  have hc : isCanonical p.blocks = true := by decide
  have hblocks : p.order.blocks = p.blocks := congrArg Draft.blocks ((Program.Truthful.build _).order_toDraft hc)
  have hmove : p.move 2 .up = .error (.illegalPredicateOrdering 2 .up) := by
    rw [Program.move, hblocks]
    rfl
  obtain ⟨-, -, hharm⟩ := refused_moves _ p hp hdefects 2 .up
  exact ⟨hdefects, hreads, hmove, (hharm hreads).1 hmove⟩

/-- A move that puts the condition of the second block right, and none wrong, is refused for the condition of the
first, which it does not touch. -/
theorem refused_repair :
    let p := Draft.build { blocks := crossed }
    p.defects = [] ∧ p.move 3 .up = .error (.illegalPredicateOrdering 3 .up) ∧
      ∀ x m, x.id = 3 → Swapped p.order.blocks x .up m →
        m.map (·.id) = [1, 3, 2, 4] ∧ ¬ NewlyLate p.order.blocks m ∧
          ReadsLate p.order.blocks 2 .visibility 9 ∧ ¬ ReadsLate m 2 .visibility 9 := by
  intro p
  have ht : p.Truthful := .build _
  have hdefects : p.defects = [] := by decide +kernel
  have hd : DistinctIds crossed := (Program.formed_of_defects hdefects).distinct
  have hc : isCanonical crossed = true := by decide
  have hblocks : p.order.blocks = crossed := congrArg Draft.blocks (ht.order_toDraft hc)
  have hmoved : moveBlock crossed 3 .up = .ok (.moved [crossed[0], crossed[2], crossed[1], crossed[3]]) := rfl
  have hbefore : LateRead.ofBlocks crossed = [⟨1, .visibility, .ofList [8]⟩, ⟨2, .visibility, .ofList [9]⟩] := by
    decide +kernel
  have hafter : LateRead.ofBlocks [crossed[0], crossed[2], crossed[1], crossed[3]] =
      [⟨1, .visibility, .ofList [8]⟩] := by
    decide +kernel
  rw [hblocks]
  refine ⟨hdefects, ?_, fun x m hx hs => ?_⟩
  · rw [Program.move, hblocks, hmoved]
    refine if_neg ?_
    rw [readsInOrder, hafter]
    decide
  · rw [← hx, hs.moveBlock (isCanonical_iff_nested.1 hc) hd] at hmoved
    cases hmoved
    refine ⟨rfl, ?_, ⟨⟨2, .visibility, .ofList [9]⟩, ?_, rfl, rfl, by decide⟩, ?_⟩
    · rintro ⟨block, kind, q, ⟨v, hv, hread⟩, hnew⟩
      rw [hafter] at hv
      refine hnew ⟨v, ?_, hread⟩
      rw [hbefore]
      exact List.mem_cons.2 (.inl (List.mem_singleton.1 hv))
    · rw [hbefore]
      exact List.mem_cons_of_mem _ List.mem_cons_self
    · rintro ⟨v, hv, hblock, -⟩
      rw [hafter, List.mem_singleton] at hv
      rw [hv] at hblock
      revert hblock
      decide

end FormProgram
