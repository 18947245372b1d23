/-
What the check for defects lets through, told without the forest that it builds: the enumerator ids are followed from
block to block (`follow`), and the questions are those at the leaves of the predicates.

The check looks for circles only where every enumerator that is named is there and ids are distinct. Then an id is the
id of one block, so following the ids goes the way of the forest, and it ends just where the block is reached from the
top level (`grounded_iff_follow`).
-/
import FormProgram.Proofs.Availability
import FormProgram.Proofs.Instances
import FormProgram.Proofs.ReadPlaces
import FormProgram.Proofs.Sound

set_option autoImplicit false

namespace FormProgram

/-- The block that a block names as its enumerator: the first of that id. -/
def named? (blocks : List Block) (b : Block) : Option Block :=
  b.enumerator.bind fun e => blocks.find? (·.id == e)

/-- The block to which that many enumerator ids lead, one after the other. -/
def follow (blocks : List Block) : Nat → Block → Option Block
  | 0, b => some b
  | n + 1, b => (named? blocks b).bind (follow blocks n)

variable {blocks : List Block} {b c : Block}

theorem named?_eq_some (hd : DistinctIds blocks) :
    named? blocks b = some c ↔ c ∈ blocks ∧ b.enumerator = some c.id := by
  rw [named?, Option.bind_eq_some_iff]
  constructor
  · rintro ⟨e, he, hc⟩
    have hid : c.id = e := by simpa using List.find?_some hc
    exact ⟨List.mem_of_find?_eq_some hc, hid ▸ he⟩
  · rintro ⟨hc, he⟩
    refine ⟨c.id, he, ?_⟩
    cases hfind : blocks.find? (·.id == c.id) with
    | none => simpa using List.find?_eq_none.1 hfind c hc
    | some d =>
      have hid : d.id = c.id := by simpa using List.find?_some hfind
      rw [hd.eq_of_id (List.mem_of_find?_eq_some hfind) hc hid]

/-- **Following the ids ends at the top level** exactly for the blocks that are grounded, when the blocks that are named
are enumerators of the list. -/
theorem grounded_iff_follow (hd : DistinctIds blocks)
    (hnamed : ∀ b ∈ blocks, ∀ e, b.enumerator = some e → ∃ c ∈ blocks, c.id = e ∧ c.isEnumerator = true)
    (hb : b ∈ blocks) : Grounded blocks b ↔ ∃ n c, follow blocks n b = some c ∧ c.enumerator = none := by
  constructor
  · intro h
    clear hb
    induction h with
    | @top b he => exact ⟨0, b, rfl, he⟩
    | @under b c hc _ he _ ih =>
      obtain ⟨n, d, hn, htop⟩ := ih
      refine ⟨n + 1, d, ?_, htop⟩
      rw [follow, (named?_eq_some hd).2 ⟨hc, he⟩, Option.bind_some, hn]
  · rintro ⟨n, d, hn, htop⟩
    induction n generalizing b with
    | zero =>
      cases hn
      exact .top htop
    | succ n ih =>
      obtain ⟨c, hc, hn⟩ := Option.bind_eq_some_iff.1 hn
      obtain ⟨hmem, he⟩ := (named?_eq_some hd).1 hc
      obtain ⟨c', hmem', hid, hen⟩ := hnamed b hb c.id he
      rw [hd.eq_of_id hmem' hmem hid] at hen
      exact .under hmem hen he (ih hmem hn)

theorem Block.mem_predicateQuestions {q : QuestionId} : q ∈ b.predicateQuestions ↔ ∃ kind, b.Compares kind q := by
  have hkinds : q ∈ b.predicateQuestions ↔ q ∈ b.reads .visibility ∨ q ∈ b.reads .eligibility := by
    rw [Block.predicateQuestions, Block.reads, Block.reads, Block.predicate, Block.predicate]
    cases b.visibility <;> cases b.eligibility <;> simp
  rw [hkinds, Block.mem_reads_iff, Block.mem_reads_iff]
  constructor
  · intro h
    rcases h with h | h
    · exact ⟨.visibility, h⟩
    · exact ⟨.eligibility, h⟩
  · rintro ⟨kind, h⟩
    cases kind with
    | visibility => exact .inl h
    | eligibility => exact .inr h

/-- **The check for defects is exact.** It finds nothing in a program, whatever its memos, if and only if there is a
block, ids are positive and distinct, each enumerator id that is named is that of another block that is an enumerator,
following these ids from any block leads to the top level, and all that the predicates read at their leaves is used by
some block. -/
theorem no_defects_iff (events : List Event) (p : Program) (hp : p ∈ live events) :
    p.defects = [] ↔
      p.blocks ≠ [] ∧ (∀ b ∈ p.blocks, 0 < b.id) ∧ DistinctIds p.blocks ∧
      (∀ b ∈ p.blocks, ∀ e, b.enumerator = some e → e ≠ b.id ∧ ∃ c ∈ p.blocks, c.id = e ∧ c.isEnumerator = true) ∧
      (∀ b ∈ p.blocks, ∃ n c, follow p.blocks n b = some c ∧ c.enumerator = none) ∧
      ∀ b ∈ p.blocks, ∀ kind q, b.Compares kind q → ∃ c ∈ p.blocks, q ∈ c.questionIds := by
  have hpositive : ∀ b : Block, b.id ≠ 0 ↔ 0 < b.id := fun b => UInt64.pos_iff_ne_zero.symm
  rw [Program.defects_eq_nil_iff (live_truthful events p hp)]
  constructor
  · intro h
    have hnamed : ∀ b ∈ p.blocks, ∀ e, b.enumerator = some e → ∃ c ∈ p.blocks, c.id = e ∧ c.isEnumerator = true :=
      fun b hb e he => (h.named b hb e he).2
    refine ⟨h.nonempty, fun b hb => (hpositive b).1 (h.positive b hb), h.distinct, h.named, fun b hb => ?_,
      fun b hb kind q hq => ?_⟩
    · exact (grounded_iff_follow h.distinct hnamed hb).1 (h.grounded b hb)
    · exact List.mem_flatMap.1 (h.known b hb q (Block.mem_predicateQuestions.2 ⟨kind, hq⟩))
  · rintro ⟨hne, hpos, hd, hnamed, hfollow, hknown⟩
    refine ⟨⟨fun b hb => (hpositive b).2 (hpos b hb), hd, hnamed, fun b hb => ?_⟩, hne, fun b hb q hq => ?_⟩
    · exact (grounded_iff_follow hd (fun b hb e he => (hnamed b hb e he).2) hb).2 (hfollow b hb)
    · obtain ⟨kind, hq⟩ := Block.mem_predicateQuestions.1 hq
      exact List.mem_flatMap.2 (hknown b hb kind q hq)

/-- The check passes the census, so the enumerator of the incomes stands at the top level, and the name that decides
whether they are asked for is one of its questions. -/
theorem no_defects_iff_census :
    let p := Draft.build { blocks := census }
    p.defects = [] ∧ (∃ n c, follow p.blocks n census[1] = some c ∧ c.enumerator = none) ∧
      census[1].Compares .visibility 1 ∧ ∃ c ∈ p.blocks, 1 ∈ c.questionIds := by
  intro p
  have hp : p ∈ live [.build p.toDraft] := List.mem_singleton.2 rfl
  have hdefects : p.defects = [] := by decide +kernel
  have hincome : census[1] ∈ p.blocks := List.mem_of_getElem? (i := 1) rfl
  have hreads : census[1].Compares .visibility 1 := ⟨_, _, rfl, .leaf _, rfl⟩
  obtain ⟨-, -, -, -, hfollow, hknown⟩ := (no_defects_iff _ p hp).1 hdefects
  exact ⟨hdefects, hfollow _ hincome, hreads, hknown _ hincome .visibility 1 hreads⟩

end FormProgram
