/-
Programs that are equal, memos aside, and whose memos say only what is so: every operation gives the same
answer for both, or the same refusal (`Program.Truthful.agree`).
-/
import FormProgram.Program.Defect
import FormProgram.Proofs.Congruence
import FormProgram.Proofs.Memo

set_option autoImplicit false

namespace FormProgram

/-- What can be done to a program. -/
inductive Edit where
  | order
  | move (id : BlockId) (d : Direction)
  | insert (b : Block)

namespace Program

def edit (p : Program) : Edit → Except ProgramError Program
  | .order => .ok p.order
  | .move id d => p.move id d
  | .insert b => p.insert b

/-- Nothing that can be asked of the two programs or done to them tells them apart. Where an answer holds
blocks or a program, it is an equal one. -/
structure Agree (p q : Program) : Prop where
  edit : ∀ e, SameResult (fun p q : Program => (p == q) = true) (p.edit e) (q.edit e)
  details : p.details = q.details
  isOrdered : p.isOrdered = q.isOrdered
  slice : ∀ id, p.slice id = q.slice id
  sliceReport : ∀ id, p.sliceReport id = q.sliceReport id
  lateReads : p.lateReads = q.lateReads
  readsInOrder : p.readsInOrder = q.readsInOrder
  available : ∀ kind id, p.available kind id = q.available kind id
  availableThrough : ∀ id, p.availableThrough id = q.availableThrough id
  isReadByPredicate : ∀ id, p.isReadByPredicate id = q.isReadByPredicate id
  hasEligibility : p.hasEligibility = q.hasEligibility
  blocks : (p.blocks == q.blocks) = true
  block : ∀ id, SameResult (fun b c : Block => (b == c) = true) (p.block id) (q.block id)
  blockByPath : ∀ path, SameResult (fun b c : Block => (b == c) = true) (p.blockByPath path) (q.blockByPath path)
  blockAt : ∀ i : Nat, (p.blocks[i]? == q.blocks[i]?) = true
  lastBlock : SameResult (fun b c : Block => (b == c) = true) p.lastBlock q.lastBlock
  blocksUnder : ∀ e, (p.blocksUnder e == q.blocksUnder e) = true
  topLevelBlocks : (p.topLevelBlocks == q.topLevelBlocks) = true
  blockCount : p.blocks.length = q.blocks.length
  maxBlockId : p.maxBlockId = q.maxBlockId
  hasEnumerator : ∀ id, p.hasEnumerator id = q.hasEnumerator id
  questions : p.questions = q.questions
  questionIds : p.questionIds = q.questionIds
  hasQuestion : ∀ id, p.hasQuestion id = q.hasQuestion id
  questionCount : p.questionCount = q.questionCount
  usage : ∀ id, p.usage id = q.usage id
  questionAt : ∀ i j, p.questionAt i j = q.questionAt i j
  taggedQuestions : p.taggedQuestions = q.taggedQuestions
  supportedLocales : p.supportedLocales = q.supportedLocales
  slug : p.slug = q.slug
  isCommonIntakeForm : p.isCommonIntakeForm = q.isCommonIntakeForm
  defects : p.defects = q.defects
  report : p.report = q.report

variable {p q : Program}

theorem beq_iff : (p == q) = true ↔ p.details = q.details ∧ Alike p.blocks q.blocks := by
  change (p.toDraft == q.toDraft) = true ↔ _
  obtain ⟨⟨details, blocks⟩, -⟩ := p
  obtain ⟨⟨details', blocks'⟩, -⟩ := q
  change instBEqDraft.beq _ _ = true ↔ _
  simp only [instBEqDraft.beq, Bool.and_eq_true, beq_iff_eq, beq_iff_alike]

end Program

theorem Alike.defectsOfIds {xs ys : List Block} (h : Alike xs ys) (seen : List BlockId) :
    Defect.ofIds seen xs = Defect.ofIds seen ys := by
  induction h generalizing seen with
  | nil => rfl
  | cons hbc _ ih => rw [Defect.ofIds, Defect.ofIds, (Block.like_of_beq hbc).id, ih]

namespace Program

variable {p q : Program}

section
variable (hd : p.details = q.details) (hb : Alike p.blocks q.blocks)
include hb

theorem usages_eq : p.blocks.flatMap (·.questions) = q.blocks.flatMap (·.questions) :=
  hb.flatMap_eq fun _ _ l => l.questions

theorem questions_eq : p.questions = q.questions :=
  hb.flatMap_eq fun _ _ l => by rw [l.questions]

theorem questionIds_eq : p.questionIds = q.questionIds :=
  hb.flatMap_eq fun _ _ => Block.Like.questionIds

theorem hasEnumerator_eq (id : BlockId) : p.hasEnumerator id = q.hasEnumerator id :=
  hb.any_eq fun _ _ l => by rw [l.id, l.isEnumerator]

theorem maxBlockId_eq : p.maxBlockId = q.maxBlockId := by
  have hm := congrArg (List.foldl max 0) (hb.map_eq fun _ _ l => l.id)
  rw [List.foldl_map, List.foldl_map] at hm
  exact hm

theorem questionAt_eq (i j : Nat) : p.questionAt i j = q.questionAt i j := by
  have hm := congrArg (·.bind fun us => us[j]?.bind fun u => some u.question)
    (hb.map_getElem? i fun _ _ l => l.questions)
  simpa [questionAt, Option.bind_map, Function.comp_def] using hm

theorem isReadByPredicate_eq (id : QuestionId) : p.isReadByPredicate id = q.isReadByPredicate id :=
  hb.any_eq fun _ _ l => by rw [l.predicateQuestions]

theorem taggedQuestions_eq : p.taggedQuestions = q.taggedQuestions := by
  rw [taggedQuestions, taggedQuestions, questions_eq hb]

theorem enumeratorDefects_eq : p.enumeratorDefects = q.enumeratorDefects :=
  hb.filterMap_eq fun b c l => by simp only [l.enumerator, l.id, hasEnumerator_eq hb]

theorem cycleDefects_eq : p.cycleDefects = q.cycleDefects := by
  rw [cycleDefects, cycleDefects, hb.forest]
  exact (hb.pick _).map_eq fun _ _ l => by rw [l.id]

theorem structureDefects_eq : p.structureDefects = q.structureDefects := by
  simp only [structureDefects, hb.defectsOfIds, enumeratorDefects_eq hb, cycleDefects_eq hb]

theorem questionDefects_eq (h : ∀ id, p.hasQuestion id = q.hasQuestion id) :
    p.questionDefects = q.questionDefects :=
  hb.flatMap_eq fun b c l => by simp only [l.id, l.predicateQuestions, h]

end

section
variable (hd : p.details = q.details)
include hd

theorem id_eq : p.id = q.id := congrArg Details.id hd

theorem found_eq {α : Type} (id : BlockId) (o : Option α) : p.found id o = q.found id o := by
  cases o with
  | some a => rfl
  | none => rw [found, found, id_eq hd]

variable (hb : Alike p.blocks q.blocks)
include hb

theorem block_same (id : BlockId) : SameResult (fun b c : Block => (b == c) = true) (p.block id) (q.block id) := by
  have hid : ∀ b c : Block, b.Like c → (b.id == id) = (c.id == id) := fun _ _ l => by rw [l.id]
  have h := hb.find? hid
  rw [block, block, id_eq hd]
  generalize p.blocks.find? _ = o, q.blocks.find? _ = o' at h
  cases h with
  | none => exact .error _
  | some hbc => exact .ok hbc

theorem blockByPath_same (path : String) :
    SameResult (fun b c : Block => (b == c) = true) (p.blockByPath path) (q.blockByPath path) := by
  rw [blockByPath, blockByPath]
  split
  · exact block_same hd hb _
  · exact .error _

theorem lastBlock_same : SameResult (fun b c : Block => (b == c) = true) p.lastBlock q.lastBlock := by
  have h := hb.getElem? (q.blocks.length - 1)
  rw [lastBlock, lastBlock, id_eq hd, List.getLast?_eq_getElem?, List.getLast?_eq_getElem?, hb.length_eq]
  generalize p.blocks[q.blocks.length - 1]? = o, q.blocks[q.blocks.length - 1]? = o' at h
  cases h with
  | none => exact .error _
  | some hbc => exact .ok hbc

theorem usage_eq (id : QuestionId) : p.usage id = q.usage id := by
  rw [usage, usage, usages_eq hb, id_eq hd]

theorem supportedLocales_eq : p.supportedLocales = q.supportedLocales := by
  rw [supportedLocales, supportedLocales, questions_eq hb, hd]

theorem availableForEligibility_eq (id : BlockId) :
    p.availableForEligibility id = q.availableForEligibility id := by
  have h := block_same hd hb id
  rw [availableForEligibility, availableForEligibility]
  generalize p.block id = r, q.block id = r' at h
  cases h with
  | error e => rfl
  | ok hbc => exact congrArg Except.ok (Block.like_of_beq hbc).readableQuestions

end

namespace Truthful

variable (hp : p.Truthful) (hq : q.Truthful) (hd : p.details = q.details) (hb : Alike p.blocks q.blocks)
include hp hq hb

theorem isOrdered_eq : p.isOrdered = q.isOrdered := by
  rw [hp.isOrdered, hq.isOrdered, hb.isCanonical]

theorem hasQuestion_eq (id : QuestionId) : p.hasQuestion id = q.hasQuestion id := by
  rw [Program.hasQuestion, Program.hasQuestion, hp.usedQuestions, hq.usedQuestions, questionIds_eq hb]

theorem order_alike : Alike p.order.blocks q.order.blocks := by
  rw [hp.order_blocks, hq.order_blocks, hb.isCanonical]
  split
  · exact hb
  · exact hb.canonicalOrder

include hd

theorem order_beq : (p.order == q.order) = true := by
  refine beq_iff.2 ⟨?_, hp.order_alike hq hb⟩
  rw [order_details, order_details, hd]

theorem slice_eq (id : BlockId) : p.slice id = q.slice id := by
  rw [slice, slice, (hp.order_alike hq hb).blockSlice, found_eq hd]

theorem sliceReport_eq (id : BlockId) : p.sliceReport id = q.sliceReport id := by
  have hids : ∀ s : Slice, (s.extract p.order.blocks).map (·.id) = (s.extract q.order.blocks).map (·.id) :=
    fun s => ((hp.order_alike hq hb).extract s).map_eq fun _ _ l => l.id
  simp only [sliceReport, hp.slice_eq hq hd hb, hids]

theorem availableThrough_eq (id : BlockId) : p.availableThrough id = q.availableThrough id := by
  rw [Program.availableThrough, Program.availableThrough, (hp.order_alike hq hb).availableThrough, found_eq hd]

theorem available_eq (kind : PredicateKind) (id : BlockId) : p.available kind id = q.available kind id := by
  cases kind with
  | eligibility => exact availableForEligibility_eq hd hb id
  | visibility =>
    rw [available, available, Program.availableForVisibility, Program.availableForVisibility,
      (hp.order_alike hq hb).availableForVisibility, found_eq hd]

theorem defects_eq : p.defects = q.defects := by
  have hquestions : p.noteQuestions.questionDefects = q.noteQuestions.questionDefects :=
    questionDefects_eq hb (hp.noteQuestions.hasQuestion_eq hq.noteQuestions hb)
  rw [defects, defects, hb.isEmpty, id_eq hd, structureDefects_eq hb, hquestions]

theorem report_eq : p.report = q.report := by
  rw [report, report, id_eq hd, hb.length_eq, hp.isOrdered_eq hq hb, lateReads, lateReads,
    (hp.order_alike hq hb).lateReads]

theorem move_same (id : BlockId) (d : Direction) :
    SameResult (fun p q : Program => (p == q) = true) (p.move id d) (q.move id d) := by
  have h := (hp.order_alike hq hb).moveBlock id d
  rw [move, move, id_eq hd]
  generalize moveBlock p.order.blocks id d = r, moveBlock q.order.blocks id d = r' at h
  cases h with
  | error e => exact .error _
  | ok hm =>
    cases hm with
    | atBoundary => exact .ok (hp.order_beq hq hd hb)
    | moved ha =>
      dsimp only
      rw [ha.readsInOrder]
      split
      · exact .ok (beq_iff.2 ⟨hd, ha⟩)
      · exact .error _

theorem insert_same (b : Block) :
    SameResult (fun p q : Program => (p == q) = true) (p.insert b) (q.insert b) := by
  have h := (hp.order_alike hq hb).insertBlock b
  rw [insert, insert, id_eq hd]
  generalize insertBlock p.order.blocks b = r, insertBlock q.order.blocks b = r' at h
  cases h with
  | error e => exact .error _
  | ok ha =>
    refine .ok (beq_iff.2 ⟨?_, ha⟩)
    exact (order_details.trans hd).trans order_details.symm

/-- **Equal programs cannot be told apart**, whatever their memos hold, as long as it is so. -/
theorem agree : p.Agree q where
  edit
    | .order => .ok (hp.order_beq hq hd hb)
    | .move id d => hp.move_same hq hd hb id d
    | .insert b => hp.insert_same hq hd hb b
  details := hd
  isOrdered := hp.isOrdered_eq hq hb
  slice := hp.slice_eq hq hd hb
  sliceReport := hp.sliceReport_eq hq hd hb
  lateReads := (hp.order_alike hq hb).lateReads
  readsInOrder := (hp.order_alike hq hb).readsInOrder
  available := hp.available_eq hq hd hb
  availableThrough := hp.availableThrough_eq hq hd hb
  isReadByPredicate := isReadByPredicate_eq hb
  hasEligibility := hb.any_eq fun _ _ => Block.Like.isEligibility
  blocks := beq_iff_alike.2 hb
  block := block_same hd hb
  blockByPath := blockByPath_same hd hb
  blockAt := hb.beq_getElem?
  lastBlock := lastBlock_same hd hb
  blocksUnder e := beq_iff_alike.2 (hb.filter fun _ _ l => by rw [l.enumerator])
  topLevelBlocks := beq_iff_alike.2 (hb.filter fun _ _ l => by rw [l.isRepeated])
  blockCount := hb.length_eq
  maxBlockId := maxBlockId_eq hb
  hasEnumerator := hasEnumerator_eq hb
  questions := questions_eq hb
  questionIds := questionIds_eq hb
  hasQuestion := hp.hasQuestion_eq hq hb
  questionCount := congrArg List.length (usages_eq hb)
  usage := usage_eq hd hb
  questionAt := questionAt_eq hb
  taggedQuestions := taggedQuestions_eq hb
  supportedLocales := supportedLocales_eq hd hb
  slug := by rw [slug, slug, hd]
  isCommonIntakeForm := by rw [isCommonIntakeForm, isCommonIntakeForm, hd]
  defects := hp.defects_eq hq hd hb
  report := hp.report_eq hq hd hb

end Truthful

end Program

end FormProgram
