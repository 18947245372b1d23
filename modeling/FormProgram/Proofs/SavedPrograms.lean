/-
Saved programs load back. Five stages undo what writing does: the text is read as the document that was
written (`JsonValue.ofText_pretty`), which meets the schema (`Schema.program_toJson`) and has the fields of
the stored form (`StoredProgram.ofTree?_back`); the catalog gives back the questions (`hydrate_ofProgram`), and
the blocks are sound because they are the same (`Sound.map`).

All that reading may change is a double in the value of a leaf (`Block.settle`).
-/
import FormProgram.File.Document
import FormProgram.Proofs.SchemaMet
import FormProgram.Proofs.Session

set_option autoImplicit false

namespace FormProgram

def Block.settle (b : Block) : Block :=
  { b with visibility := b.visibility.map Predicate.settle, eligibility := b.eligibility.map Predicate.settle }

namespace Condition

mutual

theorem reads_settle : ∀ c : Condition, c.settle.reads = c.reads
  | .leaf _ => rfl
  | .all children | .any children => readsOf_settleAll children

theorem readsOf_settleAll : ∀ children : List Condition, readsOf (settleAll children) = readsOf children
  | [] => rfl
  | c :: rest => by rw [settleAll, readsOf, readsOf, reads_settle c, readsOf_settleAll rest]

end

mutual

/-- No leaf compares with a value that has a double in it. -/
def floatFree : Condition → Bool
  | .leaf c => c.value.json.floatFree
  | .all children => floatFreeAll children
  | .any children => floatFreeAll children

def floatFreeAll : List Condition → Bool
  | [] => true
  | c :: rest => floatFree c && floatFreeAll rest

end

mutual

theorem settle_eq_self : ∀ {c : Condition}, c.floatFree = true → c.settle = c
  | .leaf ⟨_, _, _, value⟩, h => by
    have hvalue : value.settle = value := by
      obtain ⟨j, hj⟩ := value
      simp only [JsonValue.settle, Json.settle_eq_self hj h]
    rw [settle, Comparison.settle, hvalue]
  | .all children, h => by rw [settle, settleAll_eq_self h]
  | .any children, h => by rw [settle, settleAll_eq_self h]

theorem settleAll_eq_self :
    ∀ {children : List Condition}, floatFreeAll children = true → settleAll children = children
  | [], _ => rfl
  | c :: rest, h => by
    rw [floatFreeAll, Bool.and_eq_true] at h
    rw [settleAll, settle_eq_self h.1, settleAll_eq_self h.2]

end

end Condition

/-- No leaf of a predicate of the block compares with a value that has a double in it. -/
def Block.floatFree (b : Block) : Bool :=
  b.visibility.all (·.root.floatFree) && b.eligibility.all (·.root.floatFree)

theorem Block.settle_eq_self {b : Block} (h : b.floatFree = true) : b.settle = b := by
  have hmap : ∀ o : Option Predicate, o.all (·.root.floatFree) = true → o.map Predicate.settle = o := by
    intro o ho
    cases o with
    | none => rfl
    | some p => rw [Option.map_some, Predicate.settle, Condition.settle_eq_self ho]
  rw [floatFree, Bool.and_eq_true] at h
  rw [settle, hmap _ h.1, hmap _ h.2]

theorem Block.map_settle_eq_self {blocks : List Block} (h : ∀ b ∈ blocks, b.floatFree = true) :
    blocks.map Block.settle = blocks :=
  (List.map_congr_left fun b hb => Block.settle_eq_self (h b hb)).trans (List.map_id blocks)

theorem reads_map_settle (o : Option Predicate) : reads o = reads (o.map Predicate.settle) := by
  cases o with
  | none => rfl
  | some p =>
    have hquestions : p.settle.questions = p.questions := by
      rw [Predicate.questions, Predicate.questions, Predicate.settle, Condition.reads_settle]
    rw [reads, reads, Option.map_some, Option.map_some, Option.map_some, hquestions]

theorem Block.like_settle (b : Block) : b.Like b.settle where
  id := rfl
  enumerator := rfl
  isEnumerator := rfl
  questions := rfl
  visibility := reads_map_settle b.visibility
  eligibility := reads_map_settle b.eligibility

section Map

variable {f : Block → Block} {blocks : List Block}

theorem Grounded.map (hf : ∀ b : Block, b.Like (f b)) {b : Block} (h : Grounded blocks b) :
    Grounded (blocks.map f) (f b) := by
  induction h with
  | top he => exact .top ((hf _).enumerator ▸ he)
  | @under b c hc hen he _ ih =>
    exact .under (List.mem_map_of_mem hc) ((hf c).isEnumerator ▸ hen)
      (by rw [← (hf b).enumerator, he, (hf c).id]) ih

/-- Soundness is about what is looked at in blocks. -/
theorem Sound.map (hf : ∀ b : Block, b.Like (f b)) (h : Sound blocks) : Sound (blocks.map f) where
  positive := by
    intro b' hb'
    obtain ⟨b, hb, rfl⟩ := List.mem_map.1 hb'
    exact (hf b).id ▸ h.positive b hb
  distinct := by
    have hids : (blocks.map f).map (·.id) = blocks.map (·.id) := by
      rw [List.map_map]
      exact List.map_congr_left fun b _ => (hf b).id.symm
    rw [DistinctIds, hids]
    exact h.distinct
  named := by
    intro b' hb' e he
    obtain ⟨b, hb, rfl⟩ := List.mem_map.1 hb'
    obtain ⟨hne, c, hc, hid, hen⟩ := h.named b hb e ((hf b).enumerator.trans he)
    exact ⟨(hf b).id ▸ hne, f c, List.mem_map_of_mem hc, (hf c).id ▸ hid, (hf c).isEnumerator ▸ hen⟩
  grounded := by
    intro b' hb'
    obtain ⟨b, hb, rfl⟩ := List.mem_map.1 hb'
    exact (h.grounded b hb).map hf
  nonempty := by simpa using h.nonempty
  known := by
    intro b' hb' q hq
    obtain ⟨b, hb, rfl⟩ := List.mem_map.1 hb'
    have hquestions : (blocks.map f).flatMap Block.questionIds = blocks.flatMap Block.questionIds := by
      rw [List.flatMap_map]
      exact List.flatMap_congr fun b _ => (hf b).questionIds.symm
    rw [hquestions]
    exact h.known b hb q ((hf b).predicateQuestions ▸ hq)

end Map

/-- The catalog has every question that the blocks use, as they use it. -/
def Catalog.Agrees (c : Catalog) (blocks : List Block) : Prop :=
  ∀ b ∈ blocks, ∀ u ∈ b.questions, c.question? u.id = some u.question

instance {c : Catalog} {blocks : List Block} : Decidable (c.Agrees blocks) :=
  inferInstanceAs (Decidable (∀ b ∈ blocks, ∀ u ∈ b.questions, c.question? u.id = some u.question))

theorem mapM_map_ok {ε α β γ : Type} {f : β → Except ε γ} {e : α → β} {g : α → γ} {l : List α}
    (h : ∀ a ∈ l, f (e a) = .ok (g a)) : (l.map e).mapM f = .ok (l.map g) := by
  rw [mapM_eq_ok_iff, List.forall₂_map_left_iff, List.forall₂_map_right_iff, List.forall₂_same]
  exact h

theorem StoredBlock.hydrate_ofBlock {c : Catalog} {b : Block}
    (h : ∀ u ∈ b.questions, c.question? u.id = some u.question) :
    (ofBlock b).settle.hydrate c = .ok b.settle := by
  have husage : ∀ u ∈ b.questions, (StoredUsage.ofUsage u).hydrate c b.id = .ok u := by
    intro u hu
    rw [StoredUsage.hydrate, StoredUsage.ofUsage, h u hu]
  have hquestions := mapM_map_ok husage
  rw [List.map_id'] at hquestions
  simp only [hydrate, settle, ofBlock, hquestions]
  rfl

/-- The catalog gives the questions back. -/
theorem StoredProgram.hydrate_ofProgram {c : Catalog} {p : Program} (h : c.Agrees p.blocks) :
    (ofProgram p).settle.hydrate c = .ok (p.withBlocks (p.blocks.map Block.settle)) := by
  have hblocks : ((p.blocks.map StoredBlock.ofBlock).map StoredBlock.settle).mapM (StoredBlock.hydrate c) =
      .ok (p.blocks.map Block.settle) := by
    rw [List.map_map]
    exact mapM_map_ok fun b hb => StoredBlock.hydrate_ofBlock (h b hb)
  simp only [hydrate, settle, ofProgram, hblocks]
  rfl

namespace Program

variable {c : Catalog} {p : Program}

/-- No block has id zero or repeats under it. -/
theorem ids_ofProgram (h : Formed p.blocks) : ∀ b ∈ (StoredProgram.ofProgram p).blocks,
    b.id ≠ 0 ∧ ∀ e ∈ b.enumerator, e ≠ 0 := by
  intro s hs
  obtain ⟨b, hb, rfl⟩ := List.mem_map.1 hs
  refine ⟨h.positive b hb, fun e he => ?_⟩
  obtain ⟨-, d, hd, hid, -⟩ := h.named b hb e he
  exact hid ▸ h.positive d hd

/-- **What reading a written program gives**, if the program is sound and named. -/
theorem ofText_document (hs : Sound p.blocks) (hname : p.details.adminName ≠ "") (hc : c.Agrees p.blocks) :
    ofText c p.document = if (StoredProgram.ofProgram p).toJson.depth ≤ Json.Tree.depthLimit
      then .ok (p.withBlocks (p.blocks.map Block.settle)) else .error .notJson := by
  have hread := JsonValue.ofText_pretty (StoredProgram.ofProgram p).toJson
  rw [ofText, document]
  split at hread
  next hdepth =>
    obtain ⟨value, hvalue, hjson⟩ := Option.map_eq_some_iff.1 hread
    have hschema := Schema.program_toJson (StoredProgram.ofProgram p) hname (ids_ofProgram hs.toFormed)
    have hfields : StoredProgram.ofJson? (StoredProgram.ofProgram p).toJson.settle = some _ :=
      StoredProgram.ofTree?_back (.ofProgram p)
    have hdefects : (p.withBlocks (p.blocks.map Block.settle)).defects = [] :=
      (defects_eq_nil_iff (Truthful.withBlocks _)).2 (hs.map Block.like_settle)
    rw [if_pos hdepth]
    simp only [hvalue, hjson, hschema, hfields, StoredProgram.hydrate_ofProgram hc, hdefects]
    rfl
  next hdepth =>
    rw [if_neg hdepth, Option.map_eq_none_iff.1 hread]

/-- What a program needs to be saved and loaded unchanged with a catalog. -/
structure Storable (c : Catalog) (p : Program) : Prop where
  defects : p.defects = []
  named : p.details.adminName ≠ ""
  agrees : c.Agrees p.blocks
  floatFree : ∀ b ∈ p.blocks, b.floatFree = true

namespace Storable

theorem order (ht : p.Truthful) (h : p.Storable c) : p.order.Storable c := by
  have hs := (defects_eq_nil_iff ht).1 h.defects
  have hperm := ht.order_perm hs.toFormed
  exact {
    defects := (defects_eq_nil_iff ht.order).2 (hs.perm hperm.symm)
    named := by
      rw [order_details]
      exact h.named
    agrees := fun b hb => h.agrees b (hperm.mem_iff.1 hb)
    floatFree := fun b hb => h.floatFree b (hperm.mem_iff.1 hb) }

theorem ofText_document (ht : p.Truthful) (h : p.Storable c)
    (hdepth : (StoredProgram.ofProgram p).toJson.depth ≤ Json.Tree.depthLimit) :
    ofText c p.document = .ok p.toDraft.build := by
  rw [Program.ofText_document ((defects_eq_nil_iff ht).1 h.defects) h.named h.agrees, if_pos hdepth,
    Block.map_settle_eq_self h.floatFree]
  rfl

end Storable

/-- The program as it is written. -/
def written (p : Program) (normalize : Bool) : Program := if normalize then p.order else p

end Program

/-- **Saved programs load back.** A program without defects, whatever has been asked of it before, is read
from its document as it is; from the document in canonical order the ordered program is read. -/
theorem saved_programs_load (events : List Event) (p : Program) (hp : p ∈ live events) (c : Catalog)
    (h : p.Storable c) (normalize : Bool)
    (hdepth : (StoredProgram.ofProgram (p.written normalize)).toJson.depth ≤ 127) :
    ∃ q, Program.ofText c (p.documentFor normalize) = .ok q ∧ q.toDraft = (p.written normalize).toDraft ∧
      (q == p.written normalize) = true := by
  have ht := live_truthful events p hp
  have hread : Program.ofText c (p.documentFor normalize) = .ok (p.written normalize).toDraft.build := by
    cases normalize with
    | false => exact h.ofText_document ht hdepth
    | true => exact (h.order ht).ofText_document ht.order hdepth
  exact ⟨_, hread, rfl, Program.beq_iff.2 ⟨rfl, Alike.refl _⟩⟩

/-- The household form with its repeated blocks in front, a question in the summary, and a condition on it
whose value has a line break, a quote, a list and an object in it. -/
theorem saved_programs_load_household :
    let income : Question := { id := 18446744073709551615, name := "income", type := .currency }
    let c : Catalog := ⟨[income]⟩
    let value : Json :=
      .object [("é\n\"", .array [.null, .number (.negative 4), .object []]), ("𝄞", .bool true)]
    let rule : Comparison := ⟨income.id, "currency\x00units", .anyOf, ⟨value, by
      simp [value, Json.Canonical, Json.MembersCanonical, Json.AllCanonical, Entries.Ascending]; decide⟩⟩
    let summary : Block :=
      { id := 5, name := "summary", questions := [{ question := income, optional := true }],
        visibility := some ⟨.all [.leaf rule, .any []], .showBlock⟩ }
    let start : Draft :=
      { details := { id := 7, adminName := "form" },
        blocks := [household[3], household[2], household[0], household[1], summary] }
    let p := start.build.noteOrdered
    ∃ q, Program.ofText c (p.documentFor true) = .ok q ∧ q.blocks.map (·.id) = [1, 2, 3, 4, 5] ∧
      (q == p.order) = true := by
  intro income c value rule summary start p
  have hp : p ∈ live [.build start, .askOrdered 0] := List.mem_singleton.2 rfl
  have h : p.Storable c := {
    defects := by decide +kernel
    named := by decide
    agrees := by decide +kernel
    floatFree := by decide +kernel }
  obtain ⟨q, hread, hdraft, heq⟩ :=
    saved_programs_load [.build start, .askOrdered 0] p hp c h true (by decide +kernel)
  refine ⟨q, hread, ?_, heq⟩
  rw [hdraft]
  decide +kernel

end FormProgram
