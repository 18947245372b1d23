/-
What a program is that has been read from text, and what reading it again gives.

Reading passes five stages (`ofText_stages`), and each leaves something behind: the limit of depth, the name
that the schema asks for, the questions of the catalog, soundness. Together that is what it takes for the
program to be read again when it has been written (`Loaded.ofText_document`), with the same blocks or with
others in which no more is different than their order.
-/
import FormProgram.Proofs.ReadDepth
import FormProgram.Proofs.SavedPrograms

set_option autoImplicit false

namespace FormProgram

open Json

namespace Program

variable {c : Catalog} {text : String} {p q : Program}

/-- What a program that is read from text has passed. -/
theorem ofText_stages (h : ofText c text = .ok p) : ∃ value stored, JsonValue.ofText? text = some value ∧
    Schema.program value.json = true ∧ StoredProgram.ofJson? value.json = some stored ∧
    stored.hydrate c = .ok p ∧ p.defects = [] := by
  rw [ofText] at h
  split at h
  next => cases h
  next value hvalue =>
    split at h
    next => cases h
    next hschema =>
      split at h
      next => cases h
      next stored hstored =>
        split at h
        next => cases h
        next p' hp' =>
          split at h
          next hdefects =>
            cases h
            exact ⟨value, stored, hvalue, by simpa using hschema, hstored, hp', List.isEmpty_iff.1 hdefects⟩
          next => cases h

end Program

namespace Program

variable {p q : Program}

theorem document_congr (h : p.toDraft = q.toDraft) : p.document = q.document := by
  rw [document, document, StoredProgram.ofProgram, StoredProgram.ofProgram, h]

/-- A program in canonical order is written alike with and without ordering it first. -/
theorem documentFor_eq (ht : p.Truthful) (hc : isCanonical p.blocks = true) (normalize : Bool) :
    p.documentFor normalize = p.document := by
  cases normalize with
  | false => rfl
  | true => exact document_congr (ht.order_toDraft hc)

end Program

/-- A list that each item of the result leads back to. -/
theorem of_mapM_ok {ε α β : Type} {f : α → Except ε β} {back : β → α} {holds : β → Prop} {l : List α}
    {l' : List β}
    (hf : ∀ a b, f a = .ok b → back b = a ∧ holds b) (h : l.mapM f = .ok l') :
    l'.map back = l ∧ ∀ b ∈ l', holds b := by
  have hrow := mapM_eq_ok_iff.1 h
  constructor
  · have hback : List.Forall₂ (· = ·) l (l'.map back) :=
      List.forall₂_map_right_iff.2 (hrow.imp fun a b hab => (hf a b hab).1.symm)
    rw [List.forall₂_eq_eq_eq] at hback
    exact hback.symm
  · intro b hb
    obtain ⟨a, -, hab⟩ := Row.exists_item hrow b hb
    exact (hf a b hab).2

theorem Json.exists_of_member? {name : String} {ms : List (String × Json)} {t : Tree}
    (h : Tree.member? name (Tree.ofNamed ms) = some (some t)) : ∃ j, (name, j) ∈ ms ∧ t = Tree.ofJson j := by
  rw [Tree.member?] at h
  split at h
  next => cases h
  next name' t' hfilter =>
    cases h
    have hmem : (name', t) ∈ (Tree.ofNamed ms).filter (·.1 == name) := hfilter ▸ List.mem_cons_self ..
    obtain ⟨hmem, hname⟩ := List.mem_filter.1 hmem
    rw [ofNamed_eq_map] at hmem
    obtain ⟨⟨n, j⟩, hj, heq⟩ := List.mem_map.1 hmem
    cases heq
    exact ⟨j, eq_of_beq hname ▸ hj, rfl⟩
  next => cases h

theorem StoredProgram.named_of_schema {j : Json} {s : StoredProgram} (hj : Schema.program j = true)
    (h : ofJson? j = some s) : s.details.adminName ≠ "" := by
  cases j with
  | object ms =>
    obtain ⟨fields, hfields, h⟩ := Option.bind_eq_some_iff.1 h
    split at h
    next id adminName adminDescription externalLink localizedName localizedDescription type eligibilityIsGating
        blocks =>
      simp only [Option.bind_eq_bind, Option.bind_eq_some_iff] at h
      obtain ⟨_, -, name, hname, _, -, _, -, _, -, _, -, _, -, _, -, bs, -, heq⟩ := h
      cases heq
      obtain ⟨t, rfl, hname⟩ := Tree.required_some hname
      -- The name is the second field.
      rw [Tree.ofJson, Tree.fields?, List.mapM_cons, List.mapM_cons] at hfields
      obtain ⟨_, -, hfields⟩ := Option.bind_eq_some_iff.1 hfields
      obtain ⟨_, hrest, heq⟩ := Option.bind_eq_some_iff.1 hfields
      obtain ⟨_, hmember, hrest⟩ := Option.bind_eq_some_iff.1 hrest
      obtain ⟨_, -, hrest⟩ := Option.bind_eq_some_iff.1 hrest
      cases hrest
      cases heq
      obtain ⟨j, hmem, rfl⟩ := Json.exists_of_member? hmember
      have hcheck : Schema.string 1 j = true := by
        rw [Schema.program, Schema.record, Bool.and_eq_true] at hj
        exact List.all_eq_true.1 hj.2 _ hmem
      cases j with
      | string name' =>
        cases hname
        rintro rfl
        cases hcheck
      | null | bool | number | array | object => cases hname
    next => cases h
  | null | bool | number | string | array => cases hj

theorem Catalog.question?_id {c : Catalog} {id : QuestionId} {q : Question} (h : c.question? id = some q) :
    q.id = id := by
  rw [question?] at h
  simpa using List.find?_some h

theorem StoredUsage.hydrate_ok {c : Catalog} {s : StoredUsage} {u : Usage} {block : BlockId}
    (h : s.hydrate c block = .ok u) : ofUsage u = s ∧ c.question? u.id = some u.question := by
  rw [hydrate] at h
  split at h
  next question hquestion =>
    cases h
    have hid := Catalog.question?_id hquestion
    rw [ofUsage, Usage.id, hid]
    exact ⟨rfl, hquestion⟩
  next => cases h

/-- A hydrated block is stored as what it has been hydrated from, and has its questions from the catalog. -/
theorem StoredBlock.hydrate_ok {c : Catalog} {s : StoredBlock} {b : Block} (h : s.hydrate c = .ok b) :
    ofBlock b = s ∧ ∀ u ∈ b.questions, c.question? u.id = some u.question := by
  rw [hydrate] at h
  cases hquestions : s.questions.mapM (StoredUsage.hydrate c s.id) with
  | error e =>
    rw [hquestions] at h
    cases h
  | ok questions =>
    rw [hquestions] at h
    cases h
    obtain ⟨hstored, hall⟩ := of_mapM_ok (fun _ _ h => StoredUsage.hydrate_ok h) hquestions
    exact ⟨by rw [ofBlock, hstored], hall⟩

/-- A hydrated program is stored as what it has been hydrated from, and has its questions from the catalog. -/
theorem StoredProgram.hydrate_ok {c : Catalog} {s : StoredProgram} {p : Program} (h : s.hydrate c = .ok p) :
    ofProgram p = s ∧ c.Agrees p.blocks ∧ p.Truthful := by
  rw [hydrate] at h
  cases hblocks : s.blocks.mapM (StoredBlock.hydrate c) with
  | error e =>
    rw [hblocks] at h
    cases h
  | ok blocks =>
    rw [hblocks] at h
    cases h
    obtain ⟨hstored, hall⟩ := of_mapM_ok (fun _ _ h => StoredBlock.hydrate_ok h) hblocks
    exact ⟨congrArg (StoredProgram.mk s.details) hstored, hall, .build _⟩

namespace Program

/-- A program that can be written and read. -/
structure Loaded (c : Catalog) (p : Program) : Prop where
  truthful : p.Truthful
  sound : Sound p.blocks
  named : p.details.adminName ≠ ""
  agrees : c.Agrees p.blocks
  shallow : ∀ b ∈ p.blocks, (StoredBlock.ofBlock b).toJson.depth + 2 ≤ Tree.depthLimit

variable {c : Catalog} {text : String} {p q : Program}

theorem loaded_of_ofText (h : ofText c text = .ok p) : p.Loaded c := by
  obtain ⟨value, stored, hvalue, hschema, hstored, hp, hdefects⟩ := ofText_stages h
  obtain ⟨hof, hagrees, ht⟩ := StoredProgram.hydrate_ok hp
  have hdepth := StoredProgram.depth_of_text hvalue hstored
  have hnamed := StoredProgram.named_of_schema hschema hstored
  rw [← hof] at hdepth hnamed
  exact {
    truthful := ht
    sound := (defects_eq_nil_iff ht).1 hdefects
    named := hnamed
    agrees := hagrees
    shallow := fun b hb => hdepth _ (List.mem_map_of_mem hb) }

namespace Loaded

/-- **A loaded program is read again when it has been written.** -/
theorem ofText_document (h : p.Loaded c) :
    ofText c p.document = .ok (p.withBlocks (p.blocks.map Block.settle)) := by
  rw [Program.ofText_document h.sound h.named h.agrees, if_pos]
  rw [StoredProgram.depth_toJson_le (by decide)]
  intro s hs
  obtain ⟨b, hb, rfl⟩ := List.mem_map.1 hs
  exact h.shallow b hb

theorem follows (h : p.Loaded c) (ht : q.Truthful) (hf : Follows p q []) : q.Loaded c where
  truthful := ht
  sound := h.sound.perm hf.blocks.symm
  named := by
    rw [hf.details]
    exact h.named
  agrees b hb := h.agrees b (hf.blocks.mem_iff.1 hb)
  shallow b hb := h.shallow b (hf.blocks.mem_iff.1 hb)

end Loaded

end Program

end FormProgram
