/-
What is written for a program meets the schema exactly if the program is named and no block has id zero or
repeats under block zero (`Schema.program_view`).

The checks look members up by name and never look into the values that leaves compare with. So the document as
it is written and the value that is read back from its text pass alike: both are views of it (`Schema.View`).
-/
import FormProgram.Proofs.StoredForm

set_option autoImplicit false

namespace FormProgram.Schema

open Json

variable {ms ms' : List (String × Json)} {name : String}

theorem has_perm (hp : ms.Perm ms') (name : String) : has ms name = has ms' name := hp.any_eq

theorem whenThere_perm (hp : ms.Perm ms') (name : String) (check : Json → Bool) :
    whenThere ms name check = whenThere ms' name check := hp.all_eq

theorem isLeaf_perm (hp : ms.Perm ms') : isLeaf ms = isLeaf ms' := by
  simp only [isLeaf, whenThere_perm hp, has_perm hp, List.all_cons, List.all_nil]

theorem childrenPass_eq (ms : List (String × Json)) :
    childrenPass ms = whenThere ms "children" conditionList := by
  induction ms with
  | nil => rfl
  | cons m ms ih => rw [childrenPass, ih, whenThere, whenThere, List.all_cons]

theorem condition_perm (hp : ms.Perm ms') : condition (.object ms) = condition (.object ms') := by
  simp only [condition, childrenPass_eq, has_perm hp, whenThere_perm hp, isLeaf_perm hp]

theorem record_perm (needed : List String) (checks : List (String × (Json → Bool))) (hp : ms.Perm ms') :
    record needed checks (.object ms) = record needed checks (.object ms') := by
  have hhas : has ms = has ms' := funext (has_perm hp)
  simp only [record, hhas, hp.all_eq]

abbrev viewed (f : Json → Json) (ms : List (String × Json)) : List (String × Json) :=
  ms.map fun (name, j) => (name, f j)

/-- A view keeps all of a document but the order of members and the numbers that are no words. -/
structure View (f : Json → Json) : Prop where
  object : ∀ {ms : List (String × Json)}, DistinctNames ms →
    ∃ ms', f (.object ms) = .object ms' ∧ ms'.Perm (viewed f ms)
  array : ∀ js : List Json, f (.array js) = .array (js.map f)
  string : ∀ s : String, f (.string s) = .string s
  bool : ∀ b : Bool, f (.bool b) = .bool b
  word : ∀ n : UInt64, f (.word n) = .word n

theorem View.asWritten : View id where
  object := fun {ms} _ => ⟨ms, rfl, by simp [viewed]⟩
  array js := by rw [List.map_id]; rfl
  string _ := rfl
  bool _ := rfl
  word _ := rfl

theorem View.readBack : View settle where
  object := fun {ms} hd => ⟨settleMembers ms, rfl, settleMembers_perm hd⟩
  array js := by rw [settle, settleItems_eq_map]
  string _ := rfl
  bool _ := rfl
  word n := by rw [Json.word, settle, Number.reread_natural]

namespace View

variable {f : Json → Json} (h : View f)
include h

theorem record (hd : DistinctNames ms) (needed : List String) (checks : List (String × (Json → Bool))) :
    Schema.record needed checks (f (.object ms)) = Schema.record needed checks (.object (viewed f ms)) := by
  obtain ⟨ms', hms, hp⟩ := h.object hd
  rw [hms, record_perm needed checks hp]

theorem condition (hd : DistinctNames ms) :
    Schema.condition (f (.object ms)) = Schema.condition (.object (viewed f ms)) := by
  obtain ⟨ms', hms, hp⟩ := h.object hd
  rw [hms, condition_perm hp]

theorem integer (least : Nat) (n : UInt64) : Schema.integer least (f (.word n)) = decide (least ≤ n.toNat) := by
  rw [h.word]
  rfl

theorem text (least : Nat) (s : String) : Schema.string least (f (.string s)) = decide (least ≤ s.length) := by
  rw [h.string]
  rfl

theorem boolean (b : Bool) : Schema.boolean (f (.bool b)) = true := by
  rw [h.bool]
  rfl

theorem oneOf (names : List String) (s : String) : Schema.oneOf names (f (.string s)) = names.contains s := by
  rw [h.string]
  rfl

theorem list (item : Json → Bool) {α : Type} (write : α → Json) (l : List α) :
    Schema.list item (f (.array (l.map write))) = l.all fun a => item (f (write a)) := by
  rw [h.array, Schema.list, List.map_map, List.all_map]
  rfl

theorem texts (m : SortedMap String String) : mapOf (Schema.string 0) (f (Json.texts m)) = true := by
  have hd : DistinctNames (m.entries.map fun e => (e.1, Json.string e.2)) :=
    distinct_of_ascending (List.pairwise_map.2 m.ascending)
  obtain ⟨ms', hms, hp⟩ := h.object hd
  have htexts : f (Json.texts m) = .object ms' := hms
  rw [htexts, mapOf, hp.all_eq, List.all_map, List.all_map]
  simp [h.text]

omit h in
/-- A member that may be left out passes if its value does. -/
theorem all_present {α : Type} {name : String} {write : α → Json} {o : Option α}
    {check : String × Json → Bool} :
    (viewed f (present name write o)).all check = true ↔ ∀ a ∈ o, check (name, f (write a)) = true := by
  cases o <;> simp [present]

theorem condition_node {tag : String} {children : List Json} (htag : tag = "and" ∨ tag = "or")
    (hchildren : conditions (children.map f) = true) :
    Schema.condition (f (.object [("node", .string tag), ("children", .array children)])) = true := by
  have hlist : conditionList (f (.array children)) = true := by
    rw [h.array, conditionList, hchildren]
  rw [h.condition (Condition.distinct_children ..)]
  rcases htag with rfl | rfl <;>
    simp [Schema.condition, childrenPass_eq, has, whenThere, isLeaf, h.oneOf, hlist]

end View

variable {f : Json → Json}

mutual

/-- A written condition matches exactly one of the two shapes. -/
theorem condition_view (h : View f) : ∀ c : Condition, condition (f c.toJson) = true
  | .leaf c => by
    rw [Condition.toJson, h.condition (by simp [DistinctNames, Comparison.members])]
    simp [condition, childrenPass_eq, Comparison.members, has, whenThere, isLeaf, h.oneOf, h.text, h.integer]
  | .all children => h.condition_node (.inl rfl) (conditions_view h children)
  | .any children => h.condition_node (.inr rfl) (conditions_view h children)

theorem conditions_view (h : View f) : ∀ children : List Condition,
    conditions ((Condition.toJsons children).map f) = true
  | [] => rfl
  | c :: children => by
    rw [Condition.toJsons, List.map_cons, conditions, condition_view h c, conditions_view h children]
    rfl

end

theorem predicate_view (h : View f) (p : Predicate) : predicate (f p.toJson) = true := by
  have haction : oneOf ["hide_block", "show_block", "eligible_block"] (f (.string p.action.label)) = true := by
    rw [h.oneOf]
    cases p.action <;> decide
  rw [Predicate.toJson, predicate, h.record (by simp [DistinctNames])]
  simp [record, has, List.lookup_cons, List.lookup_nil, condition_view h, haction]

theorem eligibility_view (h : View f) (p : Predicate) :
    record ["predicate"] [("predicate", predicate)] (f (.object [("predicate", p.toJson)])) = true := by
  rw [h.record (by simp [DistinctNames])]
  simp [record, has, List.lookup_cons, List.lookup_nil, predicate_view h]

theorem usage_view (h : View f) (u : StoredUsage) : usage (f u.toJson) = true := by
  rw [StoredUsage.toJson, usage, h.record (by simp [DistinctNames])]
  simp [record, has, List.lookup_cons, List.lookup_nil, h.integer, h.boolean]

theorem block_view (h : View f) (b : StoredBlock) :
    block (f b.toJson) = true ↔ 1 ≤ b.id ∧ ∀ e ∈ b.enumerator, 1 ≤ e := by
  have hquestions : list usage (f (.array (b.questions.map (·.toJson)))) = true := by
    rw [h.list, List.all_eq_true]
    exact fun u _ => usage_view h u
  rw [StoredBlock.toJson, block, h.record b.distinct_members]
  simp only [viewed, List.map_append, record, List.all_append, Bool.and_eq_true, View.all_present]
  simp [has, List.lookup_cons, List.lookup_nil, h.integer, h.text, h.boolean, hquestions, predicate_view h, eligibility_view h,
    UInt64.le_iff_toNat_le]

/-- **What is written meets the schema** if the program is named and its blocks have ids and enumerators other than
zero, and only then. -/
theorem program_view (h : View f) (p : StoredProgram) :
    program (f p.toJson) = true ↔
      p.details.adminName ≠ "" ∧ ∀ b ∈ p.blocks, 1 ≤ b.id ∧ ∀ e ∈ b.enumerator, 1 ≤ e := by
  have hblocks : list block (f (.array (p.blocks.map (·.toJson)))) = true ↔
      ∀ b ∈ p.blocks, 1 ≤ b.id ∧ ∀ e ∈ b.enumerator, 1 ≤ e := by
    rw [h.list, List.all_eq_true]
    exact forall₂_congr fun b _ => block_view h b
  have htype : oneOf ["default", "common_intake_form"] (f (.string p.details.type.label)) = true := by
    rw [h.oneOf]
    cases p.details.type <;> decide
  have hlength : 1 ≤ p.details.adminName.length ↔ p.details.adminName ≠ "" := by
    rw [Nat.one_le_iff_ne_zero, ne_eq, String.length_eq_zero_iff]
  rw [StoredProgram.toJson, program, h.record (by simp [DistinctNames, Details.members])]
  simp [Details.members, record, has, List.lookup_cons, List.lookup_nil, h.integer, h.text, h.boolean, htype, h.texts, hblocks, hlength]

theorem one_le_of_ne_zero {n : UInt64} (hn : n ≠ 0) : 1 ≤ n := by
  have h0 : n.toNat ≠ 0 := fun h0 => hn (UInt64.toNat_inj.1 h0)
  rw [UInt64.le_iff_toNat_le, UInt64.toNat_one]
  omega

theorem program_toJson (p : StoredProgram) (hname : p.details.adminName ≠ "")
    (hid : ∀ b ∈ p.blocks, b.id ≠ 0 ∧ ∀ e ∈ b.enumerator, e ≠ 0) :
    program p.toJson.settle = true := by
  refine (program_view .readBack p).2 ⟨hname, fun b hb => ?_⟩
  exact ⟨one_le_of_ne_zero (hid b hb).1, fun e he => one_le_of_ne_zero ((hid b hb).2 e he)⟩

/-- **The writer and the schema agree.** A stored program as it is written, and as it is read back from its text,
meets the schema exactly if it has a name and each block an id of at least one and no enumerator below one. -/
theorem written_iff_schema (p : StoredProgram) :
    (program p.toJson = true ↔
      p.details.adminName ≠ "" ∧ ∀ b ∈ p.blocks, 1 ≤ b.id ∧ ∀ e ∈ b.enumerator, 1 ≤ e) ∧
    (program p.toJson.settle = true ↔
      p.details.adminName ≠ "" ∧ ∀ b ∈ p.blocks, 1 ≤ b.id ∧ ∀ e ∈ b.enumerator, 1 ≤ e) :=
  ⟨program_view .asWritten p, program_view .readBack p⟩

end FormProgram.Schema
