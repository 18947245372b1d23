/-
The schema and the reader of programs agree but for two kinds of value: a number that is no word where an id is
due, and an operator that is none of the twelve (`schema_reader_agree`).

For each check of the schema it is said what the reader asks beyond it of a value that passes (`Reads`): of most
values nothing, of a record what is asked of its members, of a condition what is asked of its leaves.
-/
import FormProgram.Proofs.StoredForm

set_option autoImplicit false

namespace FormProgram

open Json

/-! ## Places in a document -/

namespace Json

/-- The value of the member with a name; none in what is no object. -/
def field (name : String) : Json → List Json
  | .object ms => (ms.lookup name).toList
  | _ => []

/-- The items of an array; none of what is no array. -/
def items : Json → List Json
  | .array js => js
  | _ => []

mutual

/-- The leaves of a condition, from left to right. What stands inside of a leaf is no part of the condition. -/
def leafNodes : Json → List Json
  | .object ms =>
    match ms.lookup "node" with
    | some (.string "leaf") => [.object ms]
    | _ => leafNodesUnder ms
  | _ => []

def leafNodesUnder : List (String × Json) → List Json
  | [] => []
  | (name, j) :: rest =>
    if name == "children" then leafNodesOfList j ++ leafNodesUnder rest else leafNodesUnder rest

def leafNodesOfList : Json → List Json
  | .array js => leafNodesAll js
  | _ => []

def leafNodesAll : List Json → List Json
  | [] => []
  | j :: rest => leafNodes j ++ leafNodesAll rest

end

/-- The blocks of a program document. -/
def blockNodes (j : Json) : List Json := (j.field "blockDefinitions").flatMap items

/-- The question usages of a block. -/
def usageNodes (b : Json) : List Json := (b.field "questions").flatMap items

/-- The leaves of both predicates of a block. -/
def blockLeafNodes (b : Json) : List Json :=
  (b.field "visibilityPredicate" ++ (b.field "eligibilityDefinition").flatMap (field "predicate")).flatMap fun p =>
    (p.field "root").flatMap leafNodes

/-- Where a program document has an id: of the program, of a block, its enumerator and its questions, and of the
question that a leaf reads. -/
def identifiers (j : Json) : List Json :=
  j.field "id" ++ j.blockNodes.flatMap fun b =>
    b.field "id" ++ b.field "enumeratorId" ++ b.usageNodes.flatMap (field "id") ++
      b.blockLeafNodes.flatMap (field "questionId")

/-- Where a program document has an operator: in every leaf. -/
def operators (j : Json) : List Json :=
  j.blockNodes.flatMap fun b => b.blockLeafNodes.flatMap (field "operator")

/-- An integer literal from zero up to the greatest word. -/
def IsWord (j : Json) : Prop := ∃ n : UInt64, j = .word n

/-- The name of one of the twelve operators. -/
def IsOperator (j : Json) : Prop := ∃ o : Operator, j = .string o.label

end Json

/-! ## What readers ask beyond a check -/

/-- Of a value that passes the check, the reader asks this and no more. -/
def Reads {α : Type} (check : Json → Bool) (read : Tree → Option α) (asked : Json → Prop) : Prop :=
  ∀ j : Json, j.Canonical → check j = true → ((read (Tree.ofJson j)).isSome = true ↔ asked j)

section Members

variable {ms : List (String × Json)} {name : String}

theorem mem_of_lookup {α : Type} {ms : List (String × α)} {a : α} (h : ms.lookup name = some a) :
    (name, a) ∈ ms := by
  obtain ⟨l₁, l₂, rfl, -⟩ := List.lookup_eq_some_iff.1 h
  simp

theorem canonical_of_lookup (hc : MembersCanonical ms) {j : Json} (h : ms.lookup name = some j) : j.Canonical := by
  induction ms with
  | nil => cases h
  | cons m ms ih =>
    obtain ⟨n, i⟩ := m
    rw [List.lookup_cons] at h
    split at h
    · cases h
      exact hc.1
    · exact ih hc.2 h

theorem has_eq_isSome (ms : List (String × Json)) (name : String) :
    Schema.has ms name = (ms.lookup name).isSome := by
  rw [Bool.eq_iff_iff, List.lookup_isSome_iff, Schema.has, List.any_eq_true]
  refine exists_congr fun m => and_congr_right fun _ => ?_
  rw [beq_iff_eq, beq_iff_eq, eq_comm]

theorem pass_of_whenThere {check : Json → Bool} (h : Schema.whenThere ms name check = true) {j : Json}
    (hj : ms.lookup name = some j) : check j = true := by
  have := List.all_eq_true.1 h _ (mem_of_lookup hj)
  simpa using this

end Members

/-- Fields that are read one after another, none depending on another. -/
theorem any_const {α : Type} (o : Option α) (b : Bool) : (o.any fun _ => b) = (o.isSome && b) := by
  cases o <;> rfl

namespace Reads

variable {α : Type} {check : Json → Bool} {read : Tree → Option α} {asked : Json → Prop}
  {ms : List (String × Json)}

theorem member (hr : Reads check read asked) {name : String} (hc : MembersCanonical ms) {j : Json}
    (hj : ms.lookup name = some j) (hpass : check j = true) :
    (read (Tree.ofJson j)).isSome = true ↔ ∀ i ∈ field name (.object ms), asked i := by
  rw [hr j (canonical_of_lookup hc hj) hpass, field, hj]
  simp

theorem required (hr : Reads check read asked) (name : String) (hc : MembersCanonical ms)
    (hthere : Schema.has ms name = true) (hpass : ∀ j, ms.lookup name = some j → check j = true) :
    (Tree.required read ((ms.lookup name).map Tree.ofJson)).isSome = true ↔
      ∀ j ∈ field name (.object ms), asked j := by
  rw [has_eq_isSome] at hthere
  obtain ⟨j, hj⟩ := Option.isSome_iff_exists.1 hthere
  rw [← hr.member hc hj (hpass j hj), hj]
  rfl

theorem defaulted (hr : Reads check read asked) (name : String) (a : α) (hc : MembersCanonical ms)
    (hpass : ∀ j, ms.lookup name = some j → check j = true) :
    (Tree.defaulted a read ((ms.lookup name).map Tree.ofJson)).isSome = true ↔
      ∀ j ∈ field name (.object ms), asked j := by
  cases hj : ms.lookup name with
  | none => simp [Tree.defaulted, field, hj]
  | some j =>
    rw [← hr.member hc hj (hpass j hj)]
    rfl

/-- A field that may be null passes no check that null does not pass. -/
theorem optional (hr : Reads check read asked) (name : String) (hnull : check .null = false)
    (hc : MembersCanonical ms) (hpass : ∀ j, ms.lookup name = some j → check j = true) :
    (Tree.optional read ((ms.lookup name).map Tree.ofJson)).isSome = true ↔
      ∀ j ∈ field name (.object ms), asked j := by
  cases hj : ms.lookup name with
  | none => simp [Tree.optional, field, hj]
  | some j =>
    have hcheck := hpass j hj
    rw [← hr.member hc hj hcheck]
    cases j with
    | null =>
      rw [hnull] at hcheck
      cases hcheck
    | bool | number | string | array | object => simp [Tree.ofJson, Tree.optional]

end Reads

theorem reads_integer (least : Nat) : Reads (Schema.integer least) Tree.word? IsWord := by
  intro j _ h
  cases j with
  | number n =>
    cases n with
    | natural n => exact ⟨fun _ => ⟨n, rfl⟩, fun _ => rfl⟩
    | negative m => cases h
    | float x => exact ⟨nofun, nofun⟩
  | null | bool | string | array | object => cases h

theorem reads_string (least : Nat) : Reads (Schema.string least) Tree.string? fun _ => True := by
  intro j _ h
  cases j with
  | string s => exact iff_of_true rfl trivial
  | null | bool | number | array | object => cases h

theorem reads_boolean : Reads Schema.boolean Tree.flag? fun _ => True := by
  intro j _ h
  cases j with
  | bool b => exact iff_of_true rfl trivial
  | null | number | string | array | object => cases h

theorem isSome_mapM {α β : Type} (f : α → Option β) (l : List α) :
    (l.mapM f).isSome = l.all fun a => (f a).isSome := by
  induction l with
  | nil => rfl
  | cons a l ih =>
    rw [List.mapM_cons, List.all_cons, ← ih]
    cases f a <;> cases l.mapM f <;> rfl

theorem canonical_of_mem {js : List Json} (hc : AllCanonical js) {j : Json} (hj : j ∈ js) : j.Canonical := by
  induction js with
  | nil => cases hj
  | cons i js ih =>
    rcases List.mem_cons.1 hj with rfl | hj
    · exact hc.1
    · exact ih hc.2 hj

theorem reads_list {α : Type} {item : Json → Bool} {read : Tree → Option α} {asked : Json → Prop}
    (hr : Reads item read asked) : Reads (Schema.list item) (Tree.list? read) fun j => ∀ i ∈ j.items, asked i := by
  intro j hc h
  cases j with
  | array js =>
    rw [Tree.ofJson, Tree.list?, isSome_mapM, ofItems_eq_map, List.all_map, List.all_eq_true]
    refine forall₂_congr fun i hi => ?_
    exact hr i (canonical_of_mem hc hi) (List.all_eq_true.1 h i hi)
  | null | bool | number | string | object => cases h

theorem reads_texts : Reads (Schema.mapOf (Schema.string 0)) Tree.texts? fun _ => True := by
  intro j hc h
  cases j with
  | object ms =>
    refine iff_of_true ?_ trivial
    rw [Tree.ofJson, Tree.texts?, Option.isSome_map, isSome_mapM, ofNamed_eq_map, List.all_map, List.all_eq_true]
    rintro ⟨name, i⟩ hi
    have hcheck : Schema.string 0 i = true := List.all_eq_true.1 h _ hi
    cases i with
    | string s => rfl
    | null | bool | number | array | object => cases hcheck
  | null | bool | number | string | array => cases h

theorem isSome_lookup_named {α : Type} {label : α → String} {all : List α} {s : String} :
    ((named label all).lookup s).isSome = true ↔ ∃ a ∈ all, s = label a := by
  simp [List.lookup_isSome_iff, named]

/-- A choice is read by each of its names. -/
theorem reads_choice {α : Type} (label : α → String) (all : List α) :
    Reads (Schema.oneOf (all.map label)) (Tree.choice? (named label all)) fun _ => True := by
  intro j _ h
  cases j with
  | string s =>
    refine iff_of_true ?_ trivial
    obtain ⟨a, ha, rfl⟩ := List.mem_map.1 (List.contains_iff_mem.1 h)
    exact isSome_lookup_named.2 ⟨a, ha, rfl⟩
  | null | bool | number | array | object => cases h

/-- Of an operator the schema asks only that it be a string. -/
theorem reads_operator : Reads (Schema.string 0) Operator.ofNested? IsOperator := by
  intro j _ h
  cases j with
  | string s =>
    have hall : ∀ o : Operator, o ∈ Operator.all := by
      intro o
      cases o <;> decide
    refine isSome_lookup_named.trans ⟨?_, ?_⟩
    · rintro ⟨o, -, rfl⟩
      exact ⟨o, rfl⟩
    · rintro ⟨o, ho⟩
      cases ho
      exact ⟨o, hall o, rfl⟩
  | null | bool | number | array | object => cases h

theorem reads_value : Reads (fun _ => true) Tree.toValue? fun _ => True := by
  intro j hc _
  refine iff_of_true ?_ trivial
  have hmap := congrArg Option.isSome (Tree.map_toValue? (Tree.ofJson j))
  rwa [Option.isSome_map, Tree.value?_ofJson hc] at hmap

/-! ## Conditions -/

/-- What the reader asks of a leaf. -/
def Json.IsReadableLeaf (l : Json) : Prop :=
  (∀ j ∈ l.field "questionId", IsWord j) ∧ ∀ j ∈ l.field "operator", IsOperator j

section Conditions

variable {ms : List (String × Json)}

/-- The tag of an object whose tag passes a choice. -/
theorem lookup_node {names : List String} (hthere : Schema.has ms "node" = true)
    (h : Schema.whenThere ms "node" (Schema.oneOf names) = true) :
    ∃ tag ∈ names, ms.lookup "node" = some (.string tag) := by
  rw [has_eq_isSome] at hthere
  obtain ⟨j, hj⟩ := Option.isSome_iff_exists.1 hthere
  have hcheck := pass_of_whenThere h hj
  cases j with
  | string tag => exact ⟨tag, List.contains_iff_mem.1 hcheck, hj⟩
  | null | bool | number | array | object => cases hcheck

/-- What meets the schema of conditions is a leaf, or has one of the other tags and a list of conditions. -/
theorem condition_shape (h : Schema.condition (.object ms) = true) :
    (ms.lookup "node" = some (.string "leaf") ∧ Schema.isLeaf ms = true) ∨
    ∃ tag j, (tag = "and" ∨ tag = "or") ∧ ms.lookup "node" = some (.string tag) ∧
      ms.lookup "children" = some j ∧ Schema.childrenPass ms = true := by
  rw [Schema.condition, Bool.and_eq_true] at h
  obtain ⟨hnode, hshape⟩ := h
  by_cases hleaf : Schema.isLeaf ms = true
  · -- The leaf shape asks for the leaf tag.
    have htags : Schema.whenThere ms "node" (Schema.oneOf ["leaf"]) = true := by
      simp only [Schema.isLeaf, Bool.and_eq_true] at hleaf
      exact hleaf.1.1.1.2
    obtain ⟨tag, htag, hlookup⟩ := lookup_node hnode htags
    obtain rfl : tag = "leaf" := by simpa using htag
    exact .inl ⟨hlookup, hleaf⟩
  · -- The other shape asks for one of the other tags and for conditions as children.
    rw [Bool.not_eq_true] at hleaf
    rw [hleaf, Bool.false_bne, Bool.and_eq_true, Bool.and_eq_true] at hshape
    obtain ⟨⟨hthere, htags⟩, hchildren⟩ := hshape
    obtain ⟨tag, htag, hlookup⟩ := lookup_node hnode htags
    rw [has_eq_isSome] at hthere
    obtain ⟨j, hj⟩ := Option.isSome_iff_exists.1 hthere
    exact .inr ⟨tag, j, by simpa using htag, hlookup, hj, hchildren⟩

theorem ofTree?_leaf (hc : (Json.object ms).Canonical) (h : Schema.isLeaf ms = true) :
    (Comparison.ofTree? (Tree.ofJson (.object ms))).isSome = true ↔ IsReadableLeaf (.object ms) := by
  simp only [Schema.isLeaf, List.all_cons, List.all_nil, Bool.and_eq_true] at h
  obtain ⟨⟨⟨⟨⟨hquestion, hscalar, hoperator, hvalue, -⟩, -⟩, hquestions⟩, hscalars⟩, hoperators⟩ := h
  have hquestion := (reads_integer 0).required "questionId" hc.2 hquestion fun _ => pass_of_whenThere hquestions
  have hscalar := (reads_string 0).required "scalar" hc.2 hscalar fun _ => pass_of_whenThere hscalars
  have hoperator := reads_operator.required "operator" hc.2 hoperator fun _ => pass_of_whenThere hoperators
  have hvalue := reads_value.required "value" hc.2 hvalue fun _ _ => rfl
  rw [Comparison.ofTree?, fields?_ofJson (distinct_of_ascending hc.1)]
  simp [Option.isSome_bind, any_const, IsReadableLeaf, hquestion, hscalar, hoperator, hvalue]

theorem childLists?_ofNamed (hd : DistinctNames ms) {j : Json} (hj : ms.lookup "children" = some j) :
    Condition.childLists? (Tree.ofNamed ms) = [Condition.readList? (Tree.ofJson j)] := by
  rw [Condition.childLists?_eq_lookup (distinct_ofNamed hd), lookup_ofNamed, hj]
  rfl

theorem leafNodes_of_tag {tag : String} (h : ms.lookup "node" = some (.string tag)) (hinner : tag ≠ "leaf") :
    leafNodes (.object ms) = leafNodesUnder ms := by
  rw [leafNodes, h]
  split
  next heq =>
    cases heq
    exact absurd rfl hinner
  next => rfl

mutual

/-- **A condition that meets the schema is read if its leaves are**, on its own and inside of another one. -/
theorem read?_condition : ∀ (inner : Bool) {j : Json}, j.Canonical → Schema.condition j = true →
    ((Condition.read? inner (Tree.ofJson j)).isSome = true ↔ ∀ l ∈ leafNodes j, IsReadableLeaf l)
  | inner, .object ms, hc, h => by
    have hd : DistinctNames ms := distinct_of_ascending hc.1
    rw [Tree.ofJson, Condition.read?, member?_ofNamed hd]
    rcases condition_shape h with ⟨hlookup, hleaf⟩ | ⟨tag, j, htag, hlookup, hj, hchildren⟩
    · have hread := ofTree?_leaf hc hleaf
      rw [Tree.ofJson] at hread
      rw [leafNodes, hlookup]
      simp [Tree.ofJson, Condition.Tag.ofTree?, hread]
    · have hread := childLists?_conditions hc.2 hchildren
      rw [childLists?_ofNamed hd hj, List.forall_mem_singleton] at hread
      have hinner : tag ≠ "leaf" := by rcases htag with rfl | rfl <;> decide
      rw [childLists?_ofNamed hd hj, leafNodes_of_tag hlookup hinner, ← hread, hlookup]
      rcases htag with rfl | rfl <;>
        cases Condition.readList? (Tree.ofJson j) <;> simp [Tree.ofJson, Condition.Tag.ofTree?]
  | _, .null, _, h | _, .bool _, _, h | _, .number _, _, h | _, .string _, _, h | _, .array _, _, h => by cases h

theorem childLists?_conditions : ∀ {ms : List (String × Json)}, MembersCanonical ms →
    Schema.childrenPass ms = true →
    ((∀ r ∈ Condition.childLists? (Tree.ofNamed ms), r.isSome = true) ↔
      ∀ l ∈ leafNodesUnder ms, IsReadableLeaf l)
  | [], _, _ => by simp [Tree.ofNamed, Condition.childLists?, leafNodesUnder]
  | (name, j) :: ms, hc, h => by
    rw [Schema.childrenPass, Bool.and_eq_true] at h
    have hrest := childLists?_conditions hc.2 h.2
    rw [Tree.ofNamed, Condition.childLists?, leafNodesUnder]
    by_cases hname : (name == "children") = true
    · have hlist : Schema.conditionList j = true := by simpa [eq_of_beq hname] using h.1
      rw [if_pos hname, if_pos hname, List.forall_mem_cons, readList?_conditions hc.1 hlist, hrest,
        List.forall_mem_append]
    · rw [if_neg hname, if_neg hname, hrest]

theorem readList?_conditions : ∀ {j : Json}, j.Canonical → Schema.conditionList j = true →
    ((Condition.readList? (Tree.ofJson j)).isSome = true ↔ ∀ l ∈ leafNodesOfList j, IsReadableLeaf l)
  | .array js, hc, h => by
    rw [Tree.ofJson, Condition.readList?, leafNodesOfList]
    exact readAll?_conditions hc h
  | .null, _, h | .bool _, _, h | .number _, _, h | .string _, _, h | .object _, _, h => by cases h

theorem readAll?_conditions : ∀ {js : List Json}, AllCanonical js → Schema.conditions js = true →
    ((Condition.readAll? (Tree.ofItems js)).isSome = true ↔ ∀ l ∈ leafNodesAll js, IsReadableLeaf l)
  | [], _, _ => by simp [Tree.ofItems, Condition.readAll?, leafNodesAll]
  | j :: js, hc, h => by
    rw [Schema.conditions, Bool.and_eq_true] at h
    have hfirst := read?_condition true hc.1 h.1
    have hrest := readAll?_conditions hc.2 h.2
    rw [Tree.ofItems, Condition.readAll?, leafNodesAll, List.forall_mem_append, ← hfirst, ← hrest]
    cases Condition.read? true (Tree.ofJson j) <;> cases Condition.readAll? (Tree.ofItems js) <;> simp

end

end Conditions

theorem reads_condition :
    Reads Schema.condition Condition.ofTree? fun j => ∀ l ∈ leafNodes j, IsReadableLeaf l := by
  intro j hc h
  rw [Condition.ofTree?, Tree.value?_ofJson hc]
  exact read?_condition false hc h

/-! ## The stored form -/

section Records

variable {ms : List (String × Json)} {name : String} {needed : List String}
  {checks : List (String × (Json → Bool))}

theorem object_of_record {j : Json} (h : Schema.record needed checks j = true) : ∃ ms, j = .object ms := by
  cases j with
  | object ms => exact ⟨ms, rfl⟩
  | null | bool | number | string | array => cases h

theorem has_of_record (h : Schema.record needed checks (.object ms) = true) (hn : name ∈ needed) :
    Schema.has ms name = true := by
  rw [Schema.record, Bool.and_eq_true] at h
  exact List.all_eq_true.1 h.1 name hn

theorem pass_of_record (h : Schema.record needed checks (.object ms) = true) {check : Json → Bool}
    (hcheck : checks.lookup name = some check) (j : Json) (hj : ms.lookup name = some j) : check j = true := by
  rw [Schema.record, Bool.and_eq_true] at h
  have hmember := List.all_eq_true.1 h.2 _ (mem_of_lookup hj)
  simpa only [hcheck] using hmember

/-- What the reader asks of a predicate. -/
def Json.IsReadablePredicate (p : Json) : Prop := ∀ c ∈ p.field "root", ∀ l ∈ leafNodes c, IsReadableLeaf l

theorem reads_predicate : Reads Schema.predicate Predicate.ofTree? IsReadablePredicate := by
  intro j hc h
  obtain ⟨ms, rfl⟩ := object_of_record h
  have hroot := reads_condition.required "root" hc.2 (has_of_record h (by simp)) (pass_of_record h rfl)
  have haction := (reads_choice PredicateAction.label PredicateAction.all).required "action" hc.2
    (has_of_record h (by simp)) (pass_of_record h rfl)
  rw [Predicate.ofTree?, fields?_ofJson (distinct_of_ascending hc.1)]
  simp [Option.isSome_bind, any_const, IsReadablePredicate, PredicateAction.ofTree?, hroot, haction]

theorem reads_definition : Reads (Schema.record ["predicate"] [("predicate", Schema.predicate)])
    Predicate.ofDefinition? fun j => ∀ p ∈ j.field "predicate", IsReadablePredicate p := by
  intro j hc h
  obtain ⟨ms, rfl⟩ := object_of_record h
  have hpredicate := reads_predicate.required "predicate" hc.2 (has_of_record h (by simp)) (pass_of_record h rfl)
  rw [Predicate.ofDefinition?, fields?_ofJson (distinct_of_ascending hc.1)]
  exact hpredicate

theorem reads_usage : Reads Schema.usage StoredUsage.ofTree? fun u => ∀ j ∈ u.field "id", IsWord j := by
  intro j hc h
  obtain ⟨ms, rfl⟩ := object_of_record h
  have hid := (reads_integer 0).required "id" hc.2 (has_of_record h (by simp)) (pass_of_record h rfl)
  have hoptional := reads_boolean.defaulted "optional" false hc.2 (pass_of_record h rfl)
  have hcorrection := reads_boolean.defaulted "addressCorrectionEnabled" false hc.2 (pass_of_record h rfl)
  rw [StoredUsage.ofTree?, fields?_ofJson (distinct_of_ascending hc.1)]
  simp [Option.isSome_bind, any_const, hid, hoptional, hcorrection]

/-- What the reader asks of a block. -/
def Json.IsReadableBlock (b : Json) : Prop :=
  (∀ j ∈ b.field "id", IsWord j) ∧ (∀ j ∈ b.field "enumeratorId", IsWord j) ∧
    (∀ u ∈ b.usageNodes, ∀ j ∈ u.field "id", IsWord j) ∧ ∀ l ∈ b.blockLeafNodes, IsReadableLeaf l

theorem reads_block : Reads Schema.block StoredBlock.ofTree? IsReadableBlock := by
  intro j hc h
  obtain ⟨ms, rfl⟩ := object_of_record h
  have hid := (reads_integer 1).required "id" hc.2 (has_of_record h (by simp)) (pass_of_record h rfl)
  have hname := (reads_string 0).required "name" hc.2 (has_of_record h (by simp)) (pass_of_record h rfl)
  have hdescription := (reads_string 0).defaulted "description" "" hc.2 (pass_of_record h rfl)
  have henumerator := (reads_integer 1).optional "enumeratorId" rfl hc.2 (pass_of_record h rfl)
  have hisEnumerator := reads_boolean.defaulted "isEnumerator" false hc.2 (pass_of_record h rfl)
  have hquestions := (reads_list reads_usage).defaulted "questions" [] hc.2 (pass_of_record h rfl)
  have hvisibility := reads_predicate.optional "visibilityPredicate" rfl hc.2 (pass_of_record h rfl)
  have heligibility := reads_definition.optional "eligibilityDefinition" rfl hc.2 (pass_of_record h rfl)
  rw [StoredBlock.ofTree?, fields?_ofJson (distinct_of_ascending hc.1)]
  simp only [IsReadableBlock, usageNodes, blockLeafNodes, List.forall_mem_append, List.forall_mem_flatMap]
  simp only [List.map_cons, List.map_nil, Option.bind_eq_bind, Option.bind_some, Option.isSome_bind,
    Option.isSome_some, Option.any_true, any_const, Bool.and_eq_true, implies_true, true_and, IsReadablePredicate,
    hid, hname, hdescription, henumerator, hisEnumerator, hquestions, hvisibility, heligibility]

theorem reads_program : Reads Schema.program StoredProgram.ofTree? fun j =>
    (∀ n ∈ j.field "id", IsWord n) ∧ ∀ b ∈ j.blockNodes, IsReadableBlock b := by
  intro j hc h
  obtain ⟨ms, rfl⟩ := object_of_record h
  have hid := (reads_integer 0).required "id" hc.2 (has_of_record h (by simp)) (pass_of_record h rfl)
  have hname := (reads_string 1).required "adminName" hc.2 (has_of_record h (by simp)) (pass_of_record h rfl)
  have hdescription := (reads_string 0).defaulted "adminDescription" "" hc.2 (pass_of_record h rfl)
  have hlink := (reads_string 0).defaulted "externalLink" "" hc.2 (pass_of_record h rfl)
  have hnames := reads_texts.defaulted "localizedName" ∅ hc.2 (pass_of_record h rfl)
  have hdescriptions := reads_texts.defaulted "localizedDescription" ∅ hc.2 (pass_of_record h rfl)
  have htype := (reads_choice ProgramType.label ProgramType.all).defaulted "programType" .standard hc.2
    (pass_of_record h rfl)
  have hgating := reads_boolean.defaulted "eligibilityIsGating" false hc.2 (pass_of_record h rfl)
  have hblocks := (reads_list reads_block).required "blockDefinitions" hc.2 (has_of_record h (by simp))
    (pass_of_record h rfl)
  rw [StoredProgram.ofTree?, fields?_ofJson (distinct_of_ascending hc.1)]
  simp only [blockNodes, List.forall_mem_flatMap]
  simp only [List.map_cons, List.map_nil, Option.bind_eq_bind, Option.bind_some, Option.isSome_bind,
    Option.isSome_some, Option.any_true, any_const, Bool.and_eq_true, implies_true, true_and, ProgramType.ofTree?,
    hid, hname, hdescription, hlink, hnames, hdescriptions, htype, hgating, hblocks]

end Records

/-- **The schema and the reader agree** but for two gaps: a value that meets the schema is read as a program
exactly if each id in it is an integer literal in the range of words and each operator one of the twelve. -/
theorem schema_reader_agree (v : JsonValue) (h : Schema.program v.json = true) :
    (StoredProgram.ofJson? v.json).isSome = true ↔
      (∀ j ∈ v.json.identifiers, j.IsWord) ∧ ∀ j ∈ v.json.operators, j.IsOperator := by
  rw [StoredProgram.ofJson?, reads_program v.json v.canonical h]
  simp only [identifiers, operators, List.forall_mem_append, List.forall_mem_flatMap, IsReadableBlock,
    IsReadableLeaf, forall_and]
  tauto

/-- A program with one block, shown when the answer to a question is in some relation to a text. -/
def inquiry (relation : String) : JsonValue where
  json :=
    let leaf : Json := .object [("children", .null), ("node", .string "leaf"), ("operator", .string relation),
      ("questionId", .word 4), ("scalar", .string "text"), ("value", .string "yes")]
    let root : Json := .object [("children", .array [leaf]), ("node", .string "and")]
    let block : Json := .object [("id", .word 1), ("name", .string "income"),
      ("visibilityPredicate", .object [("action", .string "show_block"), ("root", root)])]
    .object [("adminName", .string "aid"), ("blockDefinitions", .array [block]), ("id", .word 7)]
  canonical := by
    simp [Json.Canonical, Json.word, MembersCanonical, AllCanonical, Entries.Ascending]
    decide

theorem schema_reader_agree_inquiry :
    Schema.program (inquiry "equal").json = true ∧
      (StoredProgram.ofJson? (inquiry "equal").json).isSome = true ∧
      Schema.program (inquiry "like").json = true ∧
      (StoredProgram.ofJson? (inquiry "like").json).isSome = false := by
  have hequal : Schema.program (inquiry "equal").json = true := by decide
  have hlike : Schema.program (inquiry "like").json = true := by decide
  refine ⟨hequal, (schema_reader_agree _ hequal).2 ⟨?_, ?_⟩, hlike, ?_⟩
  · have hids : (inquiry "equal").json.identifiers = [.word 7, .word 1, .word 4] := rfl
    simp [hids, IsWord]
  · have hoperators : (inquiry "equal").json.operators = [.string "equal"] := rfl
    rw [hoperators, List.forall_mem_singleton]
    exact ⟨.equal, rfl⟩
  · rw [Bool.eq_false_iff, ne_eq, schema_reader_agree _ hlike]
    rintro ⟨-, hoperators⟩
    obtain ⟨o, ho⟩ := hoperators (.string "like") (List.mem_singleton_self _)
    cases o <;> simp [Operator.label] at ho

end FormProgram
