/-
The stored form is read back from what is written for it, member by member: each record settles to the
members that its reader looks up, whatever their order. Only the values that leaves compare with are read
as something else, namely as what they settle to.
-/
import FormProgram.Proofs.Settled
import FormProgram.Stored.Document

set_option autoImplicit false

namespace FormProgram

open Json

def JsonValue.settle (v : JsonValue) : JsonValue := ⟨v.json.settle, Json.canonical_settle v.json⟩

def Comparison.settle (c : Comparison) : Comparison := { c with value := c.value.settle }

namespace Condition

mutual

def settle : Condition → Condition
  | .leaf c => .leaf c.settle
  | .all children => .all (settleAll children)
  | .any children => .any (settleAll children)

def settleAll : List Condition → List Condition
  | [] => []
  | c :: rest => settle c :: settleAll rest

end

end Condition

def Predicate.settle (p : Predicate) : Predicate := { p with root := p.root.settle }

def StoredBlock.settle (b : StoredBlock) : StoredBlock :=
  { b with visibility := b.visibility.map Predicate.settle, eligibility := b.eligibility.map Predicate.settle }

def StoredProgram.settle (p : StoredProgram) : StoredProgram :=
  { p with blocks := p.blocks.map StoredBlock.settle }

theorem Operator.lookup_label (o : Operator) : (named Operator.label Operator.all).lookup o.label = some o := by
  cases o <;> rfl

theorem PredicateAction.lookup_label (a : PredicateAction) : (named label all).lookup a.label = some a := by
  cases a <;> rfl

theorem ProgramType.lookup_label (t : ProgramType) : (named label all).lookup t.label = some t := by
  cases t <;> rfl

theorem toValue?_back (v : JsonValue) : v.json.back.toValue? = some v.settle := by
  have hmap := Tree.map_toValue? v.json.back
  rw [value?_back] at hmap
  obtain ⟨w, hw, hjson⟩ := Option.map_eq_some_iff.1 hmap
  rw [hw]
  cases w
  cases hjson
  rfl

theorem Operator.ofNested?_back (o : Operator) : Operator.ofNested? (back (.string o.label)) = some o :=
  o.lookup_label

theorem Comparison.ofTree?_back (c : Comparison) :
    Comparison.ofTree? (back (.object (("node", .string "leaf") :: c.members))) = some c.settle := by
  rw [Comparison.ofTree?, fields?_back (by simp [DistinctNames, members])]
  simp [members, List.lookup_cons, List.lookup_nil, Tree.required, word?_back, string?_back, toValue?_back, Operator.ofNested?_back,
    settle]

namespace Condition

theorem childLists?_eq (members : List (String × Tree)) :
    childLists? members = (members.filter (·.1 == "children")).map fun m => readList? m.2 := by
  induction members with
  | nil => rfl
  | cons m members ih =>
    obtain ⟨name, t⟩ := m
    rw [childLists?, List.filter_cons, ih]
    split <;> rfl

theorem childLists?_eq_lookup {members : List (String × Tree)} (hd : DistinctNames members) :
    childLists? members = (members.lookup "children").toList.map readList? := by
  rw [childLists?_eq, filter_eq_lookup hd]
  cases members.lookup "children" <;> rfl

theorem childLists?_backMembers {ms : List (String × Json)} (hd : DistinctNames ms) :
    childLists? (backMembers ms) = ((ms.lookup "children").toList.map fun j => readList? j.back) := by
  rw [childLists?_eq_lookup (distinct_backMembers hd), lookup_backMembers hd]
  cases ms.lookup "children" <;> rfl

theorem distinct_children (tag : String) (j : Json) :
    DistinctNames [("node", .string tag), ("children", j)] := by
  simp [DistinctNames]

/-- The one list of children that is found where children have been written. -/
theorem childLists?_children (tag : String) {children : List Condition}
    (h : readAll? ((toJsons children).map back) = some (settleAll children)) :
    childLists? (backMembers [("node", .string tag), ("children", .array (toJsons children))]) =
      [some (settleAll children)] := by
  have hlist : readList? (back (.array (toJsons children))) = some (settleAll children) := by
    rw [back_array, readList?, h]
  rw [childLists?_backMembers (distinct_children ..)]
  exact congrArg (fun read => [read]) hlist

mutual

/-- **A condition is read back**, on its own and inside of another one. -/
theorem read?_back : ∀ (inner : Bool) (c : Condition), read? inner c.toJson.back = some c.settle
  | inner, .leaf c => by
    have hd : DistinctNames (("node", .string "leaf") :: c.members) := by
      simp [DistinctNames, Comparison.members]
    have hleaf := c.ofTree?_back
    rw [back_object] at hleaf
    rw [toJson, back_object, read?, member?_backMembers hd, hleaf]
    rfl
  | inner, .all children => by
    have hd := distinct_children "and" (.array (toJsons children))
    rw [toJson, back_object, read?, member?_backMembers hd, childLists?_children "and" (readAll?_back children)]
    rfl
  | inner, .any children => by
    have hd := distinct_children "or" (.array (toJsons children))
    rw [toJson, back_object, read?, member?_backMembers hd, childLists?_children "or" (readAll?_back children)]
    rfl

theorem readAll?_back :
    ∀ children : List Condition, readAll? ((toJsons children).map back) = some (settleAll children)
  | [] => rfl
  | c :: children => by
    rw [toJsons, List.map_cons, readAll?, read?_back true c, readAll?_back children]
    rfl

end

theorem ofTree?_back (c : Condition) : ofTree? c.toJson.back = some c.settle := by
  rw [ofTree?, value?_back, read?_back]

end Condition

theorem Predicate.ofTree?_back (p : Predicate) : Predicate.ofTree? p.toJson.back = some p.settle := by
  have haction : PredicateAction.ofTree? (back (.string p.action.label)) = some p.action :=
    p.action.lookup_label
  rw [toJson, Predicate.ofTree?, fields?_back (by simp [DistinctNames])]
  simp [List.lookup_cons, List.lookup_nil, Tree.required, Condition.ofTree?_back, haction, settle]

theorem Predicate.ofDefinition?_back (p : Predicate) :
    Predicate.ofDefinition? (back (.object [("predicate", p.toJson)])) = some p.settle := by
  rw [ofDefinition?, fields?_back (by simp [DistinctNames])]
  simp [List.lookup_cons, List.lookup_nil, Tree.required, Predicate.ofTree?_back]

theorem StoredUsage.ofTree?_back (u : StoredUsage) : StoredUsage.ofTree? u.toJson.back = some u := by
  rw [toJson, StoredUsage.ofTree?, fields?_back (by simp [DistinctNames])]
  simp [List.lookup_cons, List.lookup_nil, Tree.required, Tree.defaulted, word?_back, flag?_back]

/-- A list of records is read back. -/
theorem list?_back_map {α : Type} {write : α → Json} {read : Tree → Option α} {f : α → α}
    (h : ∀ a, read (write a).back = some (f a)) (l : List α) :
    (back (.array (l.map write))).list? read = some (l.map f) := by
  rw [list?_back, mapM_eq_some_iff, List.forall₂_map_left_iff, List.forall₂_map_right_iff, List.forall₂_same]
  exact fun a _ => h a

section Present

variable {α : Type} {name : String} {write : α → Json} {o : Option α}

theorem lookup_present (other : String) :
    (present name write o).lookup other = if other == name then o.map write else none := by
  cases o with
  | none => simp [present]
  | some a =>
    rw [present, List.lookup_cons]
    cases other == name <;> rfl

/-- A member that may be left out is read back. -/
theorem optional_back {read : Tree → Option α} {f : α → α} (hnull : read .null = none)
    (h : ∀ a, read (write a).back = some (f a)) :
    Tree.optional read (o.map (back ∘ write)) = some (o.map f) := by
  cases o with
  | none => rfl
  | some a =>
    -- What is written is never null, which would be read as nothing.
    have hread := h a
    rw [Option.map_some, Function.comp_apply]
    cases hb : (write a).back <;> rw [hb] at hread
    case null =>
      rw [hnull] at hread
      cases hread
    all_goals
      rw [Tree.optional, hread]
      · rfl
      · exact nofun

end Present

namespace StoredBlock

theorem distinct_members (b : StoredBlock) : DistinctNames
    ([("id", .word b.id), ("name", .string b.name), ("description", .string b.description)]
      ++ Json.present "enumeratorId" .word b.enumerator
      ++ [("isEnumerator", .bool b.isEnumerator), ("questions", .array (b.questions.map (·.toJson)))]
      ++ Json.present "visibilityPredicate" Predicate.toJson b.visibility
      ++ Json.present "eligibilityDefinition" (fun p => .object [("predicate", p.toJson)]) b.eligibility) := by
  cases b.enumerator <;> cases b.visibility <;> cases b.eligibility <;> simp [DistinctNames, present]

theorem ofTree?_back (b : StoredBlock) : ofTree? b.toJson.back = some b.settle := by
  have hquestions := list?_back_map StoredUsage.ofTree?_back b.questions
  have henumerator : Tree.optional Tree.word? (b.enumerator.map (back ∘ word)) =
      some (b.enumerator.map fun e => e) := optional_back rfl word?_back
  rw [List.map_id'] at hquestions
  rw [Option.map_id'] at henumerator
  rw [toJson, ofTree?, fields?_back b.distinct_members]
  simp [List.lookup_append, List.lookup_cons, lookup_present, Tree.required, Tree.defaulted, word?_back,
    string?_back, flag?_back, henumerator, hquestions, optional_back rfl Predicate.ofTree?_back,
    optional_back rfl Predicate.ofDefinition?_back, settle]

end StoredBlock

theorem plain_texts (entries : List (String × String)) :
    MembersCanonical (entries.map fun (locale, text) => (locale, .string text)) ∧
      floatFreeMembers (entries.map fun (locale, text) => (locale, .string text)) = true := by
  induction entries with
  | nil => exact ⟨trivial, rfl⟩
  | cons e entries ih => exact ⟨⟨trivial, ih.1⟩, ih.2⟩

/-- Localized texts are written in the order in which they are read. -/
theorem settle_texts (m : SortedMap String String) : (Json.texts m).settle = Json.texts m :=
  settle_eq_self ⟨List.pairwise_map.2 m.ascending, (plain_texts m.entries).1⟩ (plain_texts m.entries).2

theorem mapM_texts (entries : List (String × String)) :
    (Tree.ofNamed (entries.map fun (locale, text) => (locale, .string text))).mapM
      (fun (m : String × Tree) => m.2.string?.map fun s => (m.1, s)) = some entries := by
  rw [ofNamed_eq_map, mapM_eq_some_iff, List.forall₂_map_left_iff, List.forall₂_map_left_iff, List.forall₂_same]
  exact fun _ _ => rfl

theorem texts?_back (m : SortedMap String String) : (Json.texts m).back.texts? = some m := by
  rw [back, settle_texts, texts, Tree.ofJson, Tree.texts?, mapM_texts, Option.map_some,
    SortedMap.ofList_entries]

theorem StoredProgram.ofTree?_back (p : StoredProgram) : ofTree? p.toJson.back = some p.settle := by
  have hblocks := list?_back_map StoredBlock.ofTree?_back p.blocks
  have htype : ProgramType.ofTree? (back (.string p.details.type.label)) = some p.details.type :=
    p.details.type.lookup_label
  rw [toJson, ofTree?, fields?_back (by simp [DistinctNames, Details.members])]
  simp [List.lookup_cons, Details.members, Tree.required, Tree.defaulted, word?_back, string?_back,
    flag?_back, texts?_back, hblocks, htype, settle]

end FormProgram
