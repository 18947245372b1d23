/-
A block is read alike off the tree of its text and off the value of that tree, if it meets the schema and repeats no
member that is looked for (`readsAlike_block`).

The value has each member of an object once, the last one of its name, and knows nothing of the order in which they
stood. So the two readings can differ only where a name is looked up that stands twice: a straight reader gives up
on it, while the value has one of the two. `blockOnce` rules that out, and nothing more: what is not looked for may
repeat, and so may what stands inside of the value that a leaf compares with.
-/
import FormProgram.Proofs.SchemaAgreement

set_option autoImplicit false

namespace FormProgram

open Json

/-! ## Nothing that is looked for stands twice -/

namespace Json.Tree

/-- At most one member has the name. -/
def single (name : String) (members : List (String × Tree)) : Bool :=
  (members.filter (·.1 == name)).length ≤ 1

/-- An object has each field once at most, and what it has in the field passes the field's own check. -/
def once (fields : List (String × (Tree → Bool))) : Tree → Bool
  | .object members => fields.all fun (name, check) =>
      single name members && members.all fun (n, t) => n != name || check t
  | _ => true

def eachOnce (item : Tree → Bool) : Tree → Bool
  | .array items => items.all item
  | _ => true

/-- For a field whose value holds no records. -/
def plain : Tree → Bool := fun _ => true

mutual

/-- No condition repeats its tag, no leaf one of its fields, and no other condition its children. -/
def conditionOnce : Tree → Bool
  | .object members =>
    single "node" members &&
      match members.lookup "node" with
      | some (.string "leaf") => ["questionId", "scalar", "operator", "value"].all (single · members)
      | _ => single "children" members && childrenOnce members
  | _ => true

def childrenOnce : List (String × Tree) → Bool
  | [] => true
  | (name, t) :: rest => (name != "children" || conditionListOnce t) && childrenOnce rest

def conditionListOnce : Tree → Bool
  | .array items => conditionsOnce items
  | _ => true

def conditionsOnce : List Tree → Bool
  | [] => true
  | t :: rest => conditionOnce t && conditionsOnce rest

end

def predicateOnce : Tree → Bool := once [("root", conditionOnce), ("action", plain)]

def usageOnce : Tree → Bool :=
  once [("id", plain), ("optional", plain), ("addressCorrectionEnabled", plain)]

/-- No record and no condition of a block repeats a member that is looked for in it. -/
def blockOnce : Tree → Bool :=
  once [("id", plain), ("name", plain), ("description", plain), ("enumeratorId", plain), ("isEnumerator", plain),
    ("questions", eachOnce usageOnce), ("visibilityPredicate", predicateOnce),
    ("eligibilityDefinition", once [("predicate", predicateOnce)])]

end Json.Tree

/-! ## Members of a tree and of its value -/

namespace Entries

variable {α : Type} {name n : String} {a : α} {l : List (String × α)}

theorem lookup_of_lt (h : ∀ e ∈ l, compare n e.1 = .lt) : l.lookup n = none := by
  rw [List.lookup_eq_none_iff]
  intro e he
  have hlt := h e he
  rw [bne_iff_ne]
  intro heq
  have hself : compare e.1 e.1 = .eq := Std.ReflCmp.compare_self
  rw [heq, hself] at hlt
  cases hlt

theorem lookup_add (h : Ascending l) :
    (add n a l).lookup name = if name == n then some ((l.lookup n).getD a) else l.lookup name := by
  induction l with
  | nil =>
    rw [add, List.lookup_cons]
    cases name == n <;> rfl
  | cons e l ih =>
    obtain ⟨k, b⟩ := e
    have hrest := List.pairwise_cons.1 h
    rw [add]
    split
    next hlt =>
      -- The name comes before all others, so it is not among them.
      have hnone : ((k, b) :: l).lookup n = none := by
        refine lookup_of_lt (List.forall_mem_cons.2 ⟨hlt, fun e he => ?_⟩)
        exact Std.TransCmp.lt_trans hlt (hrest.1 e he)
      rw [hnone, List.lookup_cons]
      cases name == n <;> rfl
    next heq =>
      have hk : n = k := Std.LawfulEqCmp.eq_of_compare heq
      by_cases hname : name = n
      · simp [hname, hk]
      · simp [hname]
    next hgt =>
      have hne : (n == k) = false := by
        rw [beq_eq_false_iff_ne]
        intro hk
        have hself : compare k k = .eq := Std.ReflCmp.compare_self
        rw [hk, hself] at hgt
        cases hgt
      by_cases hname : name = k
      · have hne' : (k == n) = false := by rw [BEq.comm, hne]
        simp [hname, hne']
      · have hname : (name == k) = false := beq_eq_false_iff_ne.2 hname
        simp [List.lookup_cons, hne, hname, ih hrest.2]

end Entries

namespace Json.Tree

variable {ms : List (String × Tree)} {js : List (String × Json)} {name : String}

theorem lookup_eq_none (h : ms.filter (·.1 == name) = []) : ms.lookup name = none := by
  rw [List.lookup_eq_none_iff]
  intro m hm
  simpa [BEq.comm] using List.filter_eq_nil_iff.1 h m hm

theorem filter_of_single (h : single name ms = true) :
    ms.filter (·.1 == name) = (ms.lookup name).toList.map (name, ·) :=
  filter_eq_lookup_of_le (of_decide_eq_true h)

theorem member?_of_single (h : single name ms = true) : member? name ms = some (ms.lookup name) := by
  rw [member?, filter_of_single h]
  cases ms.lookup name <;> rfl

theorem fields?_of_single {names : List String} (h : ∀ name ∈ names, single name ms = true) :
    (object ms).fields? names = some (names.map (ms.lookup ·)) := by
  rw [fields?]
  induction names with
  | nil => rfl
  | cons name names ih =>
    have h := List.forall_mem_cons.1 h
    rw [List.mapM_cons, member?_of_single h.1, ih h.2]
    rfl

theorem childLists?_of_single (h : single "children" ms = true) :
    Condition.childLists? ms = (ms.lookup "children").toList.map Condition.readList? := by
  rw [Condition.childLists?_eq, filter_of_single h]
  cases ms.lookup "children" <;> rfl

theorem values?_eq_some_iff {ts : List Tree} {js : List Json} :
    values? ts = some js ↔ List.Forall₂ (fun t j => t.value? = some j) ts js := by
  induction ts generalizing js with
  | nil => simp [values?, eq_comm]
  | cons t ts ih =>
    rw [values?]
    cases ht : t.value? with
    | none => cases js <;> simp [ht]
    | some j =>
      cases hts : values? ts with
      | none => cases js <;> simp [← ih, hts]
      | some js' => cases js <;> simp [← ih, ht, hts]

theorem memberValues?_cons {n : String} {t : Tree} (h : memberValues? ((n, t) :: ms) = some js) :
    ∃ j js', t.value? = some j ∧ memberValues? ms = some js' ∧ js = Entries.add n j js' := by
  rw [memberValues?] at h
  split at h
  next j js' hj hjs =>
    cases h
    exact ⟨j, js', hj, hjs, rfl⟩
  next => cases h

/-- A field of a tree and the same field of its value. -/
inductive FieldAlike : Option Tree → Option Json → Prop
  | absent : FieldAlike none none
  | present {t : Tree} {j : Json} (h : t.value? = some j) : FieldAlike (some t) (some j)

theorem FieldAlike.eq_none {j : Option Json} (h : FieldAlike none j) : j = none := by
  cases h
  rfl

/-- A name that does not repeat stands in the value for what it stands for in the tree. -/
theorem fieldAlike_lookup (h : memberValues? ms = some js) (hs : single name ms = true) :
    FieldAlike (ms.lookup name) (js.lookup name) := by
  induction ms generalizing js with
  | nil =>
    cases h
    exact .absent
  | cons m ms ih =>
    obtain ⟨n, t⟩ := m
    obtain ⟨j, js', hj, hjs, rfl⟩ := memberValues?_cons h
    rw [Entries.lookup_add (canonical_of_memberValues? hjs).1, List.lookup_cons]
    rw [single, List.filter_cons] at hs
    by_cases hn : name = n
    · subst hn
      have hnil : ms.filter (·.1 == name) = [] := by simpa using hs
      have hrest := ih hjs (by simp [single, hnil])
      rw [lookup_eq_none hnil] at hrest
      simp only [beq_self_eq_true, if_true, hrest.eq_none, Option.getD_none]
      exact .present hj
    · have hne : (n == name) = false := beq_eq_false_iff_ne.2 (Ne.symm hn)
      have hne' : (name == n) = false := beq_eq_false_iff_ne.2 hn
      rw [hne] at hs
      simp only [hne', Bool.false_eq_true, if_false]
      exact ih hjs hs

/-- A name that stands nowhere in the tree stands nowhere in the value. -/
theorem lookup_eq_none_of_value (h : memberValues? ms = some js) (hname : name ∉ ms.map (·.1)) :
    js.lookup name = none := by
  have hnil : ms.filter (·.1 == name) = [] := by
    rw [List.filter_eq_nil_iff]
    intro m hm heq
    exact hname (List.mem_map.2 ⟨m, hm, eq_of_beq heq⟩)
  have hfield := fieldAlike_lookup h (by simp [single, hnil] : single name ms = true)
  rw [lookup_eq_none hnil] at hfield
  exact hfield.eq_none

theorem object_of_value? {t : Tree} {js : List (String × Json)} (h : t.value? = some (.object js)) :
    ∃ ms, t = .object ms ∧ memberValues? ms = some js := by
  cases t with
  | object ms =>
    obtain ⟨js', hjs, heq⟩ := Option.map_eq_some_iff.1 h
    cases heq
    exact ⟨ms, rfl, hjs⟩
  | array items =>
    obtain ⟨_, -, heq⟩ := Option.map_eq_some_iff.1 h
    cases heq
  | null | bool | number | string | void => cases h

theorem array_of_value? {t : Tree} {js : List Json} (h : t.value? = some (.array js)) :
    ∃ ts, t = .array ts ∧ values? ts = some js := by
  cases t with
  | array ts =>
    obtain ⟨js', hjs, heq⟩ := Option.map_eq_some_iff.1 h
    cases heq
    exact ⟨ts, rfl, hjs⟩
  | object members =>
    obtain ⟨_, -, heq⟩ := Option.map_eq_some_iff.1 h
    cases heq
  | null | bool | number | string | void => cases h

theorem string_of_value? {t : Tree} {s : String} (h : t.value? = some (.string s)) : t = .string s := by
  cases t with
  | string s' =>
    cases h
    rfl
  | array items | object members =>
    obtain ⟨_, -, heq⟩ := Option.map_eq_some_iff.1 h
    cases heq
  | null | bool | number | void => cases h

theorem FieldAlike.exists_tree {t : Option Tree} {j : Json} (h : FieldAlike t (some j)) :
    ∃ t', t = some t' ∧ t'.value? = some j := by
  cases h with
  | present hj => exact ⟨_, rfl, hj⟩

/-- Where a string stands in the value, the same string stands in the tree. -/
theorem lookup_of_fieldAlike {t : Option Tree} {s : String} (h : FieldAlike t (some (.string s))) :
    t = some (.string s) := by
  obtain ⟨t', rfl, hs⟩ := h.exists_tree
  rw [string_of_value? hs]

end Json.Tree

/-! ## Reading a tree and reading its value -/

/-- What passes the check as a value, and repeats nothing as a tree, is read alike as both. -/
def ReadsAlike {α : Type} (check : Json → Bool) (once : Tree → Bool) (read : Tree → Option α) : Prop :=
  ∀ (t : Tree) (j : Json), t.value? = some j → check j = true → once t = true → read t = read (Tree.ofJson j)

namespace ReadsAlike

variable {α : Type} {check : Json → Bool} {once : Tree → Bool} {read : Tree → Option α}

/-- What is asked of a field, in the tree and in its value. -/
structure Field (check : Json → Bool) (once : Tree → Bool) (t : Option Tree) (j : Option Json) : Prop where
  alike : Tree.FieldAlike t j
  pass : ∀ i ∈ j, check i = true
  once : ∀ i ∈ t, once i = true

theorem required (hr : ReadsAlike check once read) {t : Option Tree} {j : Option Json}
    (h : Field check once t j) : Tree.required read t = Tree.required read (j.map Tree.ofJson) := by
  cases h.alike with
  | absent => rfl
  | present hj => exact hr _ _ hj (h.pass _ rfl) (h.once _ rfl)

theorem defaulted (hr : ReadsAlike check once read) (a : α) {t : Option Tree} {j : Option Json}
    (h : Field check once t j) : Tree.defaulted a read t = Tree.defaulted a read (j.map Tree.ofJson) := by
  cases h.alike with
  | absent => rfl
  | present hj => exact hr _ _ hj (h.pass _ rfl) (h.once _ rfl)

theorem optional (hr : ReadsAlike check once read) (hnull : check .null = false) {t : Option Tree}
    {j : Option Json} (h : Field check once t j) :
    Tree.optional read t = Tree.optional read (j.map Tree.ofJson) := by
  cases h.alike with
  | absent => rfl
  | @present t j hj =>
    have hpass := h.pass _ rfl
    have hread := hr _ _ hj hpass (h.once _ rfl)
    -- Neither is null.
    have hj' : Tree.ofJson j ≠ .null := by
      intro heq
      cases j with
      | null =>
        rw [hnull] at hpass
        cases hpass
      | bool | number | string | array | object => cases heq
    have ht : t ≠ .null := by
      intro heq
      subst heq
      cases hj
      exact hj' rfl
    rw [Option.map_some, Tree.optional, Tree.optional, hread]
    · exact hj'
    · exact ht

end ReadsAlike

section Plain

variable {check : Json → Bool} {once : Tree → Bool}

/-- A reader of plain values reads nothing off an array or an object, and all other trees are their values. -/
theorem readsAlike_of_plain {α : Type} {read : Tree → Option α} (harray : ∀ items, read (.array items) = none)
    (hobject : ∀ members, read (.object members) = none) : ReadsAlike check once read := by
  intro t j hj _ _
  cases t with
  | array items =>
    obtain ⟨js, -, rfl⟩ := Option.map_eq_some_iff.1 hj
    rw [Tree.ofJson, harray, harray]
  | object members =>
    obtain ⟨js, -, rfl⟩ := Option.map_eq_some_iff.1 hj
    rw [Tree.ofJson, hobject, hobject]
  | void => cases hj
  | null | bool | number | string =>
    cases hj
    rfl

theorem readsAlike_word : ReadsAlike check once Tree.word? := readsAlike_of_plain (fun _ => rfl) fun _ => rfl

theorem readsAlike_string : ReadsAlike check once Tree.string? := readsAlike_of_plain (fun _ => rfl) fun _ => rfl

theorem readsAlike_flag : ReadsAlike check once Tree.flag? := readsAlike_of_plain (fun _ => rfl) fun _ => rfl

/-- A string is its own value, whatever reads it. -/
theorem readsAlike_of_strings {α : Type} {read : Tree → Option α} (h : ∀ j, check j = true → ∃ s, j = .string s) :
    ReadsAlike check once read := by
  intro t j hj hcheck _
  obtain ⟨s, rfl⟩ := h j hcheck
  rw [Tree.string_of_value? hj, Tree.ofJson]

theorem string_of_oneOf {names : List String} {j : Json} (h : Schema.oneOf names j = true) :
    ∃ s, j = .string s := by
  cases j with
  | string s => exact ⟨s, rfl⟩
  | null | bool | number | array | object => cases h

theorem string_of_string {least : Nat} {j : Json} (h : Schema.string least j = true) : ∃ s, j = .string s := by
  cases j with
  | string s => exact ⟨s, rfl⟩
  | null | bool | number | array | object => cases h

theorem readsAlike_choice {α : Type} {names : List String} (choices : List (String × α)) :
    ReadsAlike (Schema.oneOf names) once (Tree.choice? choices) := readsAlike_of_strings fun _ => string_of_oneOf

theorem readsAlike_operator : ReadsAlike (Schema.string 0) once Operator.ofNested? :=
  readsAlike_of_strings fun _ => string_of_string

/-- Where a value of any kind is read, it is the value of the tree. -/
theorem readsAlike_value : ReadsAlike check once Tree.toValue? := by
  intro t j hj _ _
  have ht := Tree.map_toValue? t
  have hback := Tree.map_toValue? (Tree.ofJson j)
  rw [hj] at ht
  rw [Tree.value?_ofJson (Tree.canonical_of_value? hj)] at hback
  obtain ⟨v, hv, hjson⟩ := Option.map_eq_some_iff.1 ht
  obtain ⟨w, hw, hjson'⟩ := Option.map_eq_some_iff.1 hback
  rw [hv, hw]
  cases v
  cases w
  cases hjson
  cases hjson'
  rfl

theorem readsAlike_list {α : Type} {item : Json → Bool} {read : Tree → Option α}
    (hr : ReadsAlike item once read) : ReadsAlike (Schema.list item) (Tree.eachOnce once) (Tree.list? read) := by
  intro t j hj hcheck honce
  cases j with
  | array js =>
    obtain ⟨ts, rfl, hjs⟩ := Tree.array_of_value? hj
    rw [Tree.ofJson, Tree.list?, Tree.list?]
    rw [Schema.list] at hcheck
    rw [Tree.eachOnce] at honce
    have hrow := Tree.values?_eq_some_iff.1 hjs
    clear hj hjs
    induction hrow with
    | nil => rfl
    | @cons t j ts js hj _ ih =>
      rw [List.all_cons, Bool.and_eq_true] at hcheck honce
      rw [Tree.ofItems, List.mapM_cons, List.mapM_cons, hr t j hj hcheck.1 honce.1, ih hcheck.2 honce.2]
  | null | bool | number | string | object => cases hcheck

end Plain

/-! ## Conditions -/

section Conditions

open Tree

variable {ms : List (String × Tree)} {js : List (String × Json)}

theorem readsAlike_leaf (h : memberValues? ms = some js)
    (honce : ["questionId", "scalar", "operator", "value"].all (single · ms) = true)
    (hleaf : Schema.isLeaf js = true) :
    Comparison.ofTree? (.object ms) = Comparison.ofTree? (Tree.ofJson (.object js)) := by
  have hsingle := List.all_eq_true.1 honce
  have hoperators : Schema.whenThere js "operator" (Schema.string 0) = true := by
    rw [Schema.isLeaf, Bool.and_eq_true] at hleaf
    exact hleaf.2
  have hfield : ∀ name ∈ ["questionId", "scalar", "operator", "value"], ∀ check : Json → Bool,
      (∀ j, js.lookup name = some j → check j = true) →
      ReadsAlike.Field check plain (ms.lookup name) (js.lookup name) := fun name hname check hpass =>
    ⟨fieldAlike_lookup h (hsingle name hname), hpass, fun _ _ => rfl⟩
  have hquestion := readsAlike_word.required (hfield "questionId" (by simp) (fun _ => true) fun _ _ => rfl)
  have hscalar := readsAlike_string.required (hfield "scalar" (by simp) (fun _ => true) fun _ _ => rfl)
  have hoperator := readsAlike_operator.required
    (hfield "operator" (by simp) _ fun _ => pass_of_whenThere hoperators)
  have hvalue := readsAlike_value.required (hfield "value" (by simp) (fun _ => true) fun _ _ => rfl)
  rw [Comparison.ofTree?, fields?_of_single hsingle, Comparison.ofTree?,
    fields?_ofJson (distinct_of_ascending (canonical_of_memberValues? h).1)]
  simp [hquestion, hscalar, hoperator, hvalue]

theorem conditionList_of_childrenPass (h : Schema.childrenPass js = true) {j : Json}
    (hj : js.lookup "children" = some j) : Schema.conditionList j = true := by
  induction js with
  | nil => cases hj
  | cons m js ih =>
    obtain ⟨name, i⟩ := m
    rw [Schema.childrenPass, Bool.and_eq_true] at h
    rw [List.lookup_cons] at hj
    split at hj
    next hname =>
      cases hj
      simpa [← eq_of_beq hname] using h.1
    next => exact ih h.2 hj

mutual

/-- **A condition that meets the schema and repeats nothing is read alike**, on its own and inside of another one. -/
theorem read?_alike : ∀ (inner : Bool) (t : Tree) (j : Json), t.value? = some j → Schema.condition j = true →
    conditionOnce t = true → Condition.read? inner t = Condition.read? inner (Tree.ofJson j)
  | inner, .object ms, j, hj, hcheck, honce => by
    obtain ⟨js, hjs, rfl⟩ := Option.map_eq_some_iff.1 hj
    have hc := canonical_of_memberValues? hjs
    have hd : DistinctNames js := distinct_of_ascending hc.1
    rw [conditionOnce, Bool.and_eq_true] at honce
    obtain ⟨hsingle, honce⟩ := honce
    have htagged := fieldAlike_lookup hjs hsingle
    rw [Tree.ofJson, Condition.read?, Condition.read?, member?_of_single hsingle, member?_ofNamed hd]
    rcases condition_shape hcheck with ⟨hlookup, hleaf⟩ | ⟨tag, j, htag, hlookup, hj, hchildren⟩
    · rw [hlookup] at htagged
      have htree := lookup_of_fieldAlike htagged
      rw [htree] at honce
      have hread := readsAlike_leaf hjs honce hleaf
      rw [Tree.ofJson] at hread
      simp [htree, hlookup, Tree.ofJson, Condition.Tag.ofTree?, hread]
    · rw [hlookup] at htagged
      have htree := lookup_of_fieldAlike htagged
      have hchildrenOnce : (single "children" ms && childrenOnce ms) = true := by
        rcases htag with rfl | rfl <;> simpa [htree] using honce
      rw [Bool.and_eq_true] at hchildrenOnce
      have hfield := fieldAlike_lookup hjs hchildrenOnce.1
      rw [hj] at hfield
      -- The one list of children is read alike.
      have hlists : Condition.childLists? ms = [Condition.readList? (ofJson j)] := by
        rw [childLists?_of_single hchildrenOnce.1]
        obtain ⟨t, ht, htj⟩ := hfield.exists_tree
        rw [ht, Option.toList_some, List.map_singleton, lookup_children_alike ms t j ht htj
          (conditionList_of_childrenPass hchildren hj) hchildrenOnce.2]
      rw [htree, hlookup, hlists, childLists?_ofNamed hd hj]
      rcases htag with rfl | rfl <;>
        cases Condition.readList? (ofJson j) <;> simp [Tree.ofJson, Condition.Tag.ofTree?]
  | _, .null, _, h, hcheck, _ | _, .bool _, _, h, hcheck, _ | _, .number _, _, h, hcheck, _
  | _, .string _, _, h, hcheck, _ => by
    cases h
    cases hcheck
  | _, .array _, _, h, hcheck, _ => by
    obtain ⟨_, -, rfl⟩ := Option.map_eq_some_iff.1 h
    cases hcheck
  | _, .void, _, h, _, _ => by cases h

theorem lookup_children_alike : ∀ (ms : List (String × Tree)) (t : Tree) (j : Json),
    ms.lookup "children" = some t → t.value? = some j → Schema.conditionList j = true →
    childrenOnce ms = true → Condition.readList? t = Condition.readList? (Tree.ofJson j)
  | [], _, _, h, _, _, _ => by cases h
  | (name, t') :: ms, t, j, h, hj, hcheck, honce => by
    rw [childrenOnce, Bool.and_eq_true] at honce
    rw [List.lookup_cons] at h
    split at h
    next hname =>
      cases h
      have honce : conditionListOnce t' = true := by simpa [← eq_of_beq hname] using honce.1
      exact readList?_alike t' j hj hcheck honce
    next => exact lookup_children_alike ms t j h hj hcheck honce.2

theorem readList?_alike : ∀ (t : Tree) (j : Json), t.value? = some j → Schema.conditionList j = true →
    conditionListOnce t = true → Condition.readList? t = Condition.readList? (Tree.ofJson j)
  | .array ts, j, hj, hcheck, honce => by
    obtain ⟨js, hjs, rfl⟩ := Option.map_eq_some_iff.1 hj
    exact readAll?_alike ts js hjs hcheck honce
  | .null, _, h, hcheck, _ | .bool _, _, h, hcheck, _ | .number _, _, h, hcheck, _
  | .string _, _, h, hcheck, _ => by
    cases h
    cases hcheck
  | .object _, _, h, hcheck, _ => by
    obtain ⟨_, -, rfl⟩ := Option.map_eq_some_iff.1 h
    cases hcheck
  | .void, _, h, _, _ => by cases h

theorem readAll?_alike : ∀ (ts : List Tree) (js : List Json), values? ts = some js →
    Schema.conditions js = true → conditionsOnce ts = true →
    Condition.readAll? ts = Condition.readAll? (ofItems js)
  | [], _, h, _, _ => by
    cases h
    rfl
  | t :: ts, js, h, hcheck, honce => by
    cases values?_eq_some_iff.1 h with
    | @cons _ j _ js hj hjs =>
      rw [Schema.conditions, Bool.and_eq_true] at hcheck
      rw [conditionsOnce, Bool.and_eq_true] at honce
      rw [ofItems, Condition.readAll?, Condition.readAll?, read?_alike true t j hj hcheck.1 honce.1,
        readAll?_alike ts js (values?_eq_some_iff.2 hjs) hcheck.2 honce.2]

end

end Conditions

theorem readsAlike_condition : ReadsAlike Schema.condition Tree.conditionOnce Condition.ofTree? := by
  intro t j hj hcheck honce
  rw [Condition.ofTree?, Condition.ofTree?, hj, Tree.value?_ofJson (Tree.canonical_of_value? hj)]
  exact read?_alike false t j hj hcheck honce

/-! ## The stored form -/

section Records

open Tree

variable {ms : List (String × Tree)} {js : List (String × Json)} {needed : List String}
  {checks : List (String × (Json → Bool))} {fields : List (String × (Tree → Bool))}

theorem single_of_once (h : once fields (.object ms) = true) : ∀ name ∈ fields.map (·.1), single name ms = true := by
  intro name hname
  obtain ⟨field, hfield, rfl⟩ := List.mem_map.1 hname
  have hboth := List.all_eq_true.1 h field hfield
  rw [Bool.and_eq_true] at hboth
  exact hboth.1

theorem fields?_of_value (hjs : memberValues? ms = some js) (names : List String) :
    (ofJson (.object js)).fields? names = some (names.map fun name => (js.lookup name).map ofJson) :=
  fields?_ofJson (distinct_of_ascending (canonical_of_memberValues? hjs).1) names

theorem field_of_record (hjs : memberValues? ms = some js) (hcheck : Schema.record needed checks (.object js) = true)
    (honce : once fields (.object ms) = true) (name : String) {check : Json → Bool} {part : Tree → Bool}
    (hc : checks.lookup name = some check) (hp : fields.lookup name = some part) :
    ReadsAlike.Field check part (ms.lookup name) (js.lookup name) where
  alike := fieldAlike_lookup hjs (single_of_once honce name (List.mem_map_of_mem (mem_of_lookup hp)))
  pass j hj := pass_of_record hcheck hc j hj
  once t ht := by
    have hboth := List.all_eq_true.1 honce _ (mem_of_lookup hp)
    rw [Bool.and_eq_true] at hboth
    simpa using List.all_eq_true.1 hboth.2 _ (mem_of_lookup ht)

theorem readsAlike_predicate : ReadsAlike Schema.predicate predicateOnce Predicate.ofTree? := by
  intro t j hj hcheck honce
  obtain ⟨js, rfl⟩ := object_of_record hcheck
  obtain ⟨ms, rfl, hjs⟩ := object_of_value? hj
  have hfield := field_of_record hjs hcheck honce
  have hroot := readsAlike_condition.required (hfield "root" rfl rfl)
  have haction := (readsAlike_choice (named PredicateAction.label PredicateAction.all)).required
    (hfield "action" rfl rfl)
  rw [Predicate.ofTree?, Predicate.ofTree?, fields?_of_single, fields?_of_value hjs]
  · simp [PredicateAction.ofTree?, hroot, haction]
  · exact single_of_once honce

theorem readsAlike_definition : ReadsAlike (Schema.record ["predicate"] [("predicate", Schema.predicate)])
    (once [("predicate", predicateOnce)]) Predicate.ofDefinition? := by
  intro t j hj hcheck honce
  obtain ⟨js, rfl⟩ := object_of_record hcheck
  obtain ⟨ms, rfl, hjs⟩ := object_of_value? hj
  have hpredicate := readsAlike_predicate.required (field_of_record hjs hcheck honce "predicate" rfl rfl)
  rw [Predicate.ofDefinition?, Predicate.ofDefinition?, fields?_of_single, fields?_of_value hjs]
  · exact hpredicate
  · exact single_of_once honce

theorem readsAlike_usage : ReadsAlike Schema.usage usageOnce StoredUsage.ofTree? := by
  intro t j hj hcheck honce
  obtain ⟨js, rfl⟩ := object_of_record hcheck
  obtain ⟨ms, rfl, hjs⟩ := object_of_value? hj
  have hfield := field_of_record hjs hcheck honce
  have hid := readsAlike_word.required (hfield "id" rfl rfl)
  have hoptional := readsAlike_flag.defaulted false (hfield "optional" rfl rfl)
  have hcorrection := readsAlike_flag.defaulted false (hfield "addressCorrectionEnabled" rfl rfl)
  rw [StoredUsage.ofTree?, StoredUsage.ofTree?, fields?_of_single, fields?_of_value hjs]
  · simp [hid, hoptional, hcorrection]
  · exact single_of_once honce

/-- **A block is read alike off the tree of its text and off the value of that tree.** -/
theorem readsAlike_block : ReadsAlike Schema.block blockOnce StoredBlock.ofTree? := by
  intro t j hj hcheck honce
  obtain ⟨js, rfl⟩ := object_of_record hcheck
  obtain ⟨ms, rfl, hjs⟩ := object_of_value? hj
  have hfield := field_of_record hjs hcheck honce
  have hid := readsAlike_word.required (hfield "id" rfl rfl)
  have hname := readsAlike_string.required (hfield "name" rfl rfl)
  have hdescription := readsAlike_string.defaulted "" (hfield "description" rfl rfl)
  have henumerator := readsAlike_word.optional rfl (hfield "enumeratorId" rfl rfl)
  have hisEnumerator := readsAlike_flag.defaulted false (hfield "isEnumerator" rfl rfl)
  have hquestions := (readsAlike_list readsAlike_usage).defaulted [] (hfield "questions" rfl rfl)
  have hvisibility := readsAlike_predicate.optional rfl (hfield "visibilityPredicate" rfl rfl)
  have heligibility := readsAlike_definition.optional rfl (hfield "eligibilityDefinition" rfl rfl)
  rw [StoredBlock.ofTree?, StoredBlock.ofTree?, fields?_of_single, fields?_of_value hjs]
  · simp only [List.map_cons, List.map_nil, Option.bind_eq_bind, Option.bind_some, hid, hname, hdescription,
      henumerator, hisEnumerator, hquestions, hvisibility, heligibility]
  · exact single_of_once honce

/-- A straight reader gives up on a name that stands twice; the value has what stands there last. -/
example :
    let t : Tree := .object [("id", .number (.natural 1)), ("name", .string "income"), ("id", .number (.natural 2))]
    StoredBlock.ofTree? t = none ∧
      (t.value?.bind fun j => StoredBlock.ofTree? (ofJson j)).map (·.id) = some 2 := by
  cbv

end Records

end FormProgram
