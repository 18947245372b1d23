/-
A JSON text inside of another one.

What stands inside of other arrays and objects is read as it would be on its own (`run_within`), but for the limit of
depth: some of its levels are taken by what stands around it, and what nests too deep for the rest is void
(`Tree.limit`). Where the whole text has a value nothing is void, so there is no difference at all
(`limit_eq_self`).
-/
import FormProgram.Proofs.JsonText
import Mathlib.Data.List.Forall2

set_option autoImplicit false

namespace FormProgram.Json

namespace Tree

mutual

/-- What becomes of a tree where only so many arrays and objects may stand inside each other. -/
def limit : Nat → Tree → Tree
  | n, .array items => if n = 0 then .void else .array (limitAll (n - 1) items)
  | n, .object members => if n = 0 then .void else .object (limitMembers (n - 1) members)
  | _, t => t

def limitAll : Nat → List Tree → List Tree
  | _, [] => []
  | n, t :: rest => limit n t :: limitAll n rest

def limitMembers : Nat → List (String × Tree) → List (String × Tree)
  | _, [] => []
  | n, (name, t) :: rest => (name, limit n t) :: limitMembers n rest

end

theorem limitAll_eq_map (n : Nat) (ts : List Tree) : limitAll n ts = ts.map (limit n) := by
  induction ts with
  | nil => simp [limitAll]
  | cons t ts ih => simp [limitAll, ih]

mutual

/-- **Where a value is left, nothing has been taken away.** -/
theorem limit_eq_self : ∀ (n : Nat) {t : Tree} {j : Json}, (limit n t).value? = some j → limit n t = t
  | n, .array items, j, h => by
    unfold limit at h ⊢
    split at h
    · cases h
    · obtain ⟨js, hjs, -⟩ := Option.map_eq_some_iff.1 h
      rw [if_neg (by assumption), limitAll_eq_self (n - 1) hjs]
  | n, .object members, j, h => by
    unfold limit at h ⊢
    split at h
    · cases h
    · obtain ⟨ms, hms, -⟩ := Option.map_eq_some_iff.1 h
      rw [if_neg (by assumption), limitMembers_eq_self (n - 1) hms]
  | _, .null, _, _ | _, .bool _, _, _ | _, .number _, _, _ | _, .string _, _, _ | _, .void, _, _ => by
    unfold limit
    rfl

theorem limitAll_eq_self : ∀ (n : Nat) {ts : List Tree} {js : List Json}, values? (limitAll n ts) = some js →
    limitAll n ts = ts
  | _, [], _, _ => by simp [limitAll]
  | n, t :: ts, js, h => by
    rw [limitAll, values?] at h
    split at h
    next j js' hj hjs => rw [limitAll, limit_eq_self n hj, limitAll_eq_self n hjs]
    next => cases h

theorem limitMembers_eq_self : ∀ (n : Nat) {ms : List (String × Tree)} {js : List (String × Json)},
    memberValues? (limitMembers n ms) = some js → limitMembers n ms = ms
  | _, [], _, _ => by simp [limitMembers]
  | n, (name, t) :: ms, js, h => by
    rw [limitMembers, memberValues?] at h
    split at h
    next j js' hj hjs => rw [limitMembers, limit_eq_self n hj, limitMembers_eq_self n hjs]
    next => cases h

end

/-! ## The machine inside of open arrays and objects -/

def limitNamed (n : Nat) (members : List (Option String × Tree)) : List (Option String × Tree) :=
  members.map fun (name, t) => (name, limit n t)

def Frame.limit (n : Nat) : Frame → Frame
  | .array items => .array (items.map (Tree.limit n))
  | .object members name => .object (limitNamed n members) name

/-- The open arrays and objects of a text where others are open around it. -/
def within (outer : List Frame) : List Frame → List Frame
  | [] => outer
  | frame :: stack =>
    frame.limit (depthLimit - ((within outer stack).length + 1)) :: within outer stack

/-- What is due next where so many arrays and objects are open. -/
def Phase.limit (level : Nat) : Phase → Phase
  | .name members => .name (limitNamed (depthLimit - (level + 1)) members)
  | .colon members key => .colon (limitNamed (depthLimit - (level + 1)) members) key
  | .done t => .done (t.limit (depthLimit - level))
  | phase => phase

variable {outer stack stack' : List Frame} {phase phase' : Phase} {token : Token}

theorem length_le_within (outer stack : List Frame) : stack.length ≤ (within outer stack).length := by
  induction stack with
  | nil => simp
  | cons frame stack ih => simp [within, ih]

theorem limit_ofMembers (n : Nat) (members : List (Option String × Tree)) (h : n ≠ 0) :
    limit n (ofMembers members) = ofMembers (limitNamed (n - 1) members) := by
  have hmapM : (limitNamed (n - 1) members).mapM (fun (m : Option String × Tree) => m.1.map (·, m.2)) =
      (members.mapM fun (m : Option String × Tree) => m.1.map (·, m.2)).map (limitMembers (n - 1)) := by
    induction members with
    | nil => simp [limitNamed, limitMembers]
    | cons m members ih =>
      obtain ⟨name, t⟩ := m
      rw [limitNamed, List.map_cons, List.mapM_cons, List.mapM_cons, ← limitNamed, ih]
      cases name with
      | none => rfl
      | some name =>
        cases members.mapM fun (m : Option String × Tree) => m.1.map (·, m.2) <;> simp [limitMembers]
  unfold ofMembers
  rw [hmapM]
  cases members.mapM fun (m : Option String × Tree) => m.1.map (·, m.2) <;> simp [limit, h]

theorem limit_nested {t u : Tree} (hzero : limit 0 t = .void)
    (h : (within outer stack).length < depthLimit → limit (depthLimit - (within outer stack).length) t = u) :
    limit (depthLimit - (within outer stack).length) (nested stack t) = nested (within outer stack) u := by
  have hle := length_le_within outer stack
  unfold nested
  by_cases hdeep : (within outer stack).length < depthLimit
  · rw [if_pos hdeep, if_pos (by omega), h hdeep]
  · rw [if_neg hdeep, Nat.sub_eq_zero_of_le (by omega)]
    split
    · exact hzero
    · rfl

theorem limit_nested_array (outer stack : List Frame) (items : List Tree) :
    limit (depthLimit - (within outer stack).length) (nested stack (.array items.reverse)) =
      nested (within outer stack)
        (.array (items.map (limit (depthLimit - ((within outer stack).length + 1)))).reverse) := by
  refine limit_nested (by simp [limit]) fun h => ?_
  have hpos : depthLimit - (within outer stack).length ≠ 0 := by omega
  rw [limit, if_neg hpos, limitAll_eq_map, List.map_reverse, Nat.sub_sub]

theorem limit_nested_object (outer stack : List Frame) (members : List (Option String × Tree)) :
    limit (depthLimit - (within outer stack).length) (nested stack (ofMembers members.reverse)) =
      nested (within outer stack)
        (ofMembers (limitNamed (depthLimit - ((within outer stack).length + 1)) members).reverse) := by
  refine limit_nested ?_ fun h => ?_
  · unfold ofMembers
    split <;> simp [limit]
  · have hpos : depthLimit - (within outer stack).length ≠ 0 := by omega
    rw [limit_ofMembers _ _ hpos, limitNamed, limitNamed, List.map_reverse, Nat.sub_sub]

theorem stepValue_within (h : stepValue stack token = some (stack', phase)) :
    stepValue (within outer stack) token = some (within outer stack', phase.limit (within outer stack').length) := by
  rw [stepValue.eq_def] at h
  split at h <;> cases h
  · simp [stepValue, Phase.limit, limit]
  · simp [stepValue, Phase.limit, limit]
  next l => cases hl : l.value? <;> simp [stepValue, Phase.limit, limit, hl]
  next s => cases s <;> simp [stepValue, Phase.limit, limit]
  · simp [stepValue, Phase.limit, within, Frame.limit]
  · simp [stepValue, Phase.limit]

/-- A token that may begin a value begins one where the first item of an array is due. -/
theorem step_item (h : (stepValue stack' token).isSome = true) : step stack .item token = stepValue stack token := by
  cases token with
  | closeArray => simp [stepValue] at h
  | openArray | openObject | closeObject | colon | comma | null | bool | number | string => simp [step]

/-- **A token does inside of open arrays and objects what it does on its own.** -/
theorem step_within (h : step stack phase token = some (stack', phase')) :
    step (within outer stack) (phase.limit (within outer stack).length) token =
      some (within outer stack', phase'.limit (within outer stack').length) := by
  rw [step.eq_def] at h
  split at h
  next => exact stepValue_within h
  next =>
    cases h
    have hempty := limit_nested_array outer stack' []
    rw [List.reverse_nil] at hempty
    simp only [Phase.limit, hempty]
    rfl
  next =>
    have hstep : (stepValue stack token).isSome = true := by rw [h]; rfl
    simp only [Phase.limit, step_item hstep]
    exact stepValue_within h
  next =>
    cases h
    have hempty : limit _ (nested stack (.object [])) = _ := limit_nested_object outer stack []
    simp only [Phase.limit, hempty]
    rfl
  next =>
    cases h
    rfl
  next =>
    cases h
    rfl
  next =>
    cases h
    rfl
  next =>
    cases h
    rfl
  next items _ t =>
    cases h
    simp only [Phase.limit, limit_nested_array outer stack' (t :: items)]
    rfl
  next =>
    cases h
    rfl
  next members name _ t =>
    cases h
    simp only [Phase.limit, limit_nested_object outer stack' ((name, t) :: members)]
    rfl
  next => cases h

variable {ts rest : List Token} {t : Tree}

/-- **A text is read inside of open arrays and objects as on its own**, within what is left of the limit. -/
theorem run_within (h : run stack phase ts = some t) :
    run (within outer stack) (phase.limit (within outer stack).length) (ts ++ rest) =
      run outer (.done (t.limit (depthLimit - outer.length))) rest := by
  induction ts generalizing stack phase with
  | nil =>
    rw [run.eq_def] at h
    split at h
    next =>
      cases h
      rfl
    next => cases h
    next heq => cases heq
  | cons token ts ih =>
    rw [run] at h
    split at h
    next => cases h
    next stack' phase' hstep =>
      rw [List.cons_append, run, step_within hstep]
      exact ih h

theorem run_value (outer : List Frame) (rest : List Token) (h : ofTokens? ts = some t) :
    run outer .value (ts ++ rest) = run outer (.done (t.limit (depthLimit - outer.length))) rest :=
  run_within h

/-- The first item of an array is read as any value. -/
theorem run_first (outer : List Frame) (rest : List Token) (h : ofTokens? ts = some t) :
    run outer .item (ts ++ rest) = run outer (.done (t.limit (depthLimit - outer.length))) rest := by
  rw [← run_value outer rest h]
  cases ts with
  | nil => cases h
  | cons token ts =>
    rw [ofTokens?, run] at h
    split at h
    next => cases h
    next r hstep =>
      have hvalue : (stepValue [] token).isSome = true := by
        rw [← step, hstep]
        rfl
      rw [List.cons_append, run, run, step_item hvalue, step]

end Tree

/-! ## Arrays and objects -/

namespace Token

/-- The tokens of one part after another, with a comma between any two. -/
def separated : List (List Token) → List Token
  | [] => []
  | part :: rest => part ++ rest.flatMap (.comma :: ·)

def array (items : List (List Token)) : List Token := .openArray :: (separated items ++ [.closeArray])

def member (m : String × List Token) : List Token := .string (some m.1) :: .colon :: m.2

def object (members : List (String × List Token)) : List Token :=
  .openObject :: (separated (members.map member) ++ [.closeObject])

end Token

namespace Tree

variable {t : Tree} {items : List (List Token)} {trees : List Tree} {texts : List (String × List Token)}
  {members seen : List (String × Tree)}

/-- The trees of the items of an array, or the members of an object, from their tokens. -/
abbrev Texts (items : List (List Token)) (trees : List Tree) : Prop :=
  List.Forall₂ (fun ts t => ofTokens? ts = some t) items trees

abbrev NamedTexts (texts : List (String × List Token)) (members : List (String × Tree)) : Prop :=
  List.Forall₂ (fun text m => text.1 = m.1 ∧ ofTokens? text.2 = some m.2) texts members

theorem names_eq (h : NamedTexts texts members) : members.map (·.1) = texts.map (·.1) := by
  induction h with
  | nil => rfl
  | cons htext _ ih => rw [List.map_cons, List.map_cons, htext.1, ih]

theorem run_items {seen : List Tree} (h : Texts items trees) :
    run [.array seen] (.done t) (items.flatMap (.comma :: ·) ++ [.closeArray]) =
      some (.array ((t :: seen).reverse ++ trees.map (limit (depthLimit - 1)))) := by
  induction h generalizing seen t with
  | nil =>
    rw [List.map_nil, List.append_nil]
    rfl
  | @cons ts u items trees hts _ ih =>
    rw [List.flatMap_cons, List.cons_append, List.cons_append, List.append_assoc, run_step rfl, run_value _ _ hts, ih]
    simp

/-- The tree of an array, from those of its items. -/
theorem ofTokens?_array (h : Texts items trees) :
    ofTokens? (Token.array items) = some (.array (trees.map (limit (depthLimit - 1)))) := by
  cases h with
  | nil => rfl
  | cons hts hrest =>
    rw [ofTokens?, Token.array, Token.separated, List.append_assoc, run_step rfl, run_first _ _ hts, run_items hrest]
    rfl

theorem run_members (seen : List (String × Tree)) {name : String} (h : NamedTexts texts members) :
    run [.object (seen.map fun (name, t) => (some name, t)) (some name)] (.done t)
        ((texts.map Token.member).flatMap (.comma :: ·) ++ [.closeObject]) =
      some (.object (((name, t) :: seen).reverse ++ limitMembers (depthLimit - 1) members)) := by
  induction h generalizing seen name t with
  | nil =>
    have hnamed := ofMembers_some ((name, t) :: seen).reverse
    rw [List.map_reverse, List.map_cons] at hnamed
    rw [limitMembers, List.append_nil, ← hnamed]
    rfl
  | @cons text m texts members htext _ ih =>
    obtain ⟨name', ts⟩ := text
    obtain ⟨_, u⟩ := m
    obtain ⟨rfl, hts⟩ := htext
    simp only [List.map_cons, List.flatMap_cons, Token.member, List.cons_append, List.append_assoc]
    rw [run_step rfl, run_step rfl, run_step rfl, run_value _ _ hts]
    refine (ih ((name, t) :: seen)).trans ?_
    simp [limitMembers]

/-- The tree of an object, from those of the values of its members. -/
theorem ofTokens?_object (h : NamedTexts texts members) :
    ofTokens? (Token.object texts) = some (.object (limitMembers (depthLimit - 1) members)) := by
  cases h with
  | nil => rfl
  | @cons text m texts members htext hrest =>
    obtain ⟨name, ts⟩ := text
    obtain ⟨_, u⟩ := m
    obtain ⟨rfl, hts⟩ := htext
    simp only [ofTokens?, Token.object, List.map_cons, Token.separated, Token.member, List.cons_append,
      List.append_assoc]
    rw [run_step rfl, run_step rfl, run_step rfl, run_value _ _ hts]
    exact run_members [] hrest

def IsText (ts : List Token) : Prop := (ofTokens? ts).isSome = true

theorem IsText.exists_trees (h : ∀ ts ∈ items, IsText ts) :
    ∃ trees, Texts items trees ∧ ∀ {k : Nat} {ts : List Token}, items[k]? = some ts → trees[k]? = ofTokens? ts := by
  have hget : ∀ ts ∈ items, ofTokens? ts = some ((ofTokens? ts).getD .void) := by
    intro ts hts
    obtain ⟨t, ht⟩ := Option.isSome_iff_exists.1 (h ts hts)
    simp [ht]
  refine ⟨items.map fun ts => (ofTokens? ts).getD .void, ?_, ?_⟩
  · rw [Texts, List.forall₂_map_right_iff, List.forall₂_same]
    exact hget
  · intro k ts hk
    rw [List.getElem?_map, hk, Option.map_some, ← hget ts (List.mem_of_getElem? hk)]

theorem IsText.exists_members (h : ∀ text ∈ texts, IsText text.2) : ∃ members, NamedTexts texts members := by
  refine ⟨texts.map fun text => (text.1, (ofTokens? text.2).getD .void), ?_⟩
  rw [NamedTexts, List.forall₂_map_right_iff, List.forall₂_same]
  intro text htext
  obtain ⟨t, ht⟩ := Option.isSome_iff_exists.1 (h text htext)
  simp [ht]

end Tree

end FormProgram.Json
