/-
How deep what has been read nests when it is written again.

No tree of a text is deeper than the limit (`depth_of_ofText?`): the machine gives up on what is. A record that
is read off a tree is written as an object that is no deeper (`StoredBlock.depth_of_ofTree?`), except that a
block always has a list of questions. So a program that has been loaded can be written and loaded again.
-/
import FormProgram.Proofs.StoredForm

set_option autoImplicit false

namespace FormProgram.Json

/-! ## Depth of trees -/

namespace Tree

mutual

/-- How many arrays and objects stand inside each other. -/
def depth : Tree → Nat
  | .array items => depthAll items + 1
  | .object members => depthMembers members + 1
  | _ => 0

def depthAll : List Tree → Nat
  | [] => 0
  | t :: rest => max t.depth (depthAll rest)

def depthMembers : List (String × Tree) → Nat
  | [] => 0
  | (_, t) :: rest => max t.depth (depthMembers rest)

end

mutual

theorem depth_ofJson : ∀ j : Json, (ofJson j).depth = j.depth
  | .null | .bool _ | .number _ | .string _ => rfl
  | .array items => congrArg (· + 1) (depthAll_ofItems items)
  | .object members => congrArg (· + 1) (depthMembers_ofNamed members)

theorem depthAll_ofItems : ∀ js : List Json, depthAll (ofItems js) = Json.depthAll js
  | [] => rfl
  | j :: js => by rw [ofItems, depthAll, Json.depthAll, depth_ofJson j, depthAll_ofItems js]

theorem depthMembers_ofNamed : ∀ ms : List (String × Json), depthMembers (ofNamed ms) = Json.depthMembers ms
  | [] => rfl
  | (_, j) :: ms => by rw [ofNamed, depthMembers, Json.depthMembers, depth_ofJson j, depthMembers_ofNamed ms]

end

theorem depthAll_le {n : Nat} {ts : List Tree} : depthAll ts ≤ n ↔ ∀ t ∈ ts, t.depth ≤ n := by
  induction ts with
  | nil => simp [depthAll]
  | cons t ts ih => simp [depthAll, ih]

theorem depthMembers_le {n : Nat} {ms : List (String × Tree)} :
    depthMembers ms ≤ n ↔ ∀ m ∈ ms, m.2.depth ≤ n := by
  induction ms with
  | nil => simp [depthMembers]
  | cons m ms ih => simp [depthMembers, ih]

end Tree

theorem depthAll_le {n : Nat} {js : List Json} : depthAll js ≤ n ↔ ∀ j ∈ js, j.depth ≤ n := by
  induction js with
  | nil => simp [depthAll]
  | cons j js ih => simp [depthAll, ih]

theorem depthMembers_le {n : Nat} {ms : List (String × Json)} :
    depthMembers ms ≤ n ↔ ∀ m ∈ ms, m.2.depth ≤ n := by
  induction ms with
  | nil => simp [depthMembers]
  | cons m ms ih => simp [depthMembers, ih]

theorem depthMembers_append_le {n : Nat} {ms ms' : List (String × Json)} :
    depthMembers (ms ++ ms') ≤ n ↔ depthMembers ms ≤ n ∧ depthMembers ms' ≤ n := by
  simp only [depthMembers_le, List.forall_mem_append]

theorem depthMembers_present_le {α : Type} {name : String} {write : α → Json} {o : Option α} {n : Nat} :
    depthMembers (present name write o) ≤ n ↔ ∀ a ∈ o, (write a).depth ≤ n := by
  cases o <;> simp [present, depthMembers]

theorem depthMembers_add {name : String} {j : Json} {ms : List (String × Json)} :
    depthMembers (Entries.add name j ms) ≤ max j.depth (depthMembers ms) := by
  induction ms with
  | nil => exact Nat.le_refl _
  | cons m ms ih =>
    rw [Entries.add]
    split
    · exact Nat.le_refl _
    · exact Nat.le_max_right ..
    · simp only [depthMembers]
      omega

namespace Tree

mutual

/-- A value is no deeper than its tree. -/
theorem depth_of_value? : ∀ {t : Tree} {j : Json}, t.value? = some j → j.depth ≤ t.depth
  | .null, _, h | .bool _, _, h | .number _, _, h | .string _, _, h => by
    cases h
    exact Nat.le_refl _
  | .array items, j, h => by
    obtain ⟨js, hjs, rfl⟩ := Option.map_eq_some_iff.1 h
    exact Nat.succ_le_succ (depth_of_values? hjs)
  | .object members, j, h => by
    obtain ⟨ms, hms, rfl⟩ := Option.map_eq_some_iff.1 h
    exact Nat.succ_le_succ (depth_of_memberValues? hms)
  | .void, _, h => by cases h

theorem depth_of_values? : ∀ {ts : List Tree} {js : List Json}, values? ts = some js →
    Json.depthAll js ≤ depthAll ts
  | [], js, h => by
    cases h
    exact Nat.le_refl _
  | t :: ts, js, h => by
    rw [values?] at h
    split at h
    next j js' hj hjs =>
      cases h
      have hj := depth_of_value? hj
      have hjs := depth_of_values? hjs
      rw [Json.depthAll, depthAll]
      omega
    next => cases h

theorem depth_of_memberValues? : ∀ {ts : List (String × Tree)} {ms : List (String × Json)},
    memberValues? ts = some ms → Json.depthMembers ms ≤ depthMembers ts
  | [], ms, h => by
    cases h
    exact Nat.le_refl _
  | (name, t) :: ts, ms, h => by
    rw [memberValues?] at h
    split at h
    next j ms' hj hms =>
      cases h
      have hj := depth_of_value? hj
      have hms := depth_of_memberValues? hms
      refine Nat.le_trans depthMembers_add ?_
      rw [depthMembers]
      omega
    next => cases h

end

/-! ## Trees of texts -/

theorem mem_of_mapM {α β : Type} {f : α → Option β} {l : List α} {l' : List β} (h : l.mapM f = some l') :
    ∀ b ∈ l', ∃ a ∈ l, f a = some b :=
  Row.exists_item (mapM_eq_some_iff.1 h)

/-- No tree of an open array or object is too deep, with so many others open around it. -/
def Frame.Fits (level : Nat) : Frame → Prop
  | .array items => ∀ t ∈ items, t.depth ≤ depthLimit - (level + 1)
  | .object members _ => ∀ m ∈ members, m.2.depth ≤ depthLimit - (level + 1)

def StackFits : List Frame → Prop
  | [] => True
  | frame :: stack => frame.Fits stack.length ∧ StackFits stack

def Phase.Fits (level : Nat) : Phase → Prop
  | .name members | .colon members _ => ∀ m ∈ members, m.2.depth ≤ depthLimit - (level + 1)
  | .done t => t.depth ≤ depthLimit - level
  | _ => True

theorem depth_nested {stack : List Frame} {t : Tree} (h : t.depth ≤ depthLimit - (stack.length + 1) + 1) :
    (nested stack t).depth ≤ depthLimit - stack.length := by
  rw [nested]
  split
  · omega
  · exact Nat.zero_le _

theorem depth_array {n : Nat} {items : List Tree} (h : ∀ t ∈ items, t.depth ≤ n) :
    (array items.reverse).depth ≤ n + 1 :=
  Nat.succ_le_succ (depthAll_le.2 fun t ht => h t (List.mem_reverse.1 ht))

theorem depth_ofMembers {n : Nat} {members : List (Option String × Tree)} (h : ∀ m ∈ members, m.2.depth ≤ n) :
    (ofMembers members.reverse).depth ≤ n + 1 := by
  rw [ofMembers]
  split
  next named hnamed =>
    refine Nat.succ_le_succ (depthMembers_le.2 fun m hm => ?_)
    obtain ⟨⟨name, t⟩, hmem, hname⟩ := mem_of_mapM hnamed m hm
    obtain ⟨name', -, rfl⟩ := Option.map_eq_some_iff.1 hname
    exact h _ (List.mem_reverse.1 hmem)
  next => exact Nat.zero_le _

theorem stepValue_fits {stack stack' : List Frame} {phase : Phase} {token : Token} (hs : StackFits stack)
    (h : stepValue stack token = some (stack', phase)) : StackFits stack' ∧ phase.Fits stack'.length := by
  have hplain : ∀ t : Tree, t.depth = 0 → StackFits stack ∧ (Phase.done t).Fits stack.length :=
    fun t ht => ⟨hs, Nat.le_trans (Nat.le_of_eq ht) (Nat.zero_le _)⟩
  rw [stepValue.eq_def] at h
  split at h <;> cases h
  next => exact hplain _ rfl
  next => exact hplain _ rfl
  next l => exact hplain _ (by cases l.value? <;> rfl)
  next s => exact hplain _ (by cases s <;> rfl)
  next => exact ⟨⟨List.forall_mem_nil _, hs⟩, trivial⟩
  next => exact ⟨hs, trivial⟩

/-- What one token does keeps everything within the limit. -/
theorem step_fits {stack stack' : List Frame} {phase phase' : Phase} {token : Token} (hs : StackFits stack)
    (hp : phase.Fits stack.length) (h : step stack phase token = some (stack', phase')) :
    StackFits stack' ∧ phase'.Fits stack'.length := by
  have hempty : ∀ n : Nat, 1 ≤ n + 1 := fun n => Nat.succ_le_succ (Nat.zero_le n)
  rw [step.eq_def] at h
  split at h
  next => exact stepValue_fits hs h
  next =>
    cases h
    exact ⟨hs.2, depth_nested (hempty _)⟩
  next => exact stepValue_fits hs h
  next =>
    cases h
    exact ⟨hs, depth_nested (hempty _)⟩
  next =>
    cases h
    exact ⟨hs, List.forall_mem_nil _⟩
  next =>
    cases h
    exact ⟨hs, hp⟩
  next =>
    cases h
    exact ⟨⟨hp, hs⟩, trivial⟩
  next =>
    cases h
    exact ⟨⟨List.forall_mem_cons.2 ⟨hp, hs.1⟩, hs.2⟩, trivial⟩
  next =>
    cases h
    exact ⟨hs.2, depth_nested (depth_array (List.forall_mem_cons.2 ⟨hp, hs.1⟩))⟩
  next =>
    cases h
    exact ⟨hs.2, List.forall_mem_cons.2 ⟨hp, hs.1⟩⟩
  next =>
    cases h
    exact ⟨hs.2, depth_nested (depth_ofMembers (List.forall_mem_cons.2 ⟨hp, hs.1⟩))⟩
  next => cases h

theorem run_fits {ts : List Token} : ∀ {stack : List Frame} {phase : Phase} {t : Tree}, StackFits stack →
    phase.Fits stack.length → run stack phase ts = some t → t.depth ≤ depthLimit := by
  -- The invariant is of all frames and of the phase, since both change with every token.
  induction ts with
  | nil =>
    intro stack phase t hs hp h
    rw [run.eq_def] at h
    split at h
    next =>
      cases h
      exact hp
    next => cases h
    next heq => cases heq
  | cons token ts ih =>
    intro stack phase t hs hp h
    rw [run] at h
    split at h
    next => cases h
    next stack' phase' hstep =>
      obtain ⟨hs', hp'⟩ := step_fits hs hp hstep
      exact ih hs' hp' h

/-- The tree of a text is not deeper than the limit. -/
theorem depth_of_ofText? {text : String} {t : Tree} (h : ofText? text = some t) : t.depth ≤ depthLimit := by
  obtain ⟨ts, -, hrun⟩ := Option.bind_eq_some_iff.1 h
  exact @run_fits ts [] .value t trivial trivial hrun

/-! ## Records -/

/-- A field lies deeper than its record. -/
theorem depth_of_fields? {names : List String} {t : Tree} {fields : List (Option Tree)}
    (h : t.fields? names = some fields) : ∀ f, some f ∈ fields → f.depth < t.depth := by
  intro f hf
  cases t with
  | object members =>
    obtain ⟨name, -, hmember⟩ := mem_of_mapM h _ hf
    rw [member?] at hmember
    split at hmember
    next => cases hmember
    next name' t hfilter =>
      cases hmember
      have hmem : (name', f) ∈ members := List.mem_of_mem_filter (hfilter ▸ List.mem_cons_self ..)
      exact Nat.lt_succ_of_le (depthMembers_le.1 (Nat.le_refl _) _ hmem)
    next => cases hmember
  | array items =>
    rw [fields?] at h
    split at h
    next =>
      cases h
      rcases List.mem_append.1 hf with hf | hf
      · obtain ⟨t, ht, heq⟩ := List.mem_map.1 hf
        cases heq
        exact Nat.lt_succ_of_le (depthAll_le.1 (Nat.le_refl _) _ ht)
      · cases (List.mem_replicate.1 hf).2
    next => cases h
  | null | bool | number | string | void => cases h

theorem required_some {α : Type} {read : Tree → Option α} {f : Option Tree} {a : α}
    (h : required read f = some a) :
    ∃ t, f = some t ∧ read t = some a := by
  cases f with
  | none => cases h
  | some t => exact ⟨t, rfl, h⟩

theorem optional_some {α : Type} {read : Tree → Option α} {f : Option Tree} {a : α}
    (h : optional read f = some (some a)) : ∃ t, f = some t ∧ read t = some a := by
  rw [optional.eq_def] at h
  split at h
  next => cases h
  next t _ =>
    obtain ⟨a', ha, heq⟩ := Option.map_eq_some_iff.1 h
    cases heq
    exact ⟨t, rfl, ha⟩
  next => cases h

/-- An item lies deeper than its list. -/
theorem mem_of_list? {α : Type} {read : Tree → Option α} {t : Tree} {l : List α} (h : t.list? read = some l) :
    ∀ a ∈ l, ∃ t', read t' = some a ∧ t'.depth < t.depth := by
  intro a ha
  cases t with
  | array items =>
    obtain ⟨t', ht', hread⟩ := mem_of_mapM h a ha
    exact ⟨t', hread, Nat.lt_succ_of_le (depthAll_le.1 (Nat.le_refl _) t' ht')⟩
  | object members | null | bool | number | string | void => cases h

theorem json_of_toValue? {t : Tree} {v : JsonValue} (h : t.toValue? = some v) : t.value? = some v.json := by
  rw [← map_toValue?, h, Option.map_some]

end Tree

end FormProgram.Json

namespace FormProgram

open Json

/-! ## The stored form -/

theorem Comparison.depth_le {t : Tree} {c : Comparison} (h : ofTree? t = some c) :
    (Condition.leaf c).toJson.depth ≤ t.depth := by
  obtain ⟨fields, hfields, h⟩ := Option.bind_eq_some_iff.1 h
  have hdepth := Tree.depth_of_fields? hfields
  split at h
  next question scalar operator value =>
    simp only [Option.bind_eq_bind, Option.bind_eq_some_iff] at h
    obtain ⟨q, -, s, -, o, -, v, hv, heq⟩ := h
    cases heq
    obtain ⟨t', rfl, hv⟩ := Tree.required_some hv
    have hvalue := Tree.depth_of_value? (Tree.json_of_toValue? hv)
    have hlt := hdepth t' (by simp)
    have hwritten : (Condition.leaf ⟨q, s, o, v⟩).toJson.depth = v.json.depth + 1 := by
      simp [Condition.toJson, depth, depthMembers, members, word]
    omega
  next => cases h

namespace Condition

/-- What is written for children, whatever the tag. -/
theorem depth_children (tag : String) (children : List Condition) :
    (Json.object [("node", .string tag), ("children", .array (toJsons children))]).depth =
      depthAll (toJsons children) + 2 := by
  simp [depth, depthMembers]

mutual

/-- A condition is written as deep as it has been read, or less. -/
theorem depth_of_read? : ∀ {inner : Bool} {t : Tree} {c : Condition}, read? inner t = some c →
    c.toJson.depth ≤ t.depth
  | inner, .object members, c, h => by
    -- Conjunctions and disjunctions differ in their tag only, which has no depth.
    have hnode : ∀ tag children, childLists? members = [some children] →
        (Json.object [("node", .string tag), ("children", .array (toJsons children))]).depth ≤
          (Tree.object members).depth := by
      intro tag children hchildren
      rw [depth_children]
      exact Nat.succ_le_succ (depth_of_childLists? children (hchildren ▸ List.mem_singleton_self _))
    rw [read?] at h
    split at h
    next tag hmember =>
      split at h
      next =>
        obtain ⟨c, hc, rfl⟩ := Option.map_eq_some_iff.1 h
        exact Comparison.depth_le hc
      next children _ hchildren =>
        cases h
        exact hnode "and" children hchildren
      next children _ hchildren =>
        cases h
        exact hnode "or" children hchildren
      next => cases h
    next => cases h
  | inner, .array [], c, h => by cases h
  | inner, .array (tag :: rest), c, h => by
    have hrest : Tree.depthAll rest ≤ Tree.depthAll (tag :: rest) := Nat.le_max_right ..
    have hnode : ∀ tag' children, itemLists? rest = [some children] →
        (Json.object [("node", .string tag'), ("children", .array (toJsons children))]).depth ≤
          (Tree.array (tag :: rest)).depth := by
      intro tag' children hchildren
      have hitems := depth_of_itemLists? children (hchildren ▸ List.mem_singleton_self _)
      rw [depth_children]
      exact Nat.succ_le_succ (Nat.le_trans hitems hrest)
    rw [read?] at h
    split at h
    next =>
      obtain ⟨c, hc, rfl⟩ := Option.map_eq_some_iff.1 h
      exact Nat.le_trans (Comparison.depth_le hc) (Nat.succ_le_succ hrest)
    next children _ hchildren =>
      cases h
      exact hnode "and" children hchildren
    next children _ hchildren =>
      cases h
      exact hnode "or" children hchildren
    next => cases h
  | _, .null, _, h | _, .bool _, _, h | _, .number _, _, h | _, .string _, _, h | _, .void, _, h => by cases h

theorem depth_of_childLists? : ∀ {members : List (String × Tree)} (children : List Condition),
    some children ∈ childLists? members → depthAll (toJsons children) + 1 ≤ Tree.depthMembers members
  | [], _, h => by cases h
  | (name, t) :: rest, children, h => by
    rw [Tree.depthMembers]
    rw [childLists?] at h
    split at h
    · rcases List.mem_cons.1 h with h | h
      · exact Nat.le_trans (depth_of_readList? h.symm) (Nat.le_max_left ..)
      · exact Nat.le_trans (depth_of_childLists? children h) (Nat.le_max_right ..)
    · exact Nat.le_trans (depth_of_childLists? children h) (Nat.le_max_right ..)

theorem depth_of_itemLists? : ∀ {items : List Tree} (children : List Condition),
    some children ∈ itemLists? items → depthAll (toJsons children) + 1 ≤ Tree.depthAll items
  | [], _, h => by cases h
  | t :: rest, children, h => by
    rw [Tree.depthAll]
    rcases List.mem_cons.1 h with h | h
    · exact Nat.le_trans (depth_of_readList? h.symm) (Nat.le_max_left ..)
    · exact Nat.le_trans (depth_of_itemLists? children h) (Nat.le_max_right ..)

theorem depth_of_readList? : ∀ {t : Tree} {children : List Condition}, readList? t = some children →
    depthAll (toJsons children) + 1 ≤ t.depth
  | .array items, children, h => Nat.succ_le_succ (depth_of_readAll? h)
  | .object _, _, h | .null, _, h | .bool _, _, h | .number _, _, h | .string _, _, h | .void, _, h => by
    cases h

theorem depth_of_readAll? : ∀ {items : List Tree} {children : List Condition}, readAll? items = some children →
    depthAll (toJsons children) ≤ Tree.depthAll items
  | [], children, h => by
    cases h
    exact Nat.le_refl _
  | t :: rest, children, h => by
    rw [readAll?] at h
    split at h
    next c cs hc hcs =>
      cases h
      have hc := depth_of_read? hc
      have hcs := depth_of_readAll? hcs
      rw [toJsons, depthAll, Tree.depthAll]
      omega
    next => cases h

end

end Condition

theorem Condition.depth_of_ofTree? {t : Tree} {c : Condition} (h : ofTree? t = some c) :
    c.toJson.depth ≤ t.depth := by
  rw [ofTree?] at h
  split at h
  next => exact depth_of_read? h
  next => cases h

theorem Predicate.depth_of_ofTree? {t : Tree} {p : Predicate} (h : ofTree? t = some p) :
    p.toJson.depth ≤ t.depth := by
  obtain ⟨fields, hfields, h⟩ := Option.bind_eq_some_iff.1 h
  have hdepth := Tree.depth_of_fields? hfields
  split at h
  next root action =>
    simp only [Option.bind_eq_bind, Option.bind_eq_some_iff] at h
    obtain ⟨c, hc, a, -, heq⟩ := h
    cases heq
    obtain ⟨t', rfl, hc⟩ := Tree.required_some hc
    have hroot := Condition.depth_of_ofTree? hc
    have hlt := hdepth t' (by simp)
    have hwritten : (Predicate.toJson ⟨c, a⟩).depth = c.toJson.depth + 1 := by
      simp [toJson, depth, depthMembers]
    omega
  next => cases h

theorem Predicate.depth_of_ofDefinition? {t : Tree} {p : Predicate} (h : ofDefinition? t = some p) :
    (Json.object [("predicate", p.toJson)]).depth ≤ t.depth := by
  obtain ⟨fields, hfields, h⟩ := Option.bind_eq_some_iff.1 h
  have hdepth := Tree.depth_of_fields? hfields
  split at h
  next predicate =>
    obtain ⟨t', rfl, hp⟩ := Tree.required_some h
    have hpredicate := depth_of_ofTree? hp
    have hlt := hdepth t' (by simp)
    have hwritten : (Json.object [("predicate", p.toJson)]).depth = p.toJson.depth + 1 := by
      simp [depth, depthMembers]
    omega
  next => cases h

/-- How deep a block is written: its questions make for three levels. -/
theorem StoredBlock.depth_toJson_le {b : StoredBlock} {n : Nat} (hn : 3 ≤ n)
    (hv : ∀ p ∈ b.visibility, p.toJson.depth < n)
    (he : ∀ p ∈ b.eligibility, (Json.object [("predicate", p.toJson)]).depth < n) : b.toJson.depth ≤ n := by
  obtain ⟨k, rfl⟩ := Nat.exists_eq_add_of_le' (Nat.lt_of_lt_of_le (by decide : 0 < 3) hn)
  have husage : ∀ u : StoredUsage, u.toJson.depth ≤ 1 := fun u => by
    simp [StoredUsage.toJson, depth, depthMembers, word]
  have hquestions : depthAll (b.questions.map (·.toJson)) ≤ 1 :=
    depthAll_le.2 (by simpa using fun u _ => husage u)
  rw [toJson, depth]
  refine Nat.succ_le_succ ?_
  simp only [depthMembers_append_le, depthMembers_present_le]
  refine ⟨⟨⟨⟨?_, fun e _ => Nat.zero_le k⟩, ?_⟩, fun p hp => Nat.le_of_lt_succ (hv p hp)⟩,
    fun p hp => Nat.le_of_lt_succ (he p hp)⟩
  · simp [depthMembers, depth, word]
  · simp only [depthMembers, depth]
    omega

theorem StoredBlock.depth_of_ofTree? {t : Tree} {b : StoredBlock} (h : ofTree? t = some b) :
    b.toJson.depth ≤ max 3 t.depth := by
  obtain ⟨fields, hfields, h⟩ := Option.bind_eq_some_iff.1 h
  have hdepth := Tree.depth_of_fields? hfields
  split at h
  next id name description enumerator isEnumerator questions visibility eligibility =>
    simp only [Option.bind_eq_bind, Option.bind_eq_some_iff] at h
    obtain ⟨_, -, _, -, _, -, _, -, _, -, _, -, v, hv, e, he, heq⟩ := h
    cases heq
    refine depth_toJson_le (Nat.le_max_left ..) ?_ ?_
    · rintro p rfl
      obtain ⟨t', rfl, hp⟩ := Tree.optional_some hv
      have hpredicate := Predicate.depth_of_ofTree? hp
      have hlt := hdepth t' (by simp)
      omega
    · rintro p rfl
      obtain ⟨t', rfl, hp⟩ := Tree.optional_some he
      have hpredicate := Predicate.depth_of_ofDefinition? hp
      have hlt := hdepth t' (by simp)
      omega
  next => cases h

/-- A program can be written within a limit if each of its blocks can, two levels further in. -/
theorem StoredProgram.depth_toJson_le {p : StoredProgram} {n : Nat} (hn : 2 ≤ n) :
    p.toJson.depth ≤ n ↔ ∀ b ∈ p.blocks, b.toJson.depth + 2 ≤ n := by
  obtain ⟨k, rfl⟩ := Nat.exists_eq_add_of_le' hn
  have htexts : ∀ m : SortedMap String String, (Json.texts m).depth ≤ 1 := by
    intro m
    refine Nat.succ_le_succ (depthMembers_le.2 fun e he => ?_)
    obtain ⟨_, -, rfl⟩ := List.mem_map.1 he
    exact Nat.le_refl _
  have hdetails : depthMembers p.details.members ≤ 1 := by
    simp [Details.members, depthMembers, depth, word, htexts]
  have hdepth : p.toJson.depth ≤ k + 2 ↔ depthAll (p.blocks.map (·.toJson)) ≤ k := by
    rw [toJson, depth, Nat.succ_le_succ_iff, depthMembers_append_le, depthMembers, depthMembers, depth]
    omega
  rw [hdepth, depthAll_le]
  simp

theorem StoredProgram.depth_of_ofTree? {t : Tree} {p : StoredProgram} (h : ofTree? t = some p) :
    ∀ b ∈ p.blocks, b.toJson.depth + 2 ≤ max 5 t.depth := by
  obtain ⟨fields, hfields, h⟩ := Option.bind_eq_some_iff.1 h
  have hdepth := Tree.depth_of_fields? hfields
  split at h
  next id adminName adminDescription externalLink localizedName localizedDescription type eligibilityIsGating
      blocks =>
    simp only [Option.bind_eq_bind, Option.bind_eq_some_iff] at h
    obtain ⟨_, -, _, -, _, -, _, -, _, -, _, -, _, -, _, -, bs, hbs, heq⟩ := h
    cases heq
    obtain ⟨t', rfl, hbs⟩ := Tree.required_some hbs
    have hlt := hdepth t' (by simp)
    intro b hb
    obtain ⟨t'', hread, hlt'⟩ := Tree.mem_of_list? hbs b hb
    have hblock := StoredBlock.depth_of_ofTree? hread
    omega
  next => cases h

/-- The stored form of a program that has been read from text is written within the limit. -/
theorem StoredProgram.depth_of_text {text : String} {value : JsonValue} {p : StoredProgram}
    (hv : JsonValue.ofText? text = some value) (h : ofJson? value.json = some p) :
    ∀ b ∈ p.blocks, b.toJson.depth + 2 ≤ Tree.depthLimit := by
  obtain ⟨t, ht, hvalue⟩ := Option.bind_eq_some_iff.1 hv
  have hdepth := Tree.depth_of_value? (Tree.json_of_toValue? hvalue)
  have hlimit := Nat.le_trans hdepth (Tree.depth_of_ofText? ht)
  intro b hb
  have hblock := depth_of_ofTree? h b hb
  rw [Tree.depth_ofJson] at hblock
  exact Nat.le_trans hblock (Nat.max_le.2 ⟨by decide, hlimit⟩)

end FormProgram
