/-
A document is read back from its text: the value of what is written for `j` is `j.settle`, in which the
members of every object ascend and every number has been read from its literal, provided that not more
arrays and objects stand inside each other than the reader allows (`JsonValue.ofText_pretty`).

Three steps: the tokens of the text (`lex_pretty`), the tree that the machine builds from them
(`run_tokens`), the value of that tree (`value?_treeAt`).
-/
import FormProgram.Json.Tree
import FormProgram.Proofs.Rows
import FormProgram.Proofs.TokenText

set_option autoImplicit false

namespace FormProgram.Json

mutual

/-- What is written for a document, without the blanks. -/
def tokens : Json → List Token
  | .null => [.null]
  | .bool b => [.bool b]
  | .number n => [.number n.literal]
  | .string s => [.string (some s)]
  | .array [] => [.openArray, .closeArray]
  | .array (j :: rest) => .openArray :: (tokens j ++ itemTokens rest)
  | .object [] => [.openObject, .closeObject]
  | .object ((name, j) :: rest) =>
    .openObject :: .string (some name) :: .colon :: (tokens j ++ memberTokens rest)

def itemTokens : List Json → List Token
  | [] => [.closeArray]
  | j :: rest => .comma :: (tokens j ++ itemTokens rest)

def memberTokens : List (String × Json) → List Token
  | [] => [.closeObject]
  | (name, j) :: rest => .comma :: .string (some name) :: .colon :: (tokens j ++ memberTokens rest)

end

section Lexing

open Token

variable {rest : List Char}

theorem lex_lineBreak (level : Nat) : lex (lineBreak level ++ rest) = lex rest := by
  refine lex_blanks fun c hc => ?_
  rcases List.mem_cons.1 hc with rfl | hc
  · rfl
  · rw [(List.mem_replicate.1 hc).2]
    rfl

theorem stops_prettyItems (level : Nat) (js : List Json) : Literal.Stops (prettyItems level js ++ rest) := by
  cases js <;> · intro c hc; cases hc; decide

theorem stops_prettyMembers (level : Nat) (ms : List (String × Json)) :
    Literal.Stops (prettyMembers level ms ++ rest) := by
  cases ms <;> · intro c hc; cases hc; decide

mutual

/-- **The tokens of a written document.** -/
theorem lex_pretty : ∀ (level : Nat) (j : Json) {rest : List Char}, Literal.Stops rest →
    lex (prettyChars level j ++ rest) = (lex rest).map (tokens j ++ ·)
  | _, .null, _, _ => lex_null
  | _, .bool true, _, _ => lex_bool true
  | _, .bool false, _, _ => lex_bool false
  | _, .number n, _, h => lex_number n h
  | _, .string s, _, _ => lex_quote s
  | _, .array [], rest, _ => by
    simp only [prettyChars, List.cons_append, List.nil_append]
    rw [lex_mark (c := '[') rfl rfl, lex_mark (c := ']') rfl rfl]
    simp [tokens, Function.comp_def]
  | level, .array (j :: js), rest, _ => by
    simp only [prettyChars, List.cons_append, List.append_assoc]
    rw [lex_mark (c := '[') rfl rfl, lex_lineBreak, lex_pretty (level + 1) j (stops_prettyItems level js),
      lex_prettyItems level js]
    simp [tokens, Function.comp_def]
  | _, .object [], rest, _ => by
    simp only [prettyChars, List.cons_append, List.nil_append]
    rw [lex_mark (c := '\x7b') rfl rfl, lex_mark (c := '\x7d') rfl rfl]
    simp [tokens, Function.comp_def]
  | level, .object ((name, j) :: ms), rest, _ => by
    simp only [prettyChars, List.cons_append, List.append_assoc]
    rw [lex_mark (c := '\x7b') rfl rfl, lex_lineBreak, lex_quote, lex_mark (c := ':') rfl rfl, lex_blank rfl,
      lex_pretty (level + 1) j (stops_prettyMembers level ms), lex_prettyMembers level ms]
    simp [tokens, Function.comp_def]

theorem lex_prettyItems : ∀ (level : Nat) (js : List Json) {rest : List Char},
    lex (prettyItems level js ++ rest) = (lex rest).map (itemTokens js ++ ·)
  | level, [], rest => by
    simp only [prettyItems, List.append_assoc, List.cons_append, List.nil_append]
    rw [lex_lineBreak, lex_mark (c := ']') rfl rfl]
    rfl
  | level, j :: js, rest => by
    simp only [prettyItems, List.cons_append, List.append_assoc]
    rw [lex_mark (c := ',') rfl rfl, lex_lineBreak, lex_pretty (level + 1) j (stops_prettyItems level js),
      lex_prettyItems level js]
    simp [itemTokens, Function.comp_def]

theorem lex_prettyMembers : ∀ (level : Nat) (ms : List (String × Json)) {rest : List Char},
    lex (prettyMembers level ms ++ rest) = (lex rest).map (memberTokens ms ++ ·)
  | level, [], rest => by
    simp only [prettyMembers, List.append_assoc, List.cons_append, List.nil_append]
    rw [lex_lineBreak, lex_mark (c := '\x7d') rfl rfl]
    rfl
  | level, (name, j) :: ms, rest => by
    simp only [prettyMembers, List.cons_append, List.append_assoc]
    rw [lex_mark (c := ',') rfl rfl, lex_lineBreak, lex_quote, lex_mark (c := ':') rfl rfl, lex_blank rfl,
      lex_pretty (level + 1) j (stops_prettyMembers level ms), lex_prettyMembers level ms]
    simp [memberTokens, Function.comp_def]

end

end Lexing

/-! ## The tree -/

/-- The number that is read where this one has been written. -/
def Number.reread (n : Number) : Number := n.literal.value?.getD n

theorem Number.value?_literal (n : Number) : n.literal.value? = some n.reread := by
  obtain ⟨n', hn⟩ := n.exists_value
  rw [reread, hn, Option.getD_some]

namespace Tree

mutual

/-- The tree of a document that stands inside of so many arrays and objects. -/
def treeAt (level : Nat) : Json → Tree
  | .null => .null
  | .bool b => .bool b
  | .number n => .number n.reread
  | .string s => .string s
  | .array items => if level < depthLimit then .array (treesAt (level + 1) items) else .void
  | .object members => if level < depthLimit then .object (membersAt (level + 1) members) else .void

def treesAt (level : Nat) : List Json → List Tree
  | [] => []
  | j :: rest => treeAt level j :: treesAt level rest

def membersAt (level : Nat) : List (String × Json) → List (String × Tree)
  | [] => []
  | (name, j) :: rest => (name, treeAt level j) :: membersAt level rest

end

section Machine

variable {stack : List Frame} {t : Tree} {ts : List Token}

theorem run_step {stack' : List Frame} {phase phase' : Phase} {token : Token}
    (h : step stack phase token = some (stack', phase')) :
    run stack phase (token :: ts) = run stack' phase' ts := by
  rw [run]
  rw [h]

/-- The named trees in the order of the text. -/
theorem mapM_named (members : List (String × Tree)) :
    (members.map fun (name, t) => (some name, t)).mapM (fun (name, t) => name.map (·, t)) = some members := by
  rw [mapM_eq_some_iff, List.forall₂_map_left_iff, List.forall₂_same]
  exact fun _ _ => rfl

theorem ofMembers_some (members : List (String × Tree)) :
    ofMembers (members.map fun (name, t) => (some name, t)) = .object members := by
  rw [ofMembers, mapM_named]

/-- An array does not end with the first token of an item. -/
theorem run_item (j : Json) :
    run (.array [] :: stack) .item (tokens j ++ ts) = run (.array [] :: stack) .value (tokens j ++ ts) := by
  cases j with
  | array items => cases items <;> rfl
  | object members => cases members <;> rfl
  | null | bool | number | string => rfl

-- The frames around a value are any: how many they are decides where the limit cuts the tree.
mutual

/-- **The machine builds the tree of a document from its tokens.** -/
theorem run_tokens : ∀ (j : Json) {stack : List Frame} {ts : List Token},
    run stack .value (tokens j ++ ts) = run stack (.done (treeAt stack.length j)) ts
  | .null, stack, ts => run_step rfl
  | .bool b, stack, ts => run_step rfl
  | .number n, stack, ts => by
    refine run_step ?_
    simp only [step, stepValue, n.value?_literal, treeAt]
  | .string s, stack, ts => run_step rfl
  | .array [], stack, ts => by
    rw [tokens, List.cons_append, run_step (rfl : step stack .value _ = some (.array [] :: stack, .item))]
    exact run_step rfl
  | .array (j :: js), stack, ts => by
    rw [tokens, List.cons_append, List.append_assoc,
      run_step (rfl : step stack .value _ = some (.array [] :: stack, .item)), run_item, run_tokens j,
      run_itemTokens js]
    rfl
  | .object [], stack, ts => by
    rw [tokens, List.cons_append, run_step (rfl : step stack .value _ = some (stack, .member))]
    exact run_step rfl
  | .object ((name, j) :: ms), stack, ts => by
    rw [tokens, List.cons_append, List.cons_append, List.cons_append, List.append_assoc,
      run_step (rfl : step stack .value _ = some (stack, .member)),
      run_step (rfl : step stack .member _ = some (stack, .colon [] (some name))),
      run_step (rfl : step stack (.colon [] (some name)) _ = some (.object [] (some name) :: stack, .value)),
      run_tokens j]
    exact run_memberTokens ms []

theorem run_itemTokens : ∀ (js : List Json) {stack : List Frame} {items : List Tree} {t : Tree}
    {ts : List Token},
    run (.array items :: stack) (.done t) (itemTokens js ++ ts) =
      run stack (.done (nested stack (.array ((t :: items).reverse ++ treesAt (stack.length + 1) js)))) ts
  | [], stack, items, t, ts => by
    rw [treesAt, List.append_nil]
    exact run_step rfl
  | j :: js, stack, items, t, ts => by
    rw [itemTokens, List.cons_append, List.append_assoc, run_step rfl, run_tokens j, run_itemTokens js]
    simp [treesAt]

theorem run_memberTokens : ∀ (ms : List (String × Json)) (members : List (String × Tree)) {stack : List Frame}
    {name : String} {t : Tree} {ts : List Token},
    run (.object (members.map fun (name, t) => (some name, t)) (some name) :: stack) (.done t)
        (memberTokens ms ++ ts) =
      run stack
        (.done (nested stack (.object (((name, t) :: members).reverse ++ membersAt (stack.length + 1) ms)))) ts
  | [], members, stack, name, t, ts => by
    have hnamed : ofMembers ((some name, t) :: members.map fun (name, t) => (some name, t)).reverse =
        .object ((name, t) :: members).reverse := by
      rw [← ofMembers_some, List.map_reverse, List.map_cons]
    rw [membersAt, List.append_nil, ← hnamed]
    exact run_step rfl
  | (name', j) :: ms, members, stack, name, t, ts => by
    rw [memberTokens, List.cons_append, List.cons_append, List.cons_append, List.append_assoc, run_step rfl,
      run_step rfl, run_step rfl, run_tokens j]
    refine (run_memberTokens ms ((name, t) :: members)).trans ?_
    simp [membersAt]

end

end Machine

/-! ## The value -/

end Tree

mutual

/-- The value that is read where this document has been written. -/
def settle : Json → Json
  | .null => .null
  | .bool b => .bool b
  | .number n => .number n.reread
  | .string s => .string s
  | .array items => .array (settleItems items)
  | .object members => .object (settleMembers members)

def settleItems : List Json → List Json
  | [] => []
  | j :: rest => settle j :: settleItems rest

def settleMembers : List (String × Json) → List (String × Json)
  | [] => []
  | (name, j) :: rest => Entries.add name (settle j) (settleMembers rest)

end

theorem toList_pretty (j : Json) : (j.pretty ++ "\n").toList = j.prettyChars 0 ++ ['\n'] := by
  rw [String.toList_append, pretty, String.toList_ofList]
  rfl

namespace Tree

open Json

-- From inside the limit, so that a tree without arrays and objects always has its value.
mutual

/-- **The value of the tree of a document**, which is none if it goes deeper than the limit. -/
theorem value?_treeAt : ∀ {level : Nat} (j : Json), level ≤ depthLimit →
    (treeAt level j).value? = if level + j.depth ≤ depthLimit then some j.settle else none
  | level, .null, h | level, .bool _, h | level, .number _, h | level, .string _, h => by
    exact (if_pos (Nat.add_zero level ▸ h)).symm
  | level, .array items, h => by
    rw [treeAt, depth]
    split
    next hlt =>
      rw [value?, values?_treesAt items hlt, ← Nat.add_assoc, Nat.add_right_comm]
      split <;> rfl
    next hge => rw [if_neg (by omega), value?]
  | level, .object members, h => by
    rw [treeAt, depth]
    split
    next hlt =>
      rw [value?, memberValues?_membersAt members hlt, ← Nat.add_assoc, Nat.add_right_comm]
      split <;> rfl
    next hge => rw [if_neg (by omega), value?]

theorem values?_treesAt : ∀ {level : Nat} (js : List Json), level ≤ depthLimit →
    values? (treesAt level js) = if level + depthAll js ≤ depthLimit then some (settleItems js) else none
  | level, [], h => by
    rw [depthAll, if_pos (by omega)]
    rfl
  | level, j :: js, h => by
    rw [treesAt, values?, value?_treeAt j h, values?_treesAt js h, depthAll, ← Nat.add_max_add_left]
    by_cases hj : level + j.depth ≤ depthLimit <;> by_cases hjs : level + depthAll js ≤ depthLimit <;>
      simp only [hj, hjs, if_true, if_false, Nat.max_le, and_true, and_false, settleItems]

theorem memberValues?_membersAt : ∀ {level : Nat} (ms : List (String × Json)), level ≤ depthLimit →
    memberValues? (membersAt level ms) =
      if level + depthMembers ms ≤ depthLimit then some (settleMembers ms) else none
  | level, [], h => by
    rw [depthMembers, if_pos (by omega)]
    rfl
  | level, (name, j) :: ms, h => by
    rw [membersAt, memberValues?, value?_treeAt j h, memberValues?_membersAt ms h, depthMembers,
      ← Nat.add_max_add_left]
    by_cases hj : level + j.depth ≤ depthLimit <;> by_cases hms : level + depthMembers ms ≤ depthLimit <;>
      simp only [hj, hms, if_true, if_false, Nat.max_le, and_true, and_false, settleMembers]

end

/-- The value as a value is the value as a document. -/
theorem map_toValue? (t : Tree) : t.toValue?.map (·.json) = t.value? := by
  rw [toValue?]
  split
  next h => rw [Option.map_none, h]
  next h => exact h.symm

theorem ofTokens?_tokens (j : Json) : ofTokens? (tokens j) = some (treeAt 0 j) := by
  have hrun := @run_tokens j [] []
  rw [List.append_nil] at hrun
  exact hrun

/-- The tree of a written document. -/
theorem ofText?_pretty (j : Json) : ofText? (j.pretty ++ "\n") = some (treeAt 0 j) := by
  have hstops : Literal.Stops ['\n'] := by
    intro c hc
    cases hc
    decide
  have hend : Token.lex ['\n'] = some [] := by
    rw [Token.lex_blank rfl]
    exact Token.lex_nil
  rw [ofText?, toList_pretty, lex_pretty 0 j hstops, hend, Option.map_some, List.append_nil, Option.bind_some,
    ofTokens?_tokens]

end Tree

end Json

/-- **A written document is read back**, in the form that it settles to. -/
theorem JsonValue.ofText_pretty (j : Json) : (JsonValue.ofText? (j.pretty ++ "\n")).map (·.json) =
    if j.depth ≤ Json.Tree.depthLimit then some j.settle else none := by
  have hvalue := @Json.Tree.value?_treeAt 0 j (Nat.zero_le _)
  rw [Nat.zero_add] at hvalue
  rw [JsonValue.ofText?, Json.Tree.ofText?_pretty, Option.bind_some, Json.Tree.map_toValue?, hvalue]

end FormProgram
