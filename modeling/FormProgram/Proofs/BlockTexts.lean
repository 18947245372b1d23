/-
A block that stands in the text of a program can be read from a text of its own, and is the same block
(`block_readers_agree`), if no member that is looked for in it repeats.

Inside of the program the block is read off a value, and fewer levels are left for it to nest. But a program that has
been read has a value, in which nothing has been void; so its tokens have there the tree that they have alone
(`value_of_member`), and off this tree and off its value a block is read alike.
-/
import FormProgram.Proofs.BlockReaders
import FormProgram.Proofs.LoadedPrograms
import FormProgram.Proofs.TextWithin

set_option autoImplicit false

namespace FormProgram

open Json Json.Tree

variable {ms back : List (String × Tree)} {js : List (String × Json)} {name : String}

/-- Of members with one name the value has the last. -/
theorem lookup_last {t : Tree} (h : memberValues? (ms ++ (name, t) :: back) = some js)
    (hback : name ∉ back.map (·.1)) : ∃ j, t.value? = some j ∧ js.lookup name = some j := by
  induction ms generalizing js with
  | nil =>
    obtain ⟨j, js', hj, hjs, rfl⟩ := memberValues?_cons h
    have hnone := lookup_eq_none_of_value hjs hback
    refine ⟨j, hj, ?_⟩
    rw [Entries.lookup_add (canonical_of_memberValues? hjs).1, hnone]
    simp
  | cons m ms ih =>
    obtain ⟨n, u⟩ := m
    obtain ⟨i, js', -, hjs, rfl⟩ := memberValues?_cons h
    obtain ⟨j, hj, hlookup⟩ := ih hjs
    refine ⟨j, hj, ?_⟩
    rw [Entries.lookup_add (canonical_of_memberValues? hjs).1]
    by_cases hn : name = n
    · simp [← hn, hlookup]
    · simp [hn, hlookup]

/-- Where an object has a value, an array in its last member of a name stands in that value, item by item. -/
theorem value_of_member {front back : List (String × List Token)} {items : List (List Token)} {trees : List Tree}
    {t : Tree} {j : Json} (htrees : Texts items trees) (hmembers : ∀ m ∈ front ++ back, IsText m.2)
    (hback : name ∉ back.map (·.1))
    (ht : ofTokens? (Token.object (front ++ (name, Token.array items) :: back)) = some t)
    (hj : t.value? = some j) :
    ∃ js bs, j = .object js ∧ js.lookup name = some (.array bs) ∧ values? trees = some bs := by
  rw [List.forall_mem_append] at hmembers
  obtain ⟨fronts, hfronts⟩ := IsText.exists_members hmembers.1
  obtain ⟨backs, hbacks⟩ := IsText.exists_members hmembers.2
  have harray := ofTokens?_array htrees
  have htail : NamedTexts ((name, Token.array items) :: back) ((name, _) :: backs) := .cons ⟨rfl, harray⟩ hbacks
  have hobject := ofTokens?_object (List.rel_append hfronts htail)
  rw [ht] at hobject
  cases hobject
  obtain ⟨js, hjs, rfl⟩ := Option.map_eq_some_iff.1 hj
  -- Nothing is void, so the limit has taken nothing away: not from the object, and not from the array in it.
  rw [limitMembers_eq_self _ hjs] at hjs
  obtain ⟨i, hi, hlookup⟩ := lookup_last hjs (names_eq hbacks ▸ hback)
  obtain ⟨bs, hbs, rfl⟩ := Option.map_eq_some_iff.1 hi
  rw [← limitAll_eq_map] at hbs
  rw [limitAll_eq_self _ hbs] at hbs
  exact ⟨js, bs, rfl, hlookup, hbs⟩

theorem StoredProgram.blocks_of_ofJson? (hd : DistinctNames js) {s : StoredProgram}
    (h : ofJson? (.object js) = some s) {bs : List Json} (hbs : js.lookup "blockDefinitions" = some (.array bs)) :
    bs.mapM (fun b => StoredBlock.ofTree? (ofJson b)) = some s.blocks := by
  rw [ofJson?, ofTree?, fields?_ofJson hd] at h
  simp only [List.map_cons, List.map_nil, Option.bind_eq_bind, Option.bind_some, Option.bind_eq_some_iff, hbs] at h
  obtain ⟨_, -, _, -, _, -, _, -, _, -, _, -, _, -, _, -, blocks, hblocks, heq⟩ := h
  cases heq
  rw [Option.map_some, Tree.ofJson, Tree.required, Tree.list?, ofItems_eq_map, List.mapM_map] at hblocks
  exact hblocks

/-- The text `raw` is an object, the last of its members with the name of the blocks is an array, and item `k` of the
array is the text `t`, token by token. -/
def StandsAsBlock (raw t : String) (k : Nat) : Prop :=
  ∃ (front back : List (String × List Token)) (items : List (List Token)) (ts : List Token),
    Token.lex raw.toList = some (Token.object (front ++ ("blockDefinitions", Token.array items) :: back)) ∧
    Token.lex t.toList = some ts ∧ items[k]? = some ts ∧
    (∀ item ∈ items, IsText item) ∧ (∀ m ∈ front ++ back, IsText m.2) ∧
    "blockDefinitions" ∉ back.map (·.1)

theorem tokens_array (bs : List Json) : tokens (.array bs) = Token.array (bs.map tokens) := by
  have hitems : ∀ bs, itemTokens bs = (bs.map tokens).flatMap (.comma :: ·) ++ [.closeArray] := by
    intro bs
    induction bs with
    | nil => rfl
    | cons b bs ih => simp [itemTokens, ih]
  cases bs with
  | nil => rfl
  | cons b bs => simp [tokens, Token.array, Token.separated, hitems]

theorem tokens_object (ms : List (String × Json)) :
    tokens (.object ms) = Token.object (ms.map fun (name, j) => (name, tokens j)) := by
  have hmembers : ∀ ms, Json.memberTokens ms =
      (ms.map fun (name, j) => Token.member (name, tokens j)).flatMap (.comma :: ·) ++ [.closeObject] := by
    intro ms
    induction ms with
    | nil => rfl
    | cons m ms ih => simp [Json.memberTokens, Token.member, ih]
  cases ms with
  | nil => rfl
  | cons m ms => simp [tokens, Token.object, Token.separated, Token.member, hmembers, Function.comp_def]

theorem lex_toList_pretty (j : Json) : Token.lex j.pretty.toList = some (tokens j) := by
  have hlex := lex_pretty 0 j (nofun : Literal.Stops [])
  rw [List.append_nil, Token.lex_nil, Option.map_some, List.append_nil] at hlex
  rw [Json.pretty, String.toList_ofList, hlex]

theorem ofText?_toList_pretty (j : Json) : Tree.ofText? j.pretty = some (treeAt 0 j) := by
  rw [Tree.ofText?, lex_toList_pretty, Option.bind_some, ofTokens?_tokens]

/-- A block that is written on its own stands in any program that it is written in. -/
theorem standsAsBlock_pretty (front back : List (String × Json)) {bs : List Json} {b : Json} {k : Nat}
    (hk : bs[k]? = some b) (hback : "blockDefinitions" ∉ back.map (·.1)) :
    StandsAsBlock (Json.object (front ++ ("blockDefinitions", .array bs) :: back)).pretty b.pretty k := by
  have htext : ∀ j, IsText (tokens j) := by
    intro j
    rw [IsText, ofTokens?_tokens]
    rfl
  refine ⟨front.map fun (name, j) => (name, tokens j), back.map fun (name, j) => (name, tokens j), bs.map tokens,
    tokens b, ?_, lex_toList_pretty b, ?_, ?_, ?_, ?_⟩
  · simp only [lex_toList_pretty, tokens_object, List.map_append, List.map_cons, tokens_array]
  · rw [List.getElem?_map, hk, Option.map_some]
  · exact List.forall_mem_map.2 fun j _ => htext j
  · rw [← List.map_append]
    exact List.forall_mem_map.2 fun m _ => htext m.2
  · rwa [List.map_map]

namespace StandsAsBlock

variable {raw t : String} {k : Nat} {v : JsonValue} {s : StoredProgram}

theorem exists_block (h : StandsAsBlock raw t k) (honce : (Tree.ofText? t).all blockOnce = true)
    (hv : JsonValue.ofText? raw = some v) (hschema : Schema.program v.json = true)
    (hs : StoredProgram.ofJson? v.json = some s) :
    ∃ b, s.blocks[k]? = some b ∧ StoredBlock.ofText? t = some b := by
  obtain ⟨front, back, items, ts, hraw, ht, hk, hitems, hmembers, hback⟩ := h
  obtain ⟨trees, htrees, htree⟩ := IsText.exists_trees hitems
  obtain ⟨whole, hwhole, hvalue⟩ := Option.bind_eq_some_iff.1 hv
  rw [Tree.ofText?, hraw, Option.bind_some] at hwhole
  have hjson : whole.value? = some v.json := by
    rw [← Tree.map_toValue? whole, hvalue, Option.map_some]
  obtain ⟨js, bs, hobject, hlookup, hbs⟩ := value_of_member htrees hmembers hback hwhole hjson
  have hc := v.canonical
  rw [hobject] at hc hschema hs
  obtain ⟨tree, hts⟩ := Option.isSome_iff_exists.1 (hitems ts (List.mem_of_getElem? hk))
  have hread := StoredProgram.blocks_of_ofJson? (distinct_of_ascending hc.1) hs hlookup
  obtain ⟨j, hj, htreej⟩ := Row.exists_getElem? (values?_eq_some_iff.1 hbs) ((htree hk).trans hts)
  obtain ⟨b, hb, hread⟩ := Row.exists_getElem? (mapM_eq_some_iff.1 hread) hj
  have hblocks : Schema.list Schema.block (.array bs) = true := pass_of_record hschema rfl _ hlookup
  have hcheck := List.all_eq_true.1 hblocks j (List.mem_of_getElem? hj)
  have hofText : Tree.ofText? t = some tree := by rw [Tree.ofText?, ht, Option.bind_some, hts]
  rw [hofText] at honce
  refine ⟨b, hb, ?_⟩
  rw [StoredBlock.ofText?, hofText, Option.bind_some, readsAlike_block tree j htreej hcheck honce, hread]

/-- With its questions, too: a block of a program that loads is loaded from the text of its own. -/
theorem exists_ofFile (h : StandsAsBlock raw t k) (honce : (Tree.ofText? t).all blockOnce = true) {c : Catalog}
    {p : Program} (hp : Program.ofText c raw = .ok p) (path : String) :
    ∃ b, p.blocks[k]? = some b ∧ Block.ofFile c path t = .ok b := by
  obtain ⟨v, s, hv, hschema, hs, hhydrate, -⟩ := Program.ofText_stages hp
  obtain ⟨stored, hstored, hread⟩ := h.exists_block honce hv hschema hs
  rw [StoredProgram.hydrate] at hhydrate
  cases hblocks : s.blocks.mapM (StoredBlock.hydrate c) with
  | error e =>
    rw [hblocks] at hhydrate
    cases hhydrate
  | ok blocks =>
    rw [hblocks] at hhydrate
    cases hhydrate
    obtain ⟨b, hb, hblock⟩ := Row.exists_getElem? (mapM_eq_ok_iff.1 hblocks) hstored
    refine ⟨b, hb, ?_⟩
    rw [Block.ofFile, hread]
    simp only [hblock]
    rfl

end StandsAsBlock

/-- **The two readers of blocks agree**: where a block stands in the text of a program that meets the schema and is
read through its value, and no member that is looked for in the block repeats, the text of the block alone is read
straight as the same block. -/
theorem block_readers_agree (raw t : String) (k : Nat) (hstands : StandsAsBlock raw t k)
    (honce : (Tree.ofText? t).all blockOnce = true) (v : JsonValue) (hv : JsonValue.ofText? raw = some v)
    (hschema : Schema.program v.json = true) (s : StoredProgram) (hs : StoredProgram.ofJson? v.json = some s) :
    ∃ b, s.blocks[k]? = some b ∧ StoredBlock.ofText? t = some b :=
  hstands.exists_block honce hv hschema hs

/-- The second of two blocks, with its members in no order and one list of conditions inside of the other. Its leaf has
the tag last, a note that nothing reads twice, and a value in which a name repeats. In the program another array has
the name of the blocks, but it comes first. -/
theorem block_readers_agree_survey :
    let leaf : Json := .object [("value", .object [("min", .word 1), ("min", .word 2)]), ("note", .null),
      ("note", .bool true), ("operator", .string "in"), ("scalar", .string "number"), ("questionId", .word 4),
      ("node", .string "leaf")]
    let either : Json := .object [("children", .array [leaf, leaf]), ("node", .string "or")]
    let root : Json := .object [("node", .string "and"), ("children", .array [either])]
    let block : Json := .object [("visibilityPredicate", .object [("action", .string "show_block"), ("root", root)]),
      ("questions", .array [.object [("optional", .bool true), ("id", .word 4)]]), ("name", .string "income"),
      ("id", .word 2)]
    let program : Json := .object [("blockDefinitions", .array []), ("adminName", .string "aid"),
      ("blockDefinitions", .array [.object [("id", .word 1), ("name", .string "contact")], block]), ("id", .word 7)]
    StandsAsBlock program.pretty block.pretty 1 ∧
      ∃ v s b, JsonValue.ofText? program.pretty = some v ∧ StoredProgram.ofJson? v.json = some s ∧
        s.blocks[1]? = some b ∧ StoredBlock.ofText? block.pretty = some b := by
  intro leaf either root block program
  have hstands : StandsAsBlock program.pretty block.pretty 1 :=
    standsAsBlock_pretty [("blockDefinitions", .array []), ("adminName", .string "aid")] [("id", .word 7)] rfl
      (by decide)
  have honce : (Tree.ofText? block.pretty).all blockOnce = true := by
    rw [ofText?_toList_pretty]
    decide +kernel
  have hvalue : (treeAt 0 program).toValue?.map (·.json) = some program.settle := by
    rw [Tree.map_toValue?, value?_treeAt program (Nat.zero_le _), if_pos (by decide)]
  obtain ⟨v, hv, hjson⟩ := Option.map_eq_some_iff.1 hvalue
  have hread : JsonValue.ofText? program.pretty = some v := by
    rw [JsonValue.ofText?, ofText?_toList_pretty, Option.bind_some, hv]
  have hschema : Schema.program v.json = true := by
    rw [hjson]
    decide +kernel
  have hstored : (StoredProgram.ofJson? v.json).isSome = true := by
    rw [hjson]
    decide +kernel
  obtain ⟨s, hs⟩ := Option.isSome_iff_exists.1 hstored
  obtain ⟨b, hb, hblock⟩ := block_readers_agree program.pretty block.pretty 1 hstands honce v hread hschema s hs
  exact ⟨hstands, v, s, b, hread, hs, hb, hblock⟩

end FormProgram
