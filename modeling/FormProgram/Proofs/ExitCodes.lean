/-
What the exit code of a command tells, once the program of the workspace is loaded.

The commands look for blocks in different ways: in stored order, in canonical order, and along the tree. In a loaded
program they find the same blocks, so that a look-up fails just where no block has the id (`Finds`), and of the ways
in which an edit of any list can fail only a few are left (`insertSound_cases`, `Truthful.move_error`).
-/
import FormProgram.Proofs.CommandEffects
import FormProgram.Proofs.RefusedMoves

set_option autoImplicit false

namespace FormProgram

open FileTree

/-- The exit code that a result leads to. -/
def exitCodeOf {α : Type} : Except Failure α → UInt8
  | .ok _ => 0
  | .error f => f.exitCode

theorem Outcome.ofResult_code (r : Except Failure String) : (Outcome.ofResult r).code = exitCodeOf r := by
  cases r <;> rfl

@[simp] theorem exitCodeOf_map {α β : Type} (f : α → β) (r : Except Failure α) :
    exitCodeOf (r.map f) = exitCodeOf r := by
  cases r <;> rfl

/-! ## Look-ups -/

theorem availableForVisibility_eq_none {blocks : List Block} {id : BlockId} :
    availableForVisibility blocks id = none ↔ ∀ b ∈ blocks, b.id ≠ id := by
  rw [← positionOf_eq_none, availableForVisibility]
  cases hp : positionOf blocks id with
  | none => simp
  | some i =>
    cases i with
    | zero => simp
    | succ i =>
      obtain ⟨z, hz, -⟩ := block_of_positionOf hp
      have hi : i < blocks.length := Nat.lt_of_succ_lt (List.getElem?_eq_some_iff.1 hz).1
      obtain ⟨j, hj⟩ := exists_positionOf (List.getElem_mem hi)
      simp [List.getElem?_eq_getElem hi, availableThrough, hj]

namespace Program

variable {p : Program} {id : BlockId}

/-- Some block of the program has the id. -/
def HasBlock (p : Program) (id : BlockId) : Prop := ∃ b ∈ p.blocks, b.id = id

instance : Decidable (p.HasBlock id) := inferInstanceAs (Decidable (∃ b ∈ p.blocks, b.id = id))

theorem not_hasBlock : ¬ p.HasBlock id ↔ ∀ b ∈ p.blocks, b.id ≠ id := by simp [HasBlock]

/-- A look-up that fails just where no block has the id, and says so. -/
structure Finds {α : Type} (p : Program) (id : BlockId) (r : Except ProgramError α) : Prop where
  there : p.HasBlock id → ∃ a, r = .ok a
  missing : ¬ p.HasBlock id → r = .error (.blockNotFound p.id id)

namespace Finds

variable {α β : Type} {r : Except ProgramError α}

theorem found {o : Option α} (h : o = none ↔ ∀ b ∈ p.blocks, b.id ≠ id) : Finds p id (p.found id o) := by
  constructor
  · intro hid
    have hsome : o ≠ none := fun hnone => not_hasBlock.2 (h.1 hnone) hid
    obtain ⟨a, rfl⟩ := Option.ne_none_iff_exists'.1 hsome
    exact ⟨a, rfl⟩
  · intro hid
    rw [h.2 (not_hasBlock.1 hid)]
    rfl

theorem map (h : Finds p id r) (f : α → β) : Finds p id (r.map f) where
  there hid := by
    obtain ⟨a, rfl⟩ := h.there hid
    exact ⟨f a, rfl⟩
  missing hid := by
    rw [h.missing hid]
    rfl

end Finds

theorem finds_block : Finds p id (p.block id) := by
  rw [block]
  constructor
  · rintro ⟨b, hb, rfl⟩
    cases hfind : p.blocks.find? (·.id == b.id) with
    | none => simpa using List.find?_eq_none.1 hfind b hb
    | some c => exact ⟨c, rfl⟩
  · intro hid
    have hnone : p.blocks.find? (·.id == id) = none := by simpa using not_hasBlock.1 hid
    rw [hnone]

section Ordered

variable (h : p.Truthful) (hf : Formed p.blocks)
include h hf

theorem finds_slice : Finds p id (p.slice id) := by
  refine .found ?_
  rw [blockSlice, Option.map_eq_none_iff, positionOf_eq_none, h.missing_order_iff hf]

theorem finds_available (kind : PredicateKind) : Finds p id (p.available kind id) := by
  cases kind with
  | visibility => exact .found (availableForVisibility_eq_none.trans (h.missing_order_iff hf))
  | eligibility => exact finds_block.map _

end Ordered

/-! ## Insertions -/

/-- The block is to repeat under an enumerator that the program does not have. -/
def LacksEnumerator (p : Program) (b : Block) : Prop :=
  ∃ e, b.enumerator = some e ∧ ∀ c ∈ p.blocks, c.id = e → c.isEnumerator = false

/-- The block has no proper id, or reads a question that neither the program nor the block asks. -/
def IsUnfit (p : Program) (b : Block) : Prop :=
  b.id = 0 ∨ ∃ q ∈ b.predicateQuestions, q ∉ p.questionIds ∧ q ∉ b.questionIds

instance {b : Block} : Decidable (p.LacksEnumerator b) :=
  decidable_of_iff (∃ e ∈ b.enumerator, ∀ c ∈ p.blocks, c.id = e → c.isEnumerator = false) Iff.rfl

instance {b : Block} : Decidable (p.IsUnfit b) :=
  inferInstanceAs (Decidable (b.id = 0 ∨
    ∃ q ∈ b.predicateQuestions.toList, q ∉ p.questionIds ∧ q ∉ b.questionIds))

/-- What may come of an insertion into a sound program, with what each case takes. -/
inductive Insertion (p : Program) (b : Block) : Except Failure Program → Prop
  | taken (has : p.HasBlock b.id) : Insertion p b (.error (.of (.program (.duplicateBlockId p.id b.id))))
  | lacking {e : BlockId} (new : ¬ p.HasBlock b.id) (lacks : p.LacksEnumerator b) :
      Insertion p b (.error (.of (.program (.blockNotFound p.id e))))
  | unfit {defects : List Defect} (new : ¬ p.HasBlock b.id) (placed : ¬ p.LacksEnumerator b)
      (unfit : p.IsUnfit b) : Insertion p b (.error (.of (.insertDefects b.id defects)))
  | inserted {q : Program} (new : ¬ p.HasBlock b.id) (placed : ¬ p.LacksEnumerator b) (fit : ¬ p.IsUnfit b) :
      Insertion p b (.ok q)

theorem sound_cons_iff {b : Block} (hs : Sound p.blocks) (new : ¬ p.HasBlock b.id) (placed : ¬ p.LacksEnumerator b) :
    Sound (b :: p.blocks) ↔ ¬ p.IsUnfit b := by
  rw [hs.cons_iff]
  constructor
  · rintro ⟨hpos, -, -, hknown⟩ (hzero | ⟨q, hq, hprogram, hblock⟩)
    · exact hpos hzero
    · exact (hknown q hq).elim hblock hprogram
  · intro hfit
    refine ⟨fun hzero => hfit (.inl hzero), not_hasBlock.1 new, fun e he => ?_, fun q hq => ?_⟩
    · by_contra! hnone
      exact placed ⟨e, he, fun c hc hid => Bool.eq_false_iff.2 (hnone c hc hid)⟩
    · by_contra! hnone
      exact hfit (.inr ⟨q, hq, hnone.2, hnone.1⟩)

theorem Truthful.insertSound_cases (h : p.Truthful) (hs : Sound p.blocks) (b : Block) :
    Insertion p b (p.insertSound b) := by
  rcases h.insert_cases hs.toFormed b with ⟨htaken, he⟩ | ⟨hnew, e, hb, hlacks, he⟩ | ⟨hnew, hnamed, q, hq, hfollows⟩
  · rw [insertSound, he]
    exact .taken htaken
  · rw [insertSound, he]
    exact .lacking (not_hasBlock.2 hnew) ⟨e, hb, hlacks⟩
  · have hnew := not_hasBlock.2 hnew
    have hplaced : ¬ p.LacksEnumerator b := by
      rintro ⟨e, he, hlacks⟩
      obtain ⟨c, hc, hid, hen⟩ := hnamed e he
      simp [hlacks c hc hid] at hen
    have hperm : q.blocks.Perm (b :: p.blocks) := hfollows.blocks
    have hsound : q.defects = [] ↔ ¬ p.IsUnfit b := by
      rw [defects_eq_nil_iff (Truthful.insert hq), ← sound_cons_iff hs hnew hplaced]
      exact ⟨Sound.perm hperm, Sound.perm hperm.symm⟩
    rw [insertSound, hq]
    dsimp only
    split
    next hempty => exact .inserted hnew hplaced (hsound.1 (List.isEmpty_iff.1 hempty))
    next hempty => exact .unfit hnew hplaced (not_not.1 fun hfit => hempty (List.isEmpty_iff.2 (hsound.2 hfit)))

end Program

/-! ## Commands -/

/-- The exit codes of the commands on a loaded program. That of an insertion is left open where no block is read from
the file. -/
def Command.Exits (t : FileTree) (config : Config) (c : Catalog) (p : Program) (code : UInt8) : Command → Prop
  | .validate => code = if config.strictPredicateOrdering = true ∧ LateRead.ofBlocks p.order.blocks ≠ [] then 1 else 0
  | .order => code = 0
  | .slice id | .available id _ => code = if p.HasBlock id then 0 else 2
  | .insert path => ∀ text b, t.readText path = some text → Block.ofFile c path text = .ok b →
      code = if p.HasBlock b.id then 1 else if p.LacksEnumerator b then 2 else if p.IsUnfit b then 1 else 0
  | .move id d => (code = 2 ↔ ¬ p.HasBlock id) ∧
      (code = 3 ↔ ∃ x m, x.id = id ∧ Swapped p.order.blocks x d m ∧ LateRead.ofBlocks m ≠ []) ∧
      (code = 0 ∨ code = 2 ∨ code = 3)

section Codes

variable {p : Program} {id : BlockId}

theorem Program.Finds.exitCode {α : Type} {r : Except ProgramError α} (h : Finds p id r) :
    exitCodeOf (r.mapError fun e => Failure.of (.program e)) = if p.HasBlock id then 0 else 2 := by
  split
  next hid =>
    obtain ⟨a, rfl⟩ := h.there hid
    rfl
  next hid =>
    rw [h.missing hid]
    rfl

theorem Program.Insertion.exitCode {b : Block} {r : Except Failure Program} (h : Insertion p b r) :
    exitCodeOf r = if p.HasBlock b.id then 1 else if p.LacksEnumerator b then 2 else if p.IsUnfit b then 1 else 0 := by
  cases h with
  | taken has => simp only [if_pos has]; rfl
  | lacking new lacks => simp only [if_neg new, if_pos lacks]; rfl
  | unfit new placed unfit => simp only [if_neg new, if_neg placed, if_pos unfit]; rfl
  | inserted new placed fit => simp only [if_neg new, if_neg placed, if_neg fit]; rfl

theorem Program.Truthful.move_exitCode (h : p.Truthful) (hf : Formed p.blocks) (id : BlockId) (d : Direction) :
    let code := exitCodeOf ((p.move id d).mapError fun e => Failure.of (.program e))
    (code = 2 ↔ ¬ p.HasBlock id) ∧
      (code = 3 ↔ ∃ x m, x.id = id ∧ Swapped p.order.blocks x d m ∧ LateRead.ofBlocks m ≠ []) ∧
      (code = 0 ∨ code = 2 ∨ code = 3) := by
  have hlate : ∀ m, LateRead.ofBlocks m ≠ [] ↔ FormProgram.readsInOrder m = false := by simp [FormProgram.readsInOrder]
  simp only [hlate, not_hasBlock, ← h.move_missing_iff hf (d := d), ← h.move_refused_iff hf]
  cases hm : p.move id d with
  | ok q => simp [Except.mapError, exitCodeOf]
  | error e =>
    rcases h.move_error hf hm with rfl | rfl
    · simp [Except.mapError, exitCodeOf, Failure.of, Failure.exitCode]
    · simp [Except.mapError, exitCodeOf, Failure.of, Failure.exitCode]

theorem Workspace.judge_exitCode (w : Workspace) (r : Program.Report) :
    exitCodeOf (w.judge r) = if w.config.strictPredicateOrdering = true ∧ r.lateReads ≠ [] then 1 else 0 := by
  have hcond : (w.config.strictPredicateOrdering && !r.lateReads.isEmpty) = true ↔
      w.config.strictPredicateOrdering = true ∧ r.lateReads ≠ [] := by
    simp
  rw [judge]
  split
  next h =>
    rw [if_pos (hcond.1 h)]
    rfl
  next h =>
    rw [if_neg (mt hcond.2 h)]
    rfl

end Codes

section Commands

variable {w : Workspace} {t : FileTree} {c : Catalog} {p : Program}

theorem Command.exits_of_load (hload : t.run w.load = (.ok (c, p), t)) (command : Command) :
    command.Exits t w.config c p (exitCodeOf (t.run (command.run w)).1) := by
  obtain ⟨text, h, hp⟩ := Workspace.holds_of_load hload
  obtain ⟨ht, hs, -, -, -⟩ := Program.loaded_of_ofText hp
  cases command with
  | validate =>
    rw [run, run_bind_pure, Workspace.validate, run_bind, hload]
    dsimp only
    rw [run_lift, exitCodeOf_map]
    exact w.judge_exitCode p.report
  | order =>
    obtain ⟨hrun, -⟩ := Workspace.run_edit h hp .order
    rw [run, run_bind_pure, show t.run w.order = _ from hrun]
    rfl
  | slice id =>
    rw [run, run_bind_pure, Workspace.slice, run_bind, hload]
    dsimp only
    rw [run_lift, exitCodeOf_map]
    exact ((Program.finds_slice ht hs.toFormed).map _).exitCode
  | available id kind =>
    rw [run, run_bind_pure, Workspace.available, run_bind, hload]
    dsimp only
    rw [run_lift, exitCodeOf_map]
    exact (Program.finds_available ht hs.toFormed kind).exitCode
  | insert path =>
    intro blockText b htext hb
    have hcode : exitCodeOf (t.run (Command.run w (.insert path))).1 = exitCodeOf (p.insertSound b) := by
      rw [run, run_bind_pure, Workspace.run_insert h hp, htext, exitCodeOf_map]
      dsimp only
      rw [hb]
      dsimp only
      cases p.insertSound b <;> rfl
    rw [hcode]
    exact (ht.insertSound_cases hs b).exitCode
  | move id d =>
    have hcode : exitCodeOf (t.run (Command.run w (.move id d))).1 =
        exitCodeOf ((p.move id d).mapError fun e => Failure.of (.program e)) := by
      rw [run, run_bind_pure, Workspace.run_move h hp, exitCodeOf_map]
      cases p.move id d <;> rfl
    rw [hcode]
    exact ht.move_exitCode hs.toFormed id d

namespace Command.Exits

variable {config : Config} {code : UInt8}

/-- What an insertion ends with, if a block is read from its file. -/
theorem code_insert {n : UInt8} {path text : String} (h : (Command.insert path).Exits t config c p code)
    (htext : t.readText path = some text)
    (hn : (Block.ofFile c path text).toOption.map (fun b =>
      if p.HasBlock b.id then 1 else if p.LacksEnumerator b then 2 else if p.IsUnfit b then 1 else 0) = some n) :
    code = n := by
  obtain ⟨b, hb, hn⟩ := Option.map_eq_some_iff.1 hn
  exact (h text b htext (ok_of_toOption hb)).trans hn

/-- The conditions of a move leave it one code. -/
theorem code_move {id : BlockId} {d : Direction} (h : (Command.move id d).Exits t config c p code) (ht : p.Truthful)
    (hf : Formed p.blocks) : code = exitCodeOf ((p.move id d).mapError fun e => Failure.of (.program e)) := by
  obtain ⟨hmissing, hlate, hcode⟩ := h
  obtain ⟨hmissing', hlate', hcode'⟩ := ht.move_exitCode hf id d
  have htwo := hmissing.trans hmissing'.symm
  have hthree := hlate.trans hlate'.symm
  rcases hcode with h | h | h
  · rcases hcode' with h' | h' | h'
    · exact h.trans h'.symm
    · exact (htwo.2 h').trans h'.symm
    · exact (hthree.2 h').trans h'.symm
  · exact h.trans (htwo.1 h).symm
  · exact h.trans (hthree.1 h).symm

end Command.Exits

end Commands

/-- **Exit codes classify outcomes.** In every workspace whose program has loaded, a look-up ends with 2 just where no
block has the id, and so does a move; a move ends with 3 just where the block has a neighbour and some predicate
would read too early with the two exchanged; an insertion tells a taken id (1), a missing enumerator (2) and an unfit
block (1) apart, in this order; a validation fails for late reads, if the settings say so; and all else ends with 0.
It is the code that a command line ends with. -/
theorem exit_codes_classify_outcomes (w : Workspace) (t : FileTree) (c : Catalog) (p : Program)
    (hload : t.run w.load = (.ok (c, p), t)) :
    (∀ command : Command,
      command.Exits t w.config c p (Outcome.ofResult (t.run (command.run w)).1).code) ∧
    ∀ words i, CommandLine.Request.ofArguments? words = some (.invoke i) → i.Opens t w →
      i.command.Exits t w.config c p (t.answer words).1.code := by
  have hexits : ∀ command : Command, command.Exits t w.config c p (Outcome.ofResult (t.run (command.run w)).1).code := by
    intro command
    rw [Outcome.ofResult_code]
    exact command.exits_of_load hload
  refine ⟨hexits, fun words i hi hw => ?_⟩
  rw [answer_invoke hi, show t.run (Workspace.openAt i.configPath i.overrides) = _ from hw]
  exact hexits i.command

namespace IncomeForm

def income : Question := { id := 9, name := "income", type := .currency }

def catalog : Catalog := ⟨[income]⟩

def asking : Block := { id := 5, name := "income", questions := [{ question := income }] }

/-- Shown to those who have told their income. -/
def depending : Block :=
  let told : Comparison :=
    { question := income.id, scalar := "currency", operator := .notEqual, value := ⟨.string "", trivial⟩ }
  { id := 6, name := "benefits", visibility := some { root := .leaf told, action := .showBlock } }

/-- The household, and the two blocks about the income in one order or the other. -/
def form (rest : List Block) : Program :=
  Draft.build { details := { id := 7, adminName := "form" }, blocks := household.take 4 ++ rest }

def files : FileTree := ofFiles [
  ("questions", "[\x7b\"id\":9,\"name\":\"income\",\"questionType\":\"currency\"\x7d]"),
  ("program", (form [asking, depending]).document),
  ("late", (form [depending, asking]).document),
  ("strict.toml", "strict_predicate_ordering = true\n"),
  ("taken", "\x7b\"id\":3,\"name\":\"jobs\"\x7d"),
  ("lost", "\x7b\"id\":8,\"name\":\"pets\",\"enumeratorId\":4\x7d"),
  ("unnumbered", "\x7b\"id\":0,\"name\":\"pets\"\x7d"),
  ("pets", "\x7b\"id\":8,\"name\":\"pets\",\"enumeratorId\":2\x7d")]

def workspace (config : Config) (programPath : String) : Workspace :=
  { config, programPath, catalogPath := "questions" }

theorem holds (config : Config) {name : String} {rest : List Block}
    (htext : files.readText name = some (form rest).document) :
    (workspace config name).Holds files catalog (form rest).document := by
  have hquestions : Question.listOfText? "[\x7b\"id\":9,\"name\":\"income\",\"questionType\":\"currency\"\x7d]" =
      some [income] := by
    decide +kernel
  have hplain : isPlain "questions" = true := by decide +kernel
  refine ⟨⟨_, readText_ofFiles hplain rfl, ?_⟩, htext⟩
  rw [Catalog.ofFile, hquestions]
  rfl

theorem storable : (form [asking, depending]).Storable catalog where
  defects := by decide +kernel
  named := by decide
  agrees := by decide +kernel
  floatFree := by decide +kernel

theorem storable_late : (form [depending, asking]).Storable catalog where
  defects := by decide +kernel
  named := by decide
  agrees := by decide +kernel
  floatFree := by decide +kernel

theorem load_program (config : Config) :
    files.run (workspace config "program").load = (.ok (catalog, form [asking, depending]), files) := by
  have hplain : isPlain "program" = true := by decide +kernel
  exact Workspace.run_load_ok (holds config (readText_ofFiles hplain rfl))
    (storable.ofText_document (.build _) (by decide +kernel))

theorem load_late (config : Config) :
    files.run (workspace config "late").load = (.ok (catalog, form [depending, asking]), files) := by
  have hplain : isPlain "late" = true := by decide +kernel
  exact Workspace.run_load_ok (holds config (readText_ofFiles hplain rfl))
    (storable_late.ofText_document (.build _) (by decide +kernel))

theorem opens (programPath : String) (command : Command) :
    Invocation.Opens { overrides := ⟨programPath, "questions"⟩, command } files (workspace {} programPath) := by
  have hthere : files.isThere "progdef.toml" = false := isThere_ofFiles (by decide +kernel)
  exact run_openAt_default hthere _

theorem opens_strict (programPath : String) (command : Command) :
    Invocation.Opens { configPath := "strict.toml", overrides := ⟨programPath, "questions"⟩, command } files
      (workspace { strictPredicateOrdering := true } programPath) := by
  have hthere : files.isThere "strict.toml" = true := isThere_ofFiles (by decide +kernel)
  have htext : files.readText "strict.toml" = some _ := readText_ofFiles (by decide +kernel) rfl
  have hconfig : Config.ofFile "strict.toml" "strict_predicate_ordering = true\n" =
      .ok { strictPredicateOrdering := true } := by
    have hsettings : Config.ofText? "strict_predicate_ordering = true\n" = some { strictPredicateOrdering := true } := by
      decide +kernel
    rw [Config.ofFile, hsettings]
    rfl
  exact run_openAt_of_file hthere htext hconfig _

end IncomeForm

open IncomeForm in
/-- The outcomes of the commands on the income form, each with its code. The benefits cannot be moved up, before the
question that they read. -/
theorem exit_codes_classify_outcomes_income :
    let code (options command : List String) := (files.answer (options ++ ["--catalog", "questions"] ++ command)).1.code
    let plain := code ["--program", "program"]
    let strict (name : String) := code ["--config", "strict.toml", "--program", name] ["validate"]
    plain ["slice", "3"] = 0 ∧ plain ["slice", "9"] = 2 ∧
      plain ["available", "6"] = 0 ∧ plain ["available", "9", "--eligibility"] = 2 ∧
      plain ["order"] = 0 ∧
      plain ["insert", "taken"] = 1 ∧ plain ["insert", "lost"] = 2 ∧ plain ["insert", "unnumbered"] = 1 ∧
      plain ["insert", "pets"] = 0 ∧
      plain ["move", "9", "up"] = 2 ∧ plain ["move", "6", "up"] = 3 ∧ plain ["move", "5", "up"] = 0 ∧
      strict "program" = 0 ∧ strict "late" = 1 ∧ code ["--program", "late"] ["validate"] = 0 := by
  intro code plain strict
  obtain ⟨-, hlines⟩ := exit_codes_classify_outcomes _ _ _ _ (load_program {})
  obtain ⟨-, hstrict⟩ := exit_codes_classify_outcomes _ _ _ _ (load_program { strictPredicateOrdering := true })
  obtain ⟨-, hlate⟩ := exit_codes_classify_outcomes _ _ _ _ (load_late {})
  obtain ⟨-, hstrictLate⟩ := exit_codes_classify_outcomes _ _ _ _ (load_late { strictPredicateOrdering := true })
  have hends : ∀ words command,
      CommandLine.Request.ofArguments? (["--program", "program", "--catalog", "questions"] ++ words) =
        some (.invoke { overrides := ⟨"program", "questions"⟩, command }) →
      command.Exits files {} catalog (form [asking, depending]) (plain words) :=
    fun words command hwords => hlines _ _ hwords (opens "program" command)
  have hmove : ∀ words id d,
      CommandLine.Request.ofArguments? (["--program", "program", "--catalog", "questions"] ++ words) =
        some (.invoke { overrides := ⟨"program", "questions"⟩, command := .move id d }) →
      plain words = exitCodeOf (((form [asking, depending]).move id d).mapError fun e => Failure.of (.program e)) :=
    fun words id d hwords =>
      (hends words (.move id d) hwords).code_move (.build _) (Program.formed_of_defects storable.defects)
  refine ⟨Eq.trans (hends _ (.slice 3) (by decide +kernel)) (by decide +kernel),
    Eq.trans (hends _ (.slice 9) (by decide +kernel)) (by decide +kernel),
    Eq.trans (hends _ (.available 6 .visibility) (by decide +kernel)) (by decide +kernel),
    Eq.trans (hends _ (.available 9 .eligibility) (by decide +kernel)) (by decide +kernel),
    hends _ .order (by decide +kernel), ?_, ?_, ?_, ?_,
    (hmove _ 9 .up (by decide +kernel)).trans (by decide +kernel),
    (hmove _ 6 .up (by decide +kernel)).trans (by decide +kernel),
    (hmove _ 5 .up (by decide +kernel)).trans (by decide +kernel),
    Eq.trans (hstrict _ _ (by decide +kernel) (opens_strict "program" .validate)) (by decide +kernel),
    Eq.trans (hstrictLate _ _ (by decide +kernel) (opens_strict "late" .validate)) (by decide +kernel),
    Eq.trans (hlate _ _ (by decide +kernel) (opens "late" .validate)) (by decide +kernel)⟩
  · exact (hends _ (.insert "taken") (by decide +kernel)).code_insert (readText_ofFiles (by decide +kernel) rfl)
      (by decide +kernel)
  · exact (hends _ (.insert "lost") (by decide +kernel)).code_insert (readText_ofFiles (by decide +kernel) rfl)
      (by decide +kernel)
  · exact (hends _ (.insert "unnumbered") (by decide +kernel)).code_insert (readText_ofFiles (by decide +kernel) rfl)
      (by decide +kernel)
  · exact (hends _ (.insert "pets") (by decide +kernel)).code_insert (readText_ofFiles (by decide +kernel) rfl)
      (by decide +kernel)

end FormProgram
