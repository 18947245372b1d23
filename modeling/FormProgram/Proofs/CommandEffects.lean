/-
What commands change.

All that only reads leaves the tree of files as it is, whether it succeeds or fails (`ReadOnly`). An edit reads,
decides and then writes once, so that a failure comes before the write (`Command.run_effect`). A command line
changes nothing but the program file of its workspace, and that only when it ends well
(`failed_commands_change_nothing`).
-/
import FormProgram.Command.Line
import FormProgram.Proofs.DiskRuns
import FormProgram.Proofs.InsertedFile

set_option autoImplicit false

namespace FormProgram

open FileTree

/-! ## Work that only reads -/

/-- Whatever comes of the work, the tree is as before. -/
def FileTree.ReadOnly {α : Type} (work : FileWork (StateM FileTree) α) : Prop :=
  ∀ t : FileTree, (t.run work).2 = t

namespace FileTree.ReadOnly

variable {α β : Type} {work : FileWork (StateM FileTree) α}

theorem pure (a : α) : ReadOnly (Pure.pure a : FileWork (StateM FileTree) α) := fun _ => rfl

theorem lift (r : Except Failure α) : ReadOnly (liftM r : FileWork (StateM FileTree) α) := by
  intro t
  rw [run_lift]

theorem readText (a : Activity) (path : String) : ReadOnly (FileWork.readText a path) := by
  intro t
  rw [run_readText]

theorem isThere (path : String) :
    ReadOnly (liftM (FileAccess.isThere path : StateM FileTree Bool) : FileWork (StateM FileTree) Bool) :=
  fun _ => rfl

theorem during (h : ReadOnly work) (a : Activity) : ReadOnly (FileWork.during a work) := by
  intro t
  rw [run_during]
  exact h t

theorem bind (h : ReadOnly work) {next : α → FileWork (StateM FileTree) β} (hnext : ∀ a, ReadOnly (next a)) :
    ReadOnly (work >>= next) := by
  intro t
  have ht := h t
  rw [run_bind]
  cases hrun : t.run work with
  | mk r t' =>
    rw [hrun] at ht
    cases ht
    cases r with
    | error f => rfl
    | ok a => exact hnext a _

end FileTree.ReadOnly

section Reading

theorem readOnly_config (path : String) : ReadOnly (Config.load path) := by
  refine (ReadOnly.isThere path).bind fun there => ?_
  cases there with
  | true => exact (ReadOnly.readText _ path).bind fun text => .lift (Config.ofFile path text)
  | false => exact .pure _

theorem readOnly_openAt (path : String) (o : Overrides) : ReadOnly (Workspace.openAt path o) :=
  ((readOnly_config path).during _).bind fun _ => .pure _

theorem readOnly_load (w : Workspace) : ReadOnly w.load := by
  have hcatalog : ReadOnly w.loadCatalog :=
    (ReadOnly.readText _ w.catalogPath).bind fun text => .lift (Catalog.ofFile w.catalogPath text)
  have hprogram : ∀ c, ReadOnly (Program.load c w.programPath) := fun c =>
    (ReadOnly.readText _ w.programPath).bind fun text => .lift (Program.ofFile c w.programPath text)
  exact hcatalog.bind fun c => (hprogram c).bind fun _ => .pure _

end Reading

/-! ## Edits -/

namespace Command

def isEdit : Command → Bool
  | .order | .insert _ | .move _ _ => true
  | .validate | .slice _ | .available _ _ => false

/-- What an edit command makes of a program, given the files and the catalog. -/
inductive Edits (t : FileTree) (c : Catalog) (p : Program) : Command → Program → Prop
  | order : Edits t c p .order p.order
  | insert {path text : String} {b : Block} {q : Program} : t.readText path = some text →
      Block.ofFile c path text = .ok b → p.insertSound b = .ok q → Edits t c p (.insert path) q
  | move {id : BlockId} {d : Direction} {q : Program} : p.move id d = .ok q → Edits t c p (.move id d) q

theorem readOnly_run (w : Workspace) {command : Command} (h : command.isEdit = false) :
    ReadOnly (command.run w) := by
  cases command with
  | order | insert | move => cases h
  | validate =>
    exact ((readOnly_load w).bind fun (_, p) => .lift (w.judge p.report)).bind fun _ => .pure _
  | slice id => exact ((readOnly_load w).bind fun (_, p) => .lift _).bind fun _ => .pure _
  | available id kind => exact ((readOnly_load w).bind fun (_, p) => .lift _).bind fun _ => .pure _

/-- What may become of the files: nothing where the command fails, and otherwise the edited program takes the
place of the one that was in the program file. -/
def Effect (command : Command) (w : Workspace) (t : FileTree) : Except Failure String × FileTree → Prop
  | (.error _, t') => t' = t
  | (.ok output, t') => ∃ c p q l, t.run w.load = (.ok (c, p), t) ∧ Edits t c p command q ∧
      output = (EditReport.of p q).text ∧ t.locate w.programPath = some l ∧
      t' = t.set l (some (.file q.document.toUTF8))

end Command

namespace FileTree

variable {α β : Type} {t : FileTree}

/-- Work of which only the result is turned into something else. -/
theorem run_bind_pure (work : FileWork (StateM FileTree) α) (f : α → β) :
    t.run (do return f (← work)) = ((t.run work).1.map f, (t.run work).2) := by
  rw [run_bind]
  cases t.run work with
  | mk r t' => cases r <;> rfl

end FileTree

namespace Command

variable {w : Workspace} {t : FileTree} {c : Catalog} {text : String} {p : Program}

theorem effect_of_written (h : w.Holds t c text) (hp : Program.ofText c text = .ok p) {command : Command}
    {q : Program} (he : Edits t c p command q) :
    command.Effect w t (.ok (EditReport.of p q).text, t.put w.programPath q.document) := by
  obtain ⟨l, hl, -⟩ := exists_file_of_readText h.program
  exact ⟨c, p, q, l, Workspace.run_load_ok h hp, he, rfl, hl, put_eq_set hl _⟩

/-- **An edit that fails has changed nothing**, whatever it is that fails; one that succeeds has written the edited
program. -/
theorem run_effect (w : Workspace) (t : FileTree) {command : Command} (he : command.isEdit = true) :
    command.Effect w t (t.run (command.run w)) := by
  have hread := readOnly_load w t
  cases hload : t.run w.load with
  | mk r t' =>
    rw [hload] at hread
    cases hread
    cases r with
    | error f =>
      have hfail : ∀ {α : Type} (next : Catalog × Program → FileWork (StateM FileTree) α),
          t'.run (w.load >>= next) = (.error f, t') := by
        intro α next
        rw [run_bind, hload]
      cases command with
      | validate | slice | available => cases he
      | order =>
        rw [run, run_bind_pure, Workspace.order, hfail]
        exact rfl
      | insert path =>
        rw [run, run_bind_pure, Workspace.insert, hfail]
        exact rfl
      | move id d =>
        rw [run, run_bind_pure, Workspace.move, hfail]
        exact rfl
    | ok loaded =>
      obtain ⟨c, p⟩ := loaded
      obtain ⟨text, h, hp⟩ := Workspace.holds_of_load hload
      cases command with
      | validate | slice | available => cases he
      | order =>
        obtain ⟨hrun, -⟩ := Workspace.run_edit h hp .order
        rw [run, run_bind_pure, show t'.run w.order = _ from hrun]
        exact effect_of_written h hp .order
      | insert path =>
        rw [run, run_bind_pure, Workspace.run_insert h hp]
        cases htext : t'.readText path with
        | none => exact rfl
        | some blockText =>
          dsimp only
          cases hb : Block.ofFile c path blockText with
          | error f => exact rfl
          | ok b =>
            dsimp only
            cases hq : p.insertSound b with
            | error f => exact rfl
            | ok q => exact effect_of_written h hp (.insert htext hb hq)
      | move id d =>
        rw [run, run_bind_pure, Workspace.run_move h hp]
        cases hm : p.move id d with
        | error e => exact rfl
        | ok q => exact effect_of_written h hp (.move hm)

end Command

/-! ## Command lines -/

theorem Failure.exitCode_ne_zero (f : Failure) : f.exitCode ≠ 0 := by
  rw [exitCode]
  split <;> decide

theorem EditReport.text_of (p q : Program) :
    (EditReport.of p q).text = "program " ++ toString q.id
      ++ (if q.blocks.map (·.id) = p.blocks.map (·.id) then " unchanged: " else " updated: ")
      ++ " ".intercalate (q.blocks.map fun b => toString b.id) ++ "\n" := by
  have hid : ∀ id : BlockId, Decimal.text id.toNat = toString id := fun id => Decimal.text_eq_toString id.toNat
  have hids : idTexts (EditReport.of p q).ids = q.blocks.map fun b => toString b.id := by
    rw [idTexts, EditReport.of, List.map_map]
    exact List.map_congr_left fun b _ => hid b.id
  rw [text, hids, hid]
  by_cases h : q.blocks.map (·.id) = p.blocks.map (·.id) <;> simp [EditReport.of, h]

/-- The workspace that an invocation opens. -/
def Invocation.Opens (i : Invocation) (t : FileTree) (w : Workspace) : Prop :=
  t.run (Workspace.openAt i.configPath i.overrides) = (.ok w, t)

namespace FileTree

variable {t : FileTree} {i : Invocation} {words : List String}

/-- What a command line is answered, and the tree after it. -/
def answer (t : FileTree) (words : List String) : Outcome × FileTree :=
  StateT.run (CommandLine.answer words : StateM FileTree Outcome) t

theorem run_openAt_default {path : String} (h : t.isThere path = false) (o : Overrides) :
    t.run (Workspace.openAt path o) = (.ok (.ofConfig path o {}), t) := by
  have hthere : t.run (liftM (FileAccess.isThere path : StateM FileTree Bool)) = (.ok (t.isThere path), t) := rfl
  rw [Workspace.openAt, run_bind, run_during, Config.load, run_bind, hthere, h]
  rfl

theorem run_openAt_of_file {path text : String} {config : Config} (hthere : t.isThere path = true)
    (htext : t.readText path = some text) (hconfig : Config.ofFile path text = .ok config) (o : Overrides) :
    t.run (Workspace.openAt path o) = (.ok (.ofConfig path o config), t) := by
  have hrun : t.run (liftM (FileAccess.isThere path : StateM FileTree Bool)) = (.ok (t.isThere path), t) := rfl
  rw [Workspace.openAt, run_bind, run_during, Config.load, run_bind, hrun, hthere]
  dsimp only
  rw [if_pos rfl, run_bind, run_readText, htext]
  dsimp only
  rw [run_lift, hconfig]
  rfl

/-- What becomes of an invocation: its workspace is opened, and if that fails nothing is changed; otherwise its
command is run there. -/
theorem answer_invoke (hi : CommandLine.Request.ofArguments? words = some (.invoke i)) :
    t.answer words = match t.run (Workspace.openAt i.configPath i.overrides) with
      | (.error f, _) => (.ofResult (.error f), t)
      | (.ok w, _) => (.ofResult (t.run (i.command.run w)).1, (t.run (i.command.run w)).2) := by
  have hrun : t.answer words =
      (.ofResult (t.run (Workspace.openAt i.configPath i.overrides >>= i.command.run)).1,
        (t.run (Workspace.openAt i.configPath i.overrides >>= i.command.run)).2) := by
    rw [answer, CommandLine.answer.eq_def, hi]
    rfl
  have hopen := readOnly_openAt i.configPath i.overrides t
  rw [hrun, run_bind]
  cases hw : t.run (Workspace.openAt i.configPath i.overrides) with
  | mk r t' =>
    rw [hw] at hopen
    cases hopen
    cases r <;> rfl

/-- All but invocations is answered without any file. -/
theorem answer_other (hw : ∀ i, CommandLine.Request.ofArguments? words ≠ some (.invoke i)) :
    (t.answer words).2 = t := by
  rw [answer, CommandLine.answer]
  cases hr : CommandLine.Request.ofArguments? words with
  | none => rfl
  | some r =>
    cases r with
    | invoke i => exact absurd hr (hw i)
    | help => rfl
    | version => rfl

end FileTree

/-- An edit command ends well: the edited program has been written to the program file of the workspace, and a line
with its ids is printed, in decimal and in the order of the blocks. -/
def Invocation.Writes (i : Invocation) (t : FileTree) (r : Outcome × FileTree) : Prop :=
  ∃ w c p q l, i.Opens t w ∧ t.run w.load = (.ok (c, p), t) ∧ Command.Edits t c p i.command q ∧
    r.1.output = "program " ++ toString q.id
      ++ (if q.blocks.map (·.id) = p.blocks.map (·.id) then " unchanged: " else " updated: ")
      ++ " ".intercalate (q.blocks.map fun b => toString b.id) ++ "\n" ∧
    t.locate w.programPath = some l ∧
    r.2 = t.set l (some (.file ((StoredProgram.ofProgram q).toJson.pretty ++ "\n").toUTF8))

/-- A command line leaves the files as they are, and then it is no edit or has failed, or it is an edit that ends
well. -/
theorem FileTree.answer_cases (t : FileTree) (words : List String) :
    ((t.answer words).2 = t ∧ ∀ i, CommandLine.Request.ofArguments? words = some (.invoke i) →
      i.command.isEdit = true → (t.answer words).1.code ≠ 0) ∨
    ∃ i, CommandLine.Request.ofArguments? words = some (.invoke i) ∧ i.command.isEdit = true ∧
      (t.answer words).1.code = 0 ∧ i.Writes t (t.answer words) := by
  by_cases hinvoke : ∃ i, CommandLine.Request.ofArguments? words = some (.invoke i)
  · obtain ⟨i, hi⟩ := hinvoke
    have hopen := readOnly_openAt i.configPath i.overrides t
    rw [answer_invoke hi]
    cases hw : t.run (Workspace.openAt i.configPath i.overrides) with
    | mk r t' =>
    rw [hw] at hopen
    cases hopen
    cases r with
    | error f => exact .inl ⟨rfl, fun _ _ _ => f.exitCode_ne_zero⟩
    | ok w =>
      dsimp only
      cases hedit : i.command.isEdit with
      | false =>
        refine .inl ⟨Command.readOnly_run w hedit _, fun j hj hjedit => ?_⟩
        rw [hi] at hj
        cases hj
        rw [hedit] at hjedit
        cases hjedit
      | true =>
        have heffect := Command.run_effect w t' hedit
        cases hr : t'.run (i.command.run w) with
        | mk r t'' =>
          rw [hr] at heffect
          cases r with
          | error f => exact .inl ⟨heffect, fun _ _ _ => f.exitCode_ne_zero⟩
          | ok output =>
            obtain ⟨c, p, q, l, hload, hedits, houtput, hl, ht⟩ := heffect
            exact .inr ⟨i, hi, hedit, rfl, w, c, p, q, l, hw, hload, hedits, houtput.trans (EditReport.text_of p q), hl, ht⟩
  · have hother : ∀ i, CommandLine.Request.ofArguments? words ≠ some (.invoke i) := fun i hi => hinvoke ⟨i, hi⟩
    exact .inl ⟨answer_other hother, fun i hi => absurd hi (hother i)⟩

/-- **Failed commands change nothing.** Whatever the files and the command line are: if the exit code is not zero,
all files are as before; so they are unless the command is an edit; nothing but the program file of the workspace
ever changes; and after an edit with exit code zero that file is the document of the edited program, whose ids are
what is printed. -/
theorem failed_commands_change_nothing (t : FileTree) (words : List String) :
    ((t.answer words).1.code ≠ 0 → (t.answer words).2 = t) ∧
    ((∀ i, CommandLine.Request.ofArguments? words = some (.invoke i) → i.command.isEdit = false) →
      (t.answer words).2 = t) ∧
    (∀ l, (t.answer words).2.node? l ≠ t.node? l →
      ∃ i w, CommandLine.Request.ofArguments? words = some (.invoke i) ∧ i.Opens t w ∧
        t.locate w.programPath = some l) ∧
    ∀ i, CommandLine.Request.ofArguments? words = some (.invoke i) → i.command.isEdit = true →
      (t.answer words).1.code = 0 → i.Writes t (t.answer words) := by
  rcases t.answer_cases words with ⟨hsame, hcode⟩ | ⟨i, hi, hedit, hcode, hwrites⟩
  · refine ⟨fun _ => hsame, fun _ => hsame, fun l hl => ?_, fun i hi hedit hzero => ?_⟩
    · rw [hsame] at hl
      exact absurd rfl hl
    · exact absurd hzero (hcode i hi hedit)
  · refine ⟨fun hne => absurd hcode hne, fun hno => ?_, fun l hl => ?_, fun j hj _ _ => ?_⟩
    · rw [hno i hi] at hedit
      cases hedit
    · obtain ⟨w, c, p, q, l', hopens, -, -, -, hl', ht'⟩ := hwrites
      have hsame : l = l' := by
        by_contra hne
        rw [ht', node?_set_other t _ hne] at hl
        exact hl rfl
      exact ⟨i, w, hi, hopens, hsame ▸ hl'⟩
    · rw [hi] at hj
      cases hj
      exact hwrites

namespace ShortForm

/-- A form of two blocks. -/
def form : Program :=
  Draft.build { details := { id := 7, adminName := "form" }, blocks := [household[0], household[4]] }

def files : FileTree := ofFiles [("questions", "[]"), ("program", form.document)]

/-- What is in the program file once the second block has changed places with the first. -/
def moved : String := String.join [
  "\x7b\n",
  "  \"id\": 7,\n",
  "  \"adminName\": \"form\",\n",
  "  \"adminDescription\": \"\",\n",
  "  \"externalLink\": \"\",\n",
  "  \"localizedName\": \x7b\x7d,\n",
  "  \"localizedDescription\": \x7b\x7d,\n",
  "  \"programType\": \"default\",\n",
  "  \"eligibilityIsGating\": false,\n",
  "  \"blockDefinitions\": [\n",
  "    \x7b\n",
  "      \"id\": 5,\n",
  "      \"name\": \"summary\",\n",
  "      \"description\": \"\",\n",
  "      \"isEnumerator\": false,\n",
  "      \"questions\": []\n",
  "    \x7d,\n",
  "    \x7b\n",
  "      \"id\": 1,\n",
  "      \"name\": \"contact\",\n",
  "      \"description\": \"\",\n",
  "      \"isEnumerator\": false,\n",
  "      \"questions\": []\n",
  "    \x7d\n",
  "  ]\n",
  "\x7d\n"]

theorem holds : DeepInsertion.workspace.Holds files ⟨[]⟩ form.document ∧ Program.ofText ⟨[]⟩ form.document = .ok form := by
  have hform : form.Storable ⟨[]⟩ := {
    defects := by decide +kernel
    named := by decide
    agrees := by decide +kernel
    floatFree := by decide +kernel }
  exact ⟨Workspace.holds_ofFiles (by decide +kernel) (by decide +kernel) rfl (Catalog.ofFile_empty _) rfl,
    hform.ofText_document (.build _) (by decide +kernel)⟩

def invocation (command : Command) : Invocation := { overrides := ⟨"program", "questions"⟩, command }

theorem opens (command : Command) : (invocation command).Opens files DeepInsertion.workspace := by
  have hthere : files.isThere "progdef.toml" = false := isThere_ofFiles (by decide +kernel)
  exact run_openAt_default hthere _

theorem code_move {words : List String} {id : BlockId} {d : Direction}
    (hwords : CommandLine.Request.ofArguments? words = some (.invoke (invocation (.move id d)))) :
    (files.answer words).1.code = 0 ↔ (form.move id d).toOption.isSome = true := by
  obtain ⟨hholds, hp⟩ := ShortForm.holds
  rw [answer_invoke hwords, show files.run (Workspace.openAt _ _) = _ from opens _]
  dsimp only [invocation]
  rw [Command.run, run_bind_pure, Workspace.run_move hholds hp]
  cases form.move id d with
  | error e => exact iff_of_false (Failure.exitCode_ne_zero _) Bool.false_ne_true
  | ok q => exact iff_of_true rfl rfl

/-- What becomes of the form when its second block is moved up. -/
theorem move_summary : ∃ q, form.move 5 .up = .ok q ∧ q.id = 7 ∧ q.blocks.map (·.id) = [5, 1] ∧ q.document = moved := by
  have hmoved : (form.move 5 .up).toOption.map (fun q =>
      (q.id, q.blocks.map (·.id), (StoredProgram.ofProgram q).toJson.prettyChars 0 ++ ['\n'])) =
        some (7, [5, 1], moved.toList) := by
    rw [moved, String.toList_join]
    simp only [List.flatMap_cons, List.flatMap_nil, String.reduceToList]
    decide +kernel
  obtain ⟨q, hq, hfacts⟩ := Option.map_eq_some_iff.1 hmoved
  simp only [Prod.mk.injEq] at hfacts
  obtain ⟨hid, hids, hchars⟩ := hfacts
  exact ⟨q, ok_of_toOption hq, hid, hids, String.toList_inj.1 ((Json.toList_pretty _).trans hchars)⟩

theorem document_ne_moved : form.document ≠ moved := by
  intro hsame
  have hchars := congrArg String.toList hsame
  rw [Program.document, Json.toList_pretty, moved, String.toList_join] at hchars
  simp only [List.flatMap_cons, List.flatMap_nil, String.reduceToList] at hchars
  exact absurd hchars (by decide +kernel)

end ShortForm

open ShortForm in
/-- In the short form the summary is moved up: a line is printed, and the program file holds another text than before.
A move of a block that is not there leaves all files alone, as does a look at a slice. -/
theorem failed_commands_change_nothing_form :
    let words (command : List String) := ["--program", "program", "--catalog", "questions"] ++ command
    let up := files.answer (words ["move", "5", "up"])
    let missing := files.answer (words ["move", "9", "up"])
    up.1.code = 0 ∧ up.1.output = "program 7 updated: 5 1\n" ∧
      up.2 = files.set ["program"] (some (.file moved.toUTF8)) ∧ files.readText "program" ≠ some moved ∧
      missing.1.code ≠ 0 ∧ missing.2 = files ∧ (files.answer (words ["slice", "5"])).2 = files := by
  intro words up missing
  have hup : CommandLine.Request.ofArguments? (words ["move", "5", "up"]) =
      some (.invoke (invocation (.move 5 .up))) := by
    decide +kernel
  have hmissing : CommandLine.Request.ofArguments? (words ["move", "9", "up"]) =
      some (.invoke (invocation (.move 9 .up))) := by
    decide +kernel
  have hslice : CommandLine.Request.ofArguments? (words ["slice", "5"]) = some (.invoke (invocation (.slice 5))) := by
    decide +kernel
  obtain ⟨hholds, hp⟩ := ShortForm.holds
  obtain ⟨q, hq, hid, hids, hdocument⟩ := move_summary
  have hcode : up.1.code = 0 := (code_move hup).2 (by rw [hq]; rfl)
  have hrefused : missing.1.code ≠ 0 := mt (code_move hmissing).1 (by decide +kernel)
  obtain ⟨w, c, p, q', l, hopens, hload, hedits, houtput, hl, hfiles⟩ :=
    (failed_commands_change_nothing files (words ["move", "5", "up"])).2.2.2 _ hup rfl hcode
  -- There is one workspace, one program and one result of the move.
  obtain rfl : DeepInsertion.workspace = w := by
    have hsame := (opens (.move 5 .up)).symm.trans hopens
    cases hsame
    rfl
  rw [Workspace.run_load_ok hholds hp] at hload
  cases hload
  cases hedits with
  | move hmove =>
  rw [hq] at hmove
  cases hmove
  have hline : (q.blocks.map fun b => toString b.id) = ["5", "1"] := by
    have hmap : (q.blocks.map fun b => toString b.id) = (q.blocks.map (·.id)).map toString := List.map_map.symm
    rw [hmap, hids]
    decide +kernel
  have hplace : l = ["program"] :=
    Option.some.inj (hl.symm.trans (locate_ofFiles (by decide +kernel)))
  refine ⟨hcode, ?_, ?_, ?_, hrefused,
    (failed_commands_change_nothing files (words ["move", "9", "up"])).1 hrefused,
    (failed_commands_change_nothing files (words ["slice", "5"])).2.1 fun j hj => ?_⟩
  · rw [houtput, hid, hids, hline]
    decide +kernel
  · rw [hfiles, hplace, ← hdocument]
    rfl
  · exact fun hsame => document_ne_moved (Option.some.inj (hholds.program.symm.trans hsame))
  · rw [hslice] at hj
    cases hj
    rfl

end FormProgram
