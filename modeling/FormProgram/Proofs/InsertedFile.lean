/-
What an insertion leaves in the program file.

The program is checked before it is written, but not that its text can be read again. A block file nests as
deep as any text may, and in the program the block lies two levels deeper; of the five stages of reading only
the first can fail for that (`inserted_file_loads`), and it does (`insertion_unreadable`).
-/
import FormProgram.Proofs.FileRuns

set_option autoImplicit false

namespace FormProgram

open FileTree

namespace Workspace

variable {w : Workspace} {t : FileTree} {c : Catalog} {text : String} {p : Program}

/-- What an insertion comes to: the block file is read, the block is inserted and the program checked, and
the result is written, in the same way under all settings. -/
theorem run_insert (h : w.Holds t c text) (hp : Program.ofText c text = .ok p) (path : String) :
    t.run (w.insert path) = match t.readText path with
      | none => (.error ⟨[.readBlock path], .files⟩, t)
      | some blockText =>
        match Block.ofFile c path blockText with
        | .error f => (.error f, t)
        | .ok b =>
          match p.insertSound b with
          | .error f => (.error f, t)
          | .ok q => (.ok (.of p q), t.put w.programPath q.document) := by
  rw [insert, run_bind, run_load h, Program.ofFile, hp]
  dsimp only [Except.mapError, Except.map]
  rw [run_bind, Block.load, run_bind, run_readText]
  cases t.readText path with
  | none => rfl
  | some blockText =>
    dsimp only
    rw [run_lift]
    cases Block.ofFile c path blockText with
    | error f => rfl
    | ok b =>
      dsimp only
      rw [run_bind, run_lift]
      cases hq : p.insertSound b with
      | error f => rfl
      | ok q =>
        have hkept : p.kept (.insert b) = some q := congrArg Except.toOption hq
        obtain ⟨hsave, -⟩ := run_save_kept h hp hkept w.config.normalizeOnWrite
        dsimp only
        rw [run_bind, run_during, save, hsave]
        rfl

theorem insert_ok {path : String} {report : EditReport} {t' : FileTree}
    (h : t.run (w.insert path) = (.ok report, t')) :
    ∃ c text p blockText b q, w.Holds t c text ∧ Program.ofText c text = .ok p ∧
      t.readText path = some blockText ∧ Block.ofFile c path blockText = .ok b ∧ p.insertSound b = .ok q ∧
      report = .of p q ∧ t' = t.put w.programPath q.document := by
  obtain ⟨⟨c, p⟩, t₁, hload, -⟩ := run_bind_ok h
  obtain ⟨text, hholds, hp⟩ := holds_of_load hload
  rw [run_insert hholds hp] at h
  split at h
  next => cases h
  next blockText htext =>
    split at h
    next => cases h
    next b hb =>
      split at h
      next => cases h
      next q hq =>
        cases h
        exact ⟨c, text, p, blockText, b, q, hholds, hp, htext, hb, hq, rfl, rfl⟩

end Workspace

theorem Block.ofFile_ok {c : Catalog} {path text : String} {b : Block} (h : ofFile c path text = .ok b) :
    StoredBlock.ofText? text = some (.ofBlock b) ∧ ∀ u ∈ b.questions, c.question? u.id = some u.question := by
  rw [ofFile] at h
  split at h
  next => cases h
  next stored hstored =>
    obtain ⟨hof, hagrees⟩ := StoredBlock.hydrate_ok (mapError_eq_ok.1 h)
    rw [hof]
    exact ⟨hstored, hagrees⟩

/-- **What reading gives after an insertion**: all depends on how deep the new block nests. -/
theorem Program.Loaded.ofText_insert {c : Catalog} {p q : Program} {b : Block} (h : p.Loaded c)
    (hb : ∀ u ∈ b.questions, c.question? u.id = some u.question) (hq : p.insertSound b = .ok q) :
    Program.ofText c q.document = if (StoredBlock.ofBlock b).toJson.depth ≤ 125
      then .ok (q.withBlocks (q.blocks.map Block.settle)) else .error .notJson := by
  have hkept : p.kept (.insert b) = some q := congrArg Except.toOption hq
  obtain ⟨-, hs, hf⟩ := h.truthful.kept_follows h.sound hkept
  have hmem : ∀ b', b' ∈ q.blocks ↔ b' = b ∨ b' ∈ p.blocks := fun b' => hf.blocks.mem_iff.trans List.mem_cons
  have hnamed : q.details.adminName ≠ "" := hf.details ▸ h.named
  have hagrees : c.Agrees q.blocks := by
    intro b' hb'
    rcases (hmem b').1 hb' with rfl | hold
    · exact hb
    · exact h.agrees b' hold
  have hdepth : (StoredProgram.ofProgram q).toJson.depth ≤ Json.Tree.depthLimit ↔
      (StoredBlock.ofBlock b).toJson.depth ≤ 125 := by
    -- The other blocks have been read, at the same depth as they are written.
    rw [StoredProgram.depth_toJson_le (by decide)]
    constructor
    · intro hall
      exact Nat.le_of_add_le_add_right (hall _ (List.mem_map_of_mem ((hmem b).2 (.inl rfl))))
    · intro hnew s hs
      obtain ⟨b', hb', rfl⟩ := List.mem_map.1 hs
      rcases (hmem b').1 hb' with rfl | hold
      · exact Nat.add_le_add_right hnew 2
      · exact h.shallow b' hold
  rw [Program.ofText_document hs hnamed hagrees]
  simp only [hdepth]

theorem Workspace.run_load_insert {w : Workspace} {t : FileTree} {c : Catalog} {text path blockText : String}
    {p q : Program} {b : Block} (h : w.Holds t c text) (hp : Program.ofText c text = .ok p)
    (hb : Block.ofFile c path blockText = .ok b) (hq : p.insertSound b = .ok q) :
    (t.put w.programPath q.document).run w.load = (if (StoredBlock.ofBlock b).toJson.depth ≤ 125
      then .ok (c, q.withBlocks (q.blocks.map Block.settle))
      else .error ⟨[.loadProgram w.programPath, .parseProgram], .json⟩, t.put w.programPath q.document) := by
  have hkept : p.kept (.insert b) = some q := congrArg Except.toOption hq
  obtain ⟨-, hholds⟩ := run_save_kept h hp hkept true
  have hread := (Program.loaded_of_ofText hp).ofText_insert (Block.ofFile_ok hb).2 hq
  rw [run_load hholds, Program.ofFile, hread]
  split <;> rfl

theorem StoredBlock.ofText?_pretty (j : Json) :
    ofText? (j.pretty ++ "\n") = ofTree? (Json.Tree.treeAt 0 j) := by
  rw [ofText?, Json.Tree.ofText?_pretty]
  rfl

/-- Conditions one inside of the other. -/
def Condition.nest : Nat → Condition
  | 0 => .all []
  | n + 1 => .all [nest n]

/-- A block that is shown under so many conditions one inside of the other. -/
def Block.deep (n : Nat) : Block := { id := 6, name := "deep", visibility := some ⟨.nest n, .showBlock⟩ }

theorem Catalog.ofFile_empty (path : String) : ofFile path "[]" = .ok ⟨[]⟩ := by
  have hquestions : Question.listOfText? "[]" = some [] := by decide +kernel
  rw [ofFile, hquestions]
  rfl

namespace DeepInsertion

def form : Program := Draft.build { details := { adminName := "form" }, blocks := household }

def document (n : Nat) : Json := (StoredBlock.ofBlock (.deep n)).toJson

/-- A catalog without questions, the form, and the block. -/
def files (n : Nat) : FileTree :=
  ofFiles [("questions", "[]"), ("program", form.document), ("block", (document n).pretty ++ "\n")]

def workspace : Workspace := { config := {}, programPath := "program", catalogPath := "questions" }

/-- The depth of the stored block, and the ids of the form with the block in it. -/
def outcome (t : Json.Tree) : Option (Nat × List BlockId) := do
  let stored ← StoredBlock.ofTree? t
  let b ← (stored.hydrate ⟨[]⟩).toOption
  let q ← (form.insertSound b).toOption
  return (stored.toJson.depth, q.blocks.map (·.id))

theorem holds (n : Nat) :
    workspace.Holds (files n) ⟨[]⟩ form.document ∧ Program.ofText ⟨[]⟩ form.document = .ok form := by
  have hform : form.Storable ⟨[]⟩ := {
    defects := by decide +kernel
    named := by decide
    agrees := by decide +kernel
    floatFree := by decide +kernel }
  exact ⟨Workspace.holds_ofFiles (by decide +kernel) (by decide +kernel) rfl (Catalog.ofFile_empty _) rfl,
    hform.ofText_document (.build _) (by decide +kernel)⟩

theorem run_insert {n depth : Nat} {ids : List BlockId}
    (h : outcome (Json.Tree.treeAt 0 (document n)) = some (depth, ids)) : ∃ b q,
      Block.ofFile ⟨[]⟩ "block" ((document n).pretty ++ "\n") = .ok b ∧ form.insertSound b = .ok q ∧
      (files n).run (workspace.insert "block") = (.ok (.of form q), (files n).put "program" q.document) ∧
      (StoredBlock.ofBlock b).toJson.depth = depth ∧ q.blocks.map (·.id) = ids := by
  obtain ⟨hholds, hp⟩ := holds n
  simp only [outcome, Option.bind_eq_bind, Option.bind_eq_some_iff] at h
  obtain ⟨stored, hstored, b, hb, q, hq, hids⟩ := h
  cases hids
  have hread : Block.ofFile ⟨[]⟩ "block" ((document n).pretty ++ "\n") = .ok b := by
    rw [Block.ofFile, StoredBlock.ofText?_pretty, hstored]
    exact mapError_eq_ok.2 (ok_of_toOption hb)
  have hblock : (files n).readText "block" = some _ := readText_ofFiles (by decide +kernel) rfl
  have hrun := Workspace.run_insert hholds hp "block"
  simp only [hblock, hread, ok_of_toOption hq] at hrun
  refine ⟨b, q, hread, ok_of_toOption hq, hrun, ?_, rfl⟩
  rw [(StoredBlock.hydrate_ok (ok_of_toOption hb)).1]

end DeepInsertion

open DeepInsertion

/-- **Whether an insertion leaves a file that can be loaded.** After an insertion that succeeds, the next load
succeeds if and only if the new block in its stored form nests at most 125 levels deep; the ids of the loaded
blocks are those of the report, in their order. Otherwise the text of the program is refused. -/
theorem inserted_file_loads (w : Workspace) (t t' : FileTree) (blockPath : String) (report : EditReport)
    (h : t.run (w.insert blockPath) = (.ok report, t')) :
    ∃ c p blockText stored, t.run w.load = (.ok (c, p), t) ∧ t.readText blockPath = some blockText ∧
      StoredBlock.ofText? blockText = some stored ∧
      if stored.toJson.depth ≤ 125
      then ∃ q, t'.run w.load = (.ok (c, q), t') ∧ q.blocks.map (·.id) = report.ids
      else t'.run w.load = (.error ⟨[.loadProgram w.programPath, .parseProgram], .json⟩, t') := by
  obtain ⟨c, text, p, blockText, b, q, hholds, hp, htext, hb, hq, rfl, rfl⟩ := Workspace.insert_ok h
  have hload : t.run w.load = (.ok (c, p), t) := by
    rw [Workspace.run_load hholds, Program.ofFile, hp]
    rfl
  have hids : (q.blocks.map Block.settle).map (·.id) = q.blocks.map (·.id) := by
    rw [List.map_map]
    rfl
  refine ⟨c, p, blockText, .ofBlock b, hload, htext, (Block.ofFile_ok hb).1, ?_⟩
  rw [Workspace.run_load_insert hholds hp hb hq]
  split
  next => exact ⟨_, rfl, hids⟩
  next => rfl

/-- A block that nests 124 levels deep is inserted, and the form is loaded with it. -/
theorem inserted_file_loads_household : ∃ report t' c q,
    (files 60).run (workspace.insert "block") = (.ok report, t') ∧
      t'.run workspace.load = (.ok (c, q), t') ∧ q.blocks.map (·.id) = [1, 2, 3, 4, 5, 6] := by
  have h : outcome (Json.Tree.treeAt 0 (document 60)) = some (124, [1, 2, 3, 4, 5, 6]) := by decide +kernel
  obtain ⟨b, q, hb, -, hrun, hdepth, hids⟩ := run_insert h
  obtain ⟨c, p, blockText, stored, -, htext, hstored, hload⟩ :=
    inserted_file_loads workspace _ _ "block" _ hrun
  have hsame : stored = .ofBlock b := by
    have hblock : (files 60).readText "block" = some _ := readText_ofFiles (by decide +kernel) rfl
    rw [htext] at hblock
    rw [Option.some.inj hblock, (Block.ofFile_ok hb).1] at hstored
    exact (Option.some.inj hstored).symm
  rw [hsame, hdepth] at hload
  obtain ⟨q', hload, hids'⟩ := hload
  exact ⟨_, _, c, q', hrun, hload, hids'.trans hids⟩

/-- A block that nests 126 levels deep is inserted as well, and the file that is left cannot be loaded. -/
theorem insertion_unreadable : ∃ report t' f,
    (files 61).run (workspace.insert "block") = (.ok report, t') ∧
      t'.run workspace.load = (.error f, t') := by
  obtain ⟨hholds, hp⟩ := holds 61
  have h : outcome (Json.Tree.treeAt 0 (document 61)) = some (126, [1, 2, 3, 4, 5, 6]) := by decide +kernel
  obtain ⟨b, q, hb, hq, hrun, hdepth, -⟩ := run_insert h
  have hload := Workspace.run_load_insert hholds hp hb hq
  rw [hdepth] at hload
  exact ⟨_, _, _, hrun, hload⟩

end FormProgram
