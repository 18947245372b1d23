/-
Edits of the program file simulate edits in memory.

One step (`run_edit`): an edit of the file succeeds when it does in memory, and then writes a program in
canonical order, which is written the same under all settings; when it fails the tree stays as it is. What
is written is read again as the same program, so a run of edits on the file goes through the same programs
as the session in memory (`FileOf.run`).
-/
import FormProgram.Proofs.FileRuns

set_option autoImplicit false

namespace FormProgram

/-- The edits that need no other file than that of the program. -/
inductive FileEdit where
  | order
  | move (id : BlockId) (d : Direction)
deriving DecidableEq, Repr

def FileEdit.edit : FileEdit → Edit
  | .order => .order
  | .move id d => .move id d

namespace Workspace

def edit {m : Type → Type} [Monad m] [FileAccess m] (w : Workspace) : FileEdit → FileWork m EditReport
  | .order => w.order
  | .move id d => w.move id d

/-- The files after a run of edits, one after the other. -/
def editAll (w : Workspace) (t : FileTree) (es : List FileEdit) : FileTree :=
  es.foldl (fun t e => (t.run (w.edit e)).2) t

theorem editAll_nil (w : Workspace) (t : FileTree) : w.editAll t [] = t := rfl

theorem editAll_cons (w : Workspace) (t : FileTree) (e : FileEdit) (es : List FileEdit) :
    w.editAll t (e :: es) = w.editAll (t.run (w.edit e)).2 es := rfl

end Workspace

namespace Program

variable {p q : Program}

theorem order_congr (hp : p.Truthful) (hq : q.Truthful) (h : p.toDraft = q.toDraft) :
    p.order.toDraft = q.order.toDraft := by
  have hblocks : p.order.blocks = q.order.blocks := by rw [hp.order_blocks, hq.order_blocks, h]
  have hdetails : p.order.details = q.order.details := by rw [order_details, order_details, h]
  calc p.order.toDraft = ⟨p.order.details, p.order.blocks⟩ := rfl
    _ = ⟨q.order.details, q.order.blocks⟩ := by rw [hblocks, hdetails]

/-- A move depends on the content of a program only. -/
theorem move_congr (hp : p.Truthful) (hq : q.Truthful) (h : p.toDraft = q.toDraft) (id : BlockId)
    (d : Direction) :
    (p.move id d).map (·.toDraft) = (q.move id d).map (·.toDraft) := by
  have horder := order_congr hp hq h
  have hid : p.id = q.id := by rw [Program.id, Program.id, h]
  have hblocks : p.order.blocks = q.order.blocks := by rw [horder]
  rw [move, move, hblocks, hid]
  cases moveBlock q.order.blocks id d with
  | error e => rfl
  | ok outcome =>
    cases outcome with
    | atBoundary => exact congrArg Except.ok horder
    | moved blocks =>
      dsimp only
      split
      next =>
        have hblocks : (p.withOrderedBlocks blocks).toDraft = (q.withOrderedBlocks blocks).toDraft :=
          congrArg (fun d : Draft => { d with blocks }) h
        exact congrArg Except.ok hblocks
      next => rfl

theorem map_toOption {ε α β : Type} {f : α → β} (r : Except ε α) : r.toOption.map f = (r.map f).toOption := by
  cases r <;> rfl

theorem kept_congr (hp : p.Truthful) (hq : q.Truthful) (h : p.toDraft = q.toDraft) (e : FileEdit) :
    (p.kept e.edit).map (·.toDraft) = (q.kept e.edit).map (·.toDraft) := by
  cases e with
  | order => exact congrArg some (order_congr hp hq h)
  | move id d =>
    change (p.move id d).toOption.map _ = (q.move id d).toOption.map _
    rw [map_toOption, map_toOption, move_congr hp hq h]

end Program

namespace Workspace

open FileTree

variable {w : Workspace} {t : FileTree} {c : Catalog} {text : String} {p : Program}

/-- The settings have no say in what the files hold. -/
theorem Holds.withConfig (h : w.Holds t c text) (config : Config) :
    ({ w with config } : Workspace).Holds t c text :=
  ⟨h.catalog, h.program⟩

/-- What a move comes to: it is written, in the same way under all settings, if it succeeds in memory. -/
theorem run_move (h : w.Holds t c text) (hp : Program.ofText c text = .ok p) (id : BlockId) (d : Direction) :
    t.run (w.move id d) = match p.move id d with
      | .error e => (.error (.of (.program e)), t)
      | .ok q => (.ok (.of p q), t.put w.programPath q.document) := by
  rw [move, run_bind, run_load_ok h hp]
  dsimp only
  rw [run_bind, run_lift]
  cases hm : p.move id d with
  | error e => rfl
  | ok q =>
    have hkept : p.kept (.move id d) = some q := congrArg Except.toOption hm
    obtain ⟨hsave, -⟩ := run_save_kept h hp hkept w.config.normalizeOnWrite
    rw [Except.mapError]
    dsimp only
    rw [run_bind, run_during, save, hsave]
    rfl

/-- **One edit of the file.** It fails when it does in memory, and leaves the tree as it is; otherwise the
file holds what it leaves in memory, whatever the settings are. -/
theorem run_edit (h : w.Holds t c text) (hp : Program.ofText c text = .ok p) (e : FileEdit) :
    match p.kept e.edit with
    | none => ∃ f, t.run (w.edit e) = (.error f, t)
    | some q => t.run (w.edit e) = (.ok (.of p q), t.put w.programPath q.document) ∧
        w.Holds (t.put w.programPath q.document) c q.document := by
  cases e with
  | order =>
    obtain ⟨hrun, hholds⟩ := run_save_kept (e := .order) h hp rfl true
    refine ⟨?_, hholds⟩
    rw [edit, order, run_bind, run_load_ok h hp]
    dsimp only
    rw [run_bind, hrun]
    rfl
  | move id d =>
    rw [edit, run_move h hp]
    cases hm : p.move id d with
    | error err =>
      have hkept : p.kept (.move id d) = none := congrArg Except.toOption hm
      rw [FileEdit.edit, hkept]
      exact ⟨_, rfl⟩
    | ok q =>
      have hkept : p.kept (.move id d) = some q := congrArg Except.toOption hm
      rw [FileEdit.edit, hkept]
      exact ⟨rfl, (run_save_kept h hp hkept w.config.normalizeOnWrite).2⟩

end Workspace

/-- The text of the program file, if the session has been one on the file. -/
def Session.text (raw : String) (s : Session) : String := if s.edited then s.program.document else raw

/-- The program file is read as a program with the content that the session has in memory. -/
structure Session.OnFile (s : Session) (w : Workspace) (t : FileTree) (c : Catalog) (raw : String) : Prop where
  truthful : s.program.Truthful
  floatFree : ∀ b ∈ s.program.blocks, b.floatFree = true
  holds : w.Holds t c (s.text raw)
  read : ∃ p, Program.ofText c (s.text raw) = .ok p ∧ p.toDraft = s.program.toDraft

theorem Program.Loaded.read_kept {c : Catalog} {p q : Program} (h : p.Loaded c)
    (hfloat : ∀ b ∈ p.blocks, b.floatFree = true) (e : FileEdit) (hk : p.kept e.edit = some q) :
    (∀ b ∈ q.blocks, b.floatFree = true) ∧ Program.ofText c q.document = .ok q.toDraft.build := by
  obtain ⟨ht, -, hf⟩ := h.truthful.kept_follows h.sound hk
  have hf : Follows p q [] := by cases e <;> exact hf
  have hfloat : ∀ b ∈ q.blocks, b.floatFree = true := fun b hb => hfloat b (hf.blocks.mem_iff.1 hb)
  refine ⟨hfloat, ?_⟩
  rw [(h.follows ht hf).ofText_document, Block.map_settle_eq_self hfloat]
  rfl

namespace Session.OnFile

variable {s : Session} {w : Workspace} {t : FileTree} {c : Catalog} {raw : String}

/-- **What the next edit of the file does is what the next edit in memory does.** -/
theorem next (h : s.OnFile w t c raw) (e : FileEdit) :
    match s.program.kept e.edit with
    | none => ∃ f, t.run (w.edit e) = (.error f, t)
    | some q => ∃ report, t.run (w.edit e) = (.ok report, t.put w.programPath q.document) ∧
        report.ids = q.blocks.map (·.id) ∧ (s.step e.edit).OnFile w (t.put w.programPath q.document) c raw := by
  -- The program on the file has the content of the one in memory, but remembers nothing.
  obtain ⟨p, hp, hsame⟩ := h.read
  have hl := Program.loaded_of_ofText hp
  have hrun := Workspace.run_edit h.holds hp e
  have hcongr := Program.kept_congr hl.truthful h.truthful hsame e
  cases hk : s.program.kept e.edit with
  | none =>
    rw [hk, Option.map_none, Option.map_eq_none_iff] at hcongr
    rw [hcongr] at hrun
    exact hrun
  | some q =>
    rw [hk, Option.map_some, Option.map_eq_some_iff] at hcongr
    obtain ⟨q', hq', hsame'⟩ := hcongr
    rw [hq'] at hrun
    obtain ⟨hrun, hholds⟩ := hrun
    obtain ⟨hfloat, hread⟩ := hl.read_kept (hsame ▸ h.floatFree) e hq'
    obtain ⟨ht, -, -⟩ := h.truthful.kept_follows (hsame ▸ hl.sound) hk
    rw [Program.document_congr hsame'] at hrun hholds hread
    have hstep : s.step e.edit = ⟨q, e.edit.added ++ s.inserted, true⟩ := by rw [step, hk]
    refine ⟨_, hrun, by rw [EditReport.of, hsame'], ?_⟩
    rw [hstep]
    exact ⟨ht, hsame' ▸ hfloat, hholds, _, hread, hsame'⟩

theorem reported (h : s.OnFile w t c raw) (e : FileEdit) :
    match t.run (w.edit e) with
    | (.error _, t') => s.program.kept e.edit = none ∧ t' = t
    | (.ok report, t') => ∃ text p q, w.Holds t' c text ∧ Program.ofText c text = .ok p ∧
        s.program.kept e.edit = some q ∧ p.toDraft = q.toDraft ∧ report.ids = p.blocks.map (·.id) := by
  have hnext := h.next e
  cases hk : s.program.kept e.edit with
  | none =>
    simp only [hk] at hnext
    obtain ⟨f, hrun⟩ := hnext
    rw [hrun]
    exact ⟨rfl, rfl⟩
  | some q =>
    simp only [hk] at hnext
    obtain ⟨report, hrun, hids, hon⟩ := hnext
    obtain ⟨p, hread, hsame⟩ := hon.read
    have hprogram : (s.step e.edit).program = q := by rw [Session.step, hk]
    rw [hprogram] at hsame
    rw [hrun]
    exact ⟨_, p, q, hon.holds, hread, rfl, hsame, by rw [hids, hsame]⟩

theorem withConfig (h : s.OnFile w t c raw) (config : Config) : s.OnFile { w with config } t c raw :=
  ⟨h.truthful, h.floatFree, h.holds.withConfig config, h.read⟩

theorem step (h : s.OnFile w t c raw) (e : FileEdit) :
    (s.step e.edit).OnFile w (t.run (w.edit e)).2 c raw ∧
      ∀ config, (t.run ({ w with config }.edit e)).2 = (t.run (w.edit e)).2 := by
  have hnext := h.next e
  have hnext' := fun config => (h.withConfig config).next e
  cases hk : s.program.kept e.edit with
  | none =>
    have hstep : s.step e.edit = s := by rw [Session.step, hk]
    simp only [hk] at hnext hnext'
    obtain ⟨f, hrun⟩ := hnext
    rw [hstep, hrun]
    refine ⟨h, fun config => ?_⟩
    obtain ⟨f', hrun'⟩ := hnext' config
    rw [hrun']
  | some q =>
    simp only [hk] at hnext hnext'
    obtain ⟨report, hrun, -, hon⟩ := hnext
    rw [hrun]
    refine ⟨hon, fun config => ?_⟩
    obtain ⟨report', hrun', -⟩ := hnext' config
    rw [hrun']

theorem run (h : s.OnFile w t c raw) (es : List FileEdit) :
    ((es.map FileEdit.edit).foldl Session.step s).OnFile w (w.editAll t es) c raw ∧
      ∀ config, { w with config }.editAll t es = w.editAll t es := by
  induction es generalizing s t with
  | nil => exact ⟨h, fun config => by rw [Workspace.editAll_nil, Workspace.editAll_nil]⟩
  | cons e es ih =>
    obtain ⟨hon, hconfig⟩ := h.step e
    obtain ⟨hrun, hrest⟩ := ih hon
    refine ⟨hrun, fun config => ?_⟩
    rw [Workspace.editAll_cons, Workspace.editAll_cons, hconfig, hrest]

end Session.OnFile

/-- **Edits of the file simulate edits in memory.** From a program file that is read as a program without
doubles, after any run of edits of the file: the file is read as the program that the same edits lead to in
memory; it has its first text until some edit has been successful; and the tree is the same under all
settings. The next edit fails when it does in memory and then changes nothing; otherwise its report has the
ids of the blocks in the file, in their order. -/
theorem disk_runs_simulate_memory_runs (w : Workspace) (t : FileTree) (c : Catalog) (raw : String) (p : Program)
    (h : w.Holds t c raw) (hp : Program.ofText c raw = .ok p) (hfloat : ∀ b ∈ p.blocks, b.floatFree = true)
    (es : List FileEdit) :
    let s := Session.run p (es.map FileEdit.edit)
    let t' := w.editAll t es
    (∃ text q, w.Holds t' c text ∧ Program.ofText c text = .ok q ∧ q.toDraft = s.program.toDraft ∧
      (q == s.program) = true ∧ (s.edited = false → text = raw)) ∧
    (∀ config, { w with config }.editAll t es = t') ∧
    ∀ e, match t'.run (w.edit e) with
      | (.error _, t'') => s.program.kept e.edit = none ∧ t'' = t'
      | (.ok report, t'') => ∃ text q q', w.Holds t'' c text ∧ Program.ofText c text = .ok q ∧
          s.program.kept e.edit = some q' ∧ q.toDraft = q'.toDraft ∧ report.ids = q.blocks.map (·.id) := by
  intro s t'
  have hstart : Session.OnFile { program := p } w t c raw :=
    ⟨(Program.loaded_of_ofText hp).truthful, hfloat, h, p, hp, rfl⟩
  obtain ⟨hon, hconfig⟩ : s.OnFile w t' c raw ∧ _ := hstart.run es
  obtain ⟨q, hread, hsame⟩ := hon.read
  have heq : (q == s.program) = true :=
    Program.beq_iff.2 ⟨congrArg Draft.details hsame, congrArg Draft.blocks hsame ▸ Alike.refl q.blocks⟩
  have hfirst : s.edited = false → s.text raw = raw := fun hs => by rw [Session.text, hs]; rfl
  exact ⟨⟨s.text raw, q, hon.holds, hread, hsame, heq, hfirst⟩, hconfig, hon.reported⟩

/-- The household form with its repeated blocks in front, and a condition on the income: a move that has
nowhere to go puts it in order, a move of a block that is not there fails, and a block changes places with a
tree. -/
theorem disk_runs_simulate_memory_runs_household :
    let income : Question := { id := 9, name := "income", type := .currency }
    let c : Catalog := ⟨[income]⟩
    let rule : Comparison := ⟨income.id, "currency", .anyOf, ⟨.string "≥", by simp [Json.Canonical]⟩⟩
    let summary : Block :=
      { id := 5, name := "summary", questions := [{ question := income }],
        eligibility := some ⟨.leaf rule, .showBlock⟩ }
    let start : Draft :=
      { details := { id := 7, adminName := "form" },
        blocks := [household[3], household[2], household[0], household[1], summary] }
    let raw := start.build.document
    let questions := "[\x7b\"id\":9,\"name\":\"income\",\"questionType\":\"currency\"\x7d]"
    let t := FileTree.ofFiles [("questions", questions), ("program", raw)]
    let w : Workspace := { config := {}, programPath := "program", catalogPath := "questions" }
    let es : List FileEdit := [.move 4 .up, .move 6 .down, .move 5 .up]
    ∃ text q, w.Holds (w.editAll t es) c text ∧ Program.ofText c text = .ok q ∧
      q.blocks.map (·.id) = [1, 5, 2, 3, 4] := by
  intro income c rule summary start raw questions t w es
  have h : start.build.Storable c := {
    defects := by decide +kernel
    named := by decide
    agrees := by decide +kernel
    floatFree := by decide +kernel }
  have hread : Program.ofText c raw = .ok start.build := h.ofText_document (.build start) (by decide +kernel)
  have hquestions : Question.listOfText? questions = some [income] := by decide +kernel
  have hcatalog : Catalog.ofFile "questions" questions = .ok c := by
    rw [Catalog.ofFile, hquestions]
    rfl
  have hholds : w.Holds t c raw := Workspace.holds_ofFiles (by decide +kernel) (by decide +kernel) rfl hcatalog rfl
  obtain ⟨⟨text, q, hholds', hread', hsame, -, -⟩, -, -⟩ :=
    disk_runs_simulate_memory_runs w t c raw start.build hholds hread h.floatFree es
  refine ⟨text, q, hholds', hread', ?_⟩
  rw [hsame]
  decide +kernel

end FormProgram
