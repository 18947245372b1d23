/-
Work on files, run on a tree of files.

Loading leaves the tree as it is. Saving over a file that is there succeeds and changes no place but that
of the file: no directory comes or goes, so every path leads where it led (`locate_set`). What a load finds
in the program file, which the catalog file cannot be (`loadedAs_set`), is what has been saved.
-/
import FormProgram.File.Tree
import FormProgram.Proofs.LoadedPrograms

set_option autoImplicit false

namespace FormProgram

theorem mapError_eq_ok {ε ε' α : Type} {f : ε → ε'} {r : Except ε α} {a : α} :
    r.mapError f = .ok a ↔ r = .ok a := by
  cases r <;> simp [Except.mapError]

namespace FileTree

variable {α β : Type} {t t' : FileTree} {path : String} {l : Location} {text : String}

/-- The result of the work, and the tree after it. -/
def run (t : FileTree) (work : FileWork (StateM FileTree) α) : Except Failure α × FileTree :=
  StateT.run (ExceptT.run work) t

theorem run_bind {work : FileWork (StateM FileTree) α} {next : α → FileWork (StateM FileTree) β} :
    t.run (work >>= next) = match t.run work with
      | (.ok a, t') => t'.run (next a)
      | (.error e, t') => (.error e, t') := by
  simp only [run, ExceptT.run_bind, StateT.run_bind]
  generalize StateT.run (ExceptT.run work) t = r
  obtain ⟨r, t'⟩ := r
  cases r <;> rfl

theorem run_bind_ok {work : FileWork (StateM FileTree) α} {next : α → FileWork (StateM FileTree) β} {b : β}
    {t'' : FileTree} (h : t.run (work >>= next) = (.ok b, t'')) :
    ∃ a t', t.run work = (.ok a, t') ∧ t'.run (next a) = (.ok b, t'') := by
  rw [run_bind] at h
  split at h
  next a t' hwork => exact ⟨a, t', hwork, h⟩
  next => cases h

theorem run_pure (a : α) : t.run (pure a) = (.ok a, t) := rfl

/-- What is decided without files leaves the tree as it is. -/
theorem run_lift (r : Except Failure α) : t.run (liftM r) = (r, t) := by
  cases r <;> rfl

theorem run_readText (a : Activity) (path : String) : t.run (FileWork.readText a path) =
    (match t.readText path with
      | some text => .ok text
      | none => .error ⟨[a], .files⟩, t) := by
  have hread : t.run (liftM (FileAccess.readText path : StateM FileTree (Option String))) =
      (.ok (t.readText path), t) := rfl
  rw [FileWork.readText, run_bind, hread]
  dsimp only
  cases t.readText path <;> rfl

theorem run_lift_ok {r : Except Failure α} {a : α} (h : t.run (liftM r) = (.ok a, t')) :
    t' = t ∧ r = .ok a := by
  rw [run_lift] at h
  cases h
  exact ⟨rfl, rfl⟩

theorem run_readText_ok {a : Activity} (h : t.run (FileWork.readText a path) = (.ok text, t')) :
    t' = t ∧ t.readText path = some text := by
  rw [run_readText] at h
  cases hread : t.readText path with
  | none =>
    rw [hread] at h
    cases h
  | some text' =>
    rw [hread] at h
    cases h
    exact ⟨rfl, rfl⟩

theorem run_writeText (a : Activity) (path text : String) :
    t.run (FileWork.perform a (FileAccess.writeText path text)) =
      match t.write? path text.toUTF8 with
      | some t' => (.ok (), t')
      | none => (.error ⟨[a], .files⟩, t) := by
  have hwrite : t.run (liftM (FileAccess.writeText path text : StateM FileTree Bool)) =
      (.ok (t.after (t.write? path text.toUTF8)).1, (t.after (t.write? path text.toUTF8)).2) := rfl
  rw [FileWork.perform, run_bind, hwrite]
  dsimp only
  cases t.write? path text.toUTF8 <;> rfl

theorem run_during (a : Activity) (work : FileWork (StateM FileTree) α) :
    t.run (FileWork.during a work) = ((t.run work).1.mapError (·.during a), (t.run work).2) := by
  change StateT.run (Except.mapError _ <$> ExceptT.run work) t = _
  rw [StateT.run_map]
  rfl

/-- There is a file at the place. -/
def IsFile (t : FileTree) (l : Location) : Prop := ∃ bytes, t.node? l = some (.file bytes)

section Set

variable {bytes : ByteArray} (h : t.IsFile l)
include h

theorem isDirectory_eq_false : t.isDirectory l = false := by
  obtain ⟨old, hold⟩ := h
  rw [isDirectory, hold]

/-- No directory comes or goes. -/
theorem isDirectory_set (l' : Location) : (t.set l (some (.file bytes))).isDirectory l' = t.isDirectory l' := by
  by_cases hl : l' = l
  · rw [hl, isDirectory_eq_false h, isDirectory, node?_set_self]
  · rw [isDirectory, isDirectory, node?_set_other t _ hl]

theorem walk_set (names : List String) :
    ∀ l', (t.set l (some (.file bytes))).walk l' names = t.walk l' names := by
  induction names with
  | nil => exact fun _ => rfl
  | cons name names ih => exact fun l' => by rw [walk, walk, isDirectory_set h, ih]

/-- Every path leads where it led. -/
theorem locate_set (path : String) : (t.set l (some (.file bytes))).locate path = t.locate path := by
  rw [locate, locate, walk_set h]
  rfl

end Set

theorem exists_file_of_readText (h : t.readText path = some text) :
    ∃ l, t.locate path = some l ∧ t.IsFile l := by
  rw [readText] at h
  split at h
  next bytes hbytes =>
    obtain ⟨l, hl, hnode⟩ := Option.bind_eq_some_iff.1 hbytes
    exact ⟨l, hl, bytes, hnode⟩
  next => cases h

theorem readText_of_node (hl : t.locate path = some l) (h : t.node? l = some (.file text.toUTF8)) :
    t.readText path = some text := by
  have hdecode : String.fromUTF8? text.toUTF8 = some text := dif_pos text.isValidUTF8
  rw [readText, hl, Option.bind_some, h]
  exact hdecode

theorem write_over (hl : t.locate path = some l) (h : t.IsFile l) (bytes : ByteArray) :
    t.write? path bytes = some (t.set l (some (.file bytes))) := by
  rw [write?, hl]
  simp [isDirectory_eq_false h]

/-- The tree with another text in the file that a path leads to. -/
def put (t : FileTree) (path text : String) : FileTree :=
  match t.locate path with
  | some l => t.set l (some (.file text.toUTF8))
  | none => t

theorem put_eq_set (hl : t.locate path = some l) (text : String) :
    t.put path text = t.set l (some (.file text.toUTF8)) := by
  rw [put, hl]

theorem readText_set_self (hl : t.locate path = some l) (h : t.IsFile l) (text : String) :
    (t.set l (some (.file text.toUTF8))).readText path = some text :=
  readText_of_node ((locate_set h path).trans hl) (node?_set_self ..)

theorem readText_set_other (hl : t.locate path ≠ some l) (h : t.IsFile l) (bytes : ByteArray) :
    (t.set l (some (.file bytes))).readText path = t.readText path := by
  rw [readText, readText, locate_set h]
  cases hp : t.locate path with
  | none => rfl
  | some l' =>
    have hne : l' ≠ l := fun heq => hl (heq ▸ hp)
    rw [Option.bind_some, Option.bind_some, node?_set_other t _ hne]

/-- The root, which is the working directory, with these files in it and nothing else. -/
def ofFiles (files : List (String × String)) : FileTree where
  node? l := match l with
    | [] => some .directory
    | [name] => (files.lookup name).map fun text => .file text.toUTF8
    | _ => none
  workingDirectory := []

/-- A name that leads to a place in the working directory. -/
def isPlain (name : String) : Bool :=
  !name.isEmpty && isName name && '\x00' ∉ name.toList && Path.names name = [name] && next [] name = [name]

theorem locate_ofFiles {files : List (String × String)} {name : String} (h : isPlain name = true) :
    (ofFiles files).locate name = some [name] := by
  simp only [isPlain, Bool.and_eq_true, decide_eq_true_eq] at h
  obtain ⟨⟨⟨⟨hempty, hshort⟩, hnul⟩, hnames⟩, hnext⟩ := h
  have hsize : name.utf8ByteSize < 4096 := Nat.lt_of_le_of_lt (of_decide_eq_true hshort) (by decide)
  have hpath : isPath name = true := by
    rw [isPath, String.contains_char_eq, hempty, decide_eq_true hsize, decide_eq_false hnul]
    rfl
  have horigin : (ofFiles files).origin name = [] := ite_self _
  rw [locate, hpath, hnames, horigin]
  simp only [List.all_cons, hshort, List.all_nil, Bool.and_self, if_true, walk, hnext]
  rfl

theorem readText_ofFiles {files : List (String × String)} {name text : String} (h : isPlain name = true)
    (htext : files.lookup name = some text) : (ofFiles files).readText name = some text :=
  readText_of_node (locate_ofFiles h) (congrArg (Option.map _) htext)

theorem isThere_ofFiles {files : List (String × String)} {name : String} (h : isPlain name = true) :
    (ofFiles files).isThere name = (files.lookup name).isSome := by
  rw [isThere, locate_ofFiles h]
  exact Option.isSome_map

end FileTree

namespace Workspace

open FileTree

/-- The two files of the workspace: the catalog, and the text of the program file. -/
structure Holds (w : Workspace) (t : FileTree) (c : Catalog) (text : String) : Prop where
  catalog : ∃ ctext, t.readText w.catalogPath = some ctext ∧ Catalog.ofFile w.catalogPath ctext = .ok c
  program : t.readText w.programPath = some text

variable {w : Workspace} {t : FileTree} {c : Catalog} {text : String}

theorem holds_ofFiles {files : List (String × String)} {ctext : String} (hplain : isPlain w.catalogPath = true)
    (hplain' : isPlain w.programPath = true) (hctext : files.lookup w.catalogPath = some ctext)
    (hcatalog : Catalog.ofFile w.catalogPath ctext = .ok c) (htext : files.lookup w.programPath = some text) :
    w.Holds (ofFiles files) c text where
  catalog := ⟨ctext, readText_ofFiles hplain hctext, hcatalog⟩
  program := readText_ofFiles hplain' htext

theorem run_load (h : w.Holds t c text) :
    t.run w.load = ((Program.ofFile c w.programPath text).map fun p => (c, p), t) := by
  obtain ⟨ctext, hread, hcatalog⟩ := h.catalog
  rw [load, run_bind, loadCatalog, Catalog.load, run_bind, run_readText, hread]
  dsimp only
  rw [run_lift, hcatalog]
  dsimp only
  rw [Program.load, run_bind, run_bind, run_readText, h.program]
  dsimp only
  rw [run_lift]
  cases Program.ofFile c w.programPath text <;> rfl

theorem run_load_ok {p : Program} (h : w.Holds t c text) (hp : Program.ofText c text = .ok p) :
    t.run w.load = (.ok (c, p), t) := by
  rw [run_load h, Program.ofFile, hp]
  rfl

/-- A load that succeeds has found the two files. -/
theorem holds_of_load {p : Program} {t' : FileTree} (h : t.run w.load = (.ok (c, p), t')) :
    ∃ text, w.Holds t c text ∧ Program.ofText c text = .ok p := by
  obtain ⟨c', t₁, hcatalogRun, hrest⟩ := run_bind_ok h
  obtain ⟨ctext, t₂, hctextRun, hcatalogLift⟩ := run_bind_ok hcatalogRun
  obtain ⟨ht₂, hctext⟩ := run_readText_ok hctextRun
  obtain ⟨ht₁, hcatalog⟩ := run_lift_ok hcatalogLift
  obtain ⟨p', t₃, hpRun, hpure⟩ := run_bind_ok hrest
  obtain ⟨text, t₄, htextRun, hpLift⟩ := run_bind_ok hpRun
  obtain ⟨-, htext⟩ := run_readText_ok htextRun
  obtain ⟨-, hp⟩ := run_lift_ok hpLift
  rw [run_pure] at hpure
  cases hpure
  rw [ht₁, ht₂] at htext
  exact ⟨text, ⟨⟨ctext, hctext, hcatalog⟩, htext⟩, mapError_eq_ok.1 hp⟩

/-- A text that is read as a program is no catalog. -/
theorem not_catalog {p : Program} (hp : Program.ofText c text = .ok p) {c' : Catalog} {path : String} :
    Catalog.ofFile path text ≠ .ok c' := by
  intro hcatalog
  rw [Catalog.ofFile] at hcatalog
  split at hcatalog
  next => cases hcatalog
  next questions hlist =>
    obtain ⟨tree, htree, hlist⟩ := Option.bind_eq_some_iff.1 hlist
    obtain ⟨value, stored, hvalue, hschema, -⟩ := Program.ofText_stages hp
    obtain ⟨tree', htree', hvalue⟩ := Option.bind_eq_some_iff.1 hvalue
    rw [htree] at htree'
    cases htree'
    have hvalue := Json.Tree.json_of_toValue? hvalue
    cases tree with
    | array items =>
      obtain ⟨js, -, hjs⟩ := Option.map_eq_some_iff.1 hvalue
      rw [← hjs] at hschema
      cases hschema
    | object members | null | bool | number | string | void => cases hlist

/-- A saved program takes the place of the text in the file. -/
theorem run_save {p : Program} (h : w.Holds t c text) (hp : Program.ofText c text = .ok p) (q : Program)
    (normalize : Bool) :
    t.run (q.save w.programPath normalize) = (.ok (), t.put w.programPath (q.documentFor normalize)) ∧
      w.Holds (t.put w.programPath (q.documentFor normalize)) c (q.documentFor normalize) := by
  obtain ⟨l, hl, hfile⟩ := exists_file_of_readText h.program
  rw [put_eq_set hl]
  refine ⟨?_, ?_, readText_set_self hl hfile _⟩
  · rw [Program.save, run_writeText, write_over hl hfile]
  · obtain ⟨ctext, hread, hcatalog⟩ := h.catalog
    refine ⟨ctext, ?_, hcatalog⟩
    rw [readText_set_other _ hfile, hread]
    -- If the catalog were the same file, the program would have been read from it as well.
    intro hsame
    have hpath : t.readText w.catalogPath = t.readText w.programPath := by
      rw [readText, readText, hsame, hl]
    rw [hread, h.program] at hpath
    cases hpath
    exact not_catalog hp hcatalog

/-- What an edit leaves is saved in the same way under all settings. -/
theorem run_save_kept {p q : Program} (h : w.Holds t c text) (hp : Program.ofText c text = .ok p) {e : Edit}
    (hq : p.kept e = some q) (normalize : Bool) :
    t.run (q.save w.programPath normalize) = (.ok (), t.put w.programPath q.document) ∧
      w.Holds (t.put w.programPath q.document) c q.document := by
  have hl := Program.loaded_of_ofText hp
  obtain ⟨ht, -, hf⟩ := hl.truthful.kept_follows hl.sound hq
  have hrun := run_save h hp q normalize
  rwa [Program.documentFor_eq ht hf.canonical] at hrun

end Workspace

end FormProgram
