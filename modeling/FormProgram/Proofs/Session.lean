/-
Editing sessions: order, moves and insertions one after the other, each on the program that the last
successful one left. An insertion is kept only if the program has no defects after it.

`Follows` is what one edit does to the blocks; `Session.Kept` is what a session keeps. Soundness does not
depend on the order of the blocks, so ordering and moving cannot lose it, and distinct ids and canonical
order are what a move needs to find its slices side by side.
-/
import FormProgram.Proofs.CanonicalOrder
import FormProgram.Proofs.Instances
import FormProgram.Workspace.Edit

set_option autoImplicit false

namespace FormProgram

/-- The blocks that an edit adds. -/
def Edit.added : Edit → List Block
  | .insert b => [b]
  | _ => []

/-- The program that an edit leaves, if it is kept. -/
def Program.kept (p : Program) : Edit → Option Program
  | .insert b => (p.insertSound b).toOption
  | e => (p.edit e).toOption

structure Session where
  program : Program
  /-- The blocks that have been inserted and kept. -/
  inserted : List Block := []
  /-- Some edit has been successful. -/
  edited : Bool := false

/-- A failed edit leaves everything as it was. -/
def Session.step (s : Session) (e : Edit) : Session :=
  match s.program.kept e with
  | some q => ⟨q, e.added ++ s.inserted, true⟩
  | none => s

def Session.run (p : Program) (es : List Edit) : Session := es.foldl step { program := p }

/-- `q` has the blocks of `p` and these more, in canonical order, and is described alike. -/
structure Follows (p q : Program) (added : List Block) : Prop where
  blocks : q.blocks.Perm (added ++ p.blocks)
  details : q.details = p.details
  canonical : isCanonical q.blocks = true

namespace Program.Truthful

variable {p q : Program} (h : p.Truthful) (hf : Formed p.blocks)
include h hf

theorem order_perm : p.order.blocks.Perm p.blocks := by
  rw [h.order_blocks_of_distinct hf.distinct]
  exact canonicalOrder_perm hf

/-- Ordering keeps the ids in use. -/
theorem missing_order_iff {id : BlockId} : (∀ b ∈ p.order.blocks, b.id ≠ id) ↔ ∀ b ∈ p.blocks, b.id ≠ id :=
  forall_congr' fun _ => imp_congr_left (h.order_perm hf).mem_iff

theorem order_follows : Follows p p.order [] := ⟨h.order_perm hf, order_details, h.isCanonical_order⟩

theorem distinct_order : DistinctIds p.order.blocks := (DistinctIds.perm (h.order_perm hf)).2 hf.distinct

theorem move_follows {id : BlockId} {d : Direction} (hm : p.move id d = .ok q) : Follows p q [] := by
  rcases h.move_ok hm with rfl | ⟨blocks, hmoved, -, rfl⟩
  · exact h.order_follows hf
  · obtain ⟨hperm, hnested⟩ := hmoved.kept
    exact ⟨hperm.trans (h.order_perm hf), rfl, isCanonical_iff_nested.2 hnested⟩

/-- The only ways for a move to fail. -/
theorem move_error {id : BlockId} {d : Direction} {err : ProgramError} (hm : p.move id d = .error err) :
    err = .blockNotFound p.id id ∨ err = .illegalPredicateOrdering id d := by
  rcases moveBlock_cases h.nested_order (h.distinct_order hf) id d with ⟨-, he⟩ | ⟨outcome, ho, -⟩
  · simp only [Program.move, he, Except.error.injEq] at hm
    exact .inl hm.symm
  · cases outcome with
    | atBoundary => simp [Program.move, ho] at hm
    | moved blocks =>
      simp only [Program.move, ho] at hm
      split at hm
      · cases hm
      · cases hm
        exact .inr rfl

/-- **An insertion into a program**: refused for its id, or else for its enumerator, or made. -/
theorem insert_cases (b : Block) :
    ((∃ c ∈ p.blocks, c.id = b.id) ∧ p.insert b = .error (.duplicateBlockId p.id b.id)) ∨
    ((∀ c ∈ p.blocks, c.id ≠ b.id) ∧ ∃ e, b.enumerator = some e ∧
      (∀ c ∈ p.blocks, c.id = e → c.isEnumerator = false) ∧ p.insert b = .error (.blockNotFound p.id e)) ∨
    ((∀ c ∈ p.blocks, c.id ≠ b.id) ∧
      (∀ e, b.enumerator = some e → ∃ c ∈ p.blocks, c.id = e ∧ c.isEnumerator = true) ∧
      ∃ q, p.insert b = .ok q ∧ Follows p q [b]) := by
  have hmem : ∀ c, c ∈ p.order.blocks ↔ c ∈ p.blocks := fun c => (h.order_perm hf).mem_iff
  have hcases := insertBlock_cases h.nested_order (h.distinct_order hf) b
  simp only [hmem] at hcases
  rw [Program.insert]
  rcases hcases with ⟨hold, he⟩ | ⟨hnew, e, hb, hlacks, he⟩ | ⟨hnew, hnamed, l, hl, hperm, hnested⟩
  · rw [he]
    exact .inl ⟨hold, rfl⟩
  · rw [he]
    exact .inr (.inl ⟨hnew, e, hb, hlacks, rfl⟩)
  · rw [hl]
    refine .inr (.inr ⟨hnew, hnamed, _, rfl, ?_⟩)
    exact ⟨hperm.trans ((h.order_perm hf).cons b), order_details, isCanonical_iff_nested.2 hnested⟩

theorem insert_follows {b : Block} (hi : p.insert b = .ok q) : Follows p q [b] := by
  rcases h.insert_cases hf b with ⟨-, he⟩ | ⟨-, e, -, -, he⟩ | ⟨-, -, q', hq, hfollows⟩
  · rw [hi] at he
    cases he
  · rw [hi] at he
    cases he
  · rw [hi] at hq
    cases hq
    exact hfollows

end Program.Truthful

theorem Program.insertSound_eq_ok {p q : Program} {b : Block} :
    p.insertSound b = .ok q ↔ p.insert b = .ok q ∧ q.defects = [] := by
  rw [insertSound]
  cases p.insert b with
  | error e => simp
  | ok q' =>
    simp only [Except.ok.injEq]
    split
    next hempty =>
      rw [List.isEmpty_iff] at hempty
      rw [Except.ok.injEq]
      exact ⟨fun heq => ⟨heq, heq ▸ hempty⟩, fun h => h.1⟩
    next hne =>
      rw [List.isEmpty_iff] at hne
      simp only [reduceCtorEq, false_iff, not_and]
      rintro rfl
      exact hne

/-- A kept edit leads to a sound program: a reordering because the blocks are the same, an insertion because
it has been checked. -/
theorem Program.Truthful.kept_follows {p q : Program} (h : p.Truthful) (hs : Sound p.blocks) {e : Edit}
    (hk : p.kept e = some q) : q.Truthful ∧ Sound q.blocks ∧ Follows p q e.added := by
  have hf := hs.toFormed
  cases e with
  | order =>
    cases hk
    have ho := h.order_follows hf
    exact ⟨h.order, hs.perm ho.blocks.symm, ho⟩
  | move id d =>
    have hm : p.move id d = .ok q := ok_of_toOption hk
    have hq := h.move_follows hf hm
    exact ⟨h.move hm, hs.perm hq.blocks.symm, hq⟩
  | insert b =>
    obtain ⟨hi, hd⟩ := insertSound_eq_ok.1 (ok_of_toOption hk)
    have ht := insert hi
    exact ⟨ht, (defects_eq_nil_iff ht).1 hd, h.insert_follows hf hi⟩

/-- What a session keeps, from the program that it starts with. -/
structure Session.Kept (p : Program) (s : Session) : Prop where
  truthful : s.program.Truthful
  sound : Sound s.program.blocks
  blocks : s.program.blocks.Perm (s.inserted ++ p.blocks)
  details : s.program.details = p.details
  canonical : s.edited = true → isCanonical s.program.blocks = true

namespace Session.Kept

variable {p : Program} {s : Session}

theorem start (ht : p.Truthful) (hs : Sound p.blocks) : Kept p { program := p } :=
  ⟨ht, hs, .refl _, rfl, nofun⟩

theorem step (k : Kept p s) (e : Edit) : Kept p (s.step e) := by
  rw [Session.step]
  split
  next q hq =>
    obtain ⟨ht, hs, hf⟩ := k.truthful.kept_follows k.sound hq
    refine ⟨ht, hs, ?_, hf.details.trans k.details, fun _ => hf.canonical⟩
    rw [List.append_assoc]
    exact hf.blocks.trans (k.blocks.append_left e.added)
  next => exact k

theorem run (ht : p.Truthful) (hs : Sound p.blocks) (es : List Edit) : Kept p (Session.run p es) := by
  suffices h : ∀ s, Kept p s → Kept p (es.foldl Session.step s) from h _ (start ht hs)
  induction es with
  | nil => exact fun _ k => k
  | cons e es ih => exact fun s k => ih (s.step e) (k.step e)

end Session.Kept

/-- **The session invariant.** From a program without defects, however it came about, no run of edits leads
to one with defects. The blocks are those of the first program and the inserted ones, none lost, doubled or
changed; the program is described as it was; from the first successful edit on the blocks are in canonical
order; and no move ever finds slices that do not touch, or an id twice. -/
theorem session_invariant (events : List Event) (p : Program) (hp : p ∈ live events) (h : p.defects = [])
    (es : List Edit) :
    (Session.run p es).program.defects = [] ∧
      (Session.run p es).program.blocks.Perm ((Session.run p es).inserted ++ p.blocks) ∧
      (Session.run p es).program.details = p.details ∧
      ((Session.run p es).edited = true → isCanonical (Session.run p es).program.blocks = true) ∧
      ∀ id d n b, (Session.run p es).program.move id d ≠ .error (.nonAdjacentBlocks n b) ∧
        (Session.run p es).program.move id d ≠ .error (.duplicateBlockId n b) := by
  have ht := live_truthful events p hp
  have k := Session.Kept.run ht ((Program.defects_eq_nil_iff ht).1 h) es
  refine ⟨(Program.defects_eq_nil_iff k.truthful).2 k.sound, k.blocks, k.details, k.canonical, ?_⟩
  intro id d n b
  constructor
  · intro hm
    rcases k.truthful.move_error k.sound.toFormed hm with he | he <;> cases he
  · intro hm
    rcases k.truthful.move_error k.sound.toFormed hm with he | he <;> cases he

/-- The household form with its repeated blocks in front: a move that has nowhere to go puts it in order; a
block is inserted once and refused twice, by its id and by its enumerator; then two moves past whole trees. -/
theorem session_invariant_household :
    let schools : Block := { id := 6, name := "schools", enumerator := some 2 }
    let start : Draft := { blocks := [household[3], household[2], household[0], household[1], household[4]] }
    let es : List Edit := [.move 3 .up, .insert schools, .insert schools,
      .insert { schools with id := 7, enumerator := some 5 }, .move 6 .up, .move 5 .up]
    (Session.run start.build es).program.blocks.map (·.id) = [1, 5, 2, 6, 3, 4] ∧
      (Session.run start.build es).inserted.map (·.id) = [6] ∧
      (Session.run start.build es).program.defects = [] ∧
      isCanonical (Session.run start.build es).program.blocks = true := by
  intro schools start es
  have hp : start.build ∈ live [.build start] := List.mem_singleton.2 rfl
  have hd : start.build.defects = [] := by decide +kernel
  have he : (Session.run start.build es).edited = true := by decide +kernel
  obtain ⟨hdefects, -, -, hcanonical, -⟩ := session_invariant [.build start] start.build hp hd es
  exact ⟨by decide +kernel, by decide +kernel, hdefects, hcanonical he⟩

end FormProgram
