/-
Looking the questions of a stored program up in a catalog, and leaving them out again.

A catalog is made of questions with distinct ids, so an id is that of one question. Looking up succeeds exactly if
every id in use is listed; then leaving the questions out gives the stored program back. Otherwise the failure is the
first id that is not listed in the order in which a reader of the program meets them (`StoredProgram.asked`): a row of
look-ups fails as the first of them that fails (`mapM_eq_error`), within a block and from block to block.
-/
import FormProgram.Proofs.LoadedPrograms

set_option autoImplicit false

namespace FormProgram

section MapM

variable {ε α β : Type} {f : α → Except ε β} {l : List α}

/-- A row fails as the first in it that fails. -/
theorem mapM_eq_error {e : ε} (h : l.mapM f = .error e) :
    ∃ before a after, l = before ++ a :: after ∧ (∀ x ∈ before, ∃ b, f x = .ok b) ∧ f a = .error e := by
  induction l with
  | nil => cases h
  | cons a l ih =>
    rw [List.mapM_cons] at h
    cases ha : f a with
    | error e' =>
      rw [ha] at h
      cases h
      exact ⟨[], a, l, rfl, nofun, ha⟩
    | ok b =>
      rw [ha] at h
      cases hl : l.mapM f with
      | ok bs =>
        rw [hl] at h
        cases h
      | error e' =>
        rw [hl] at h
        cases h
        obtain ⟨before, c, after, rfl, hbefore, hc⟩ := ih hl
        exact ⟨a :: before, c, after, rfl, List.forall_mem_cons.2 ⟨⟨b, ha⟩, hbefore⟩, hc⟩

theorem exists_mapM_ok : (∃ bs, l.mapM f = .ok bs) ↔ ∀ a ∈ l, ∃ b, f a = .ok b := by
  constructor
  · intro h a ha
    obtain ⟨bs, hbs⟩ := h
    obtain ⟨b, -, hb⟩ := Row.exists_result (mapM_eq_ok_iff.1 hbs) a ha
    exact ⟨b, hb⟩
  · intro h
    cases hl : l.mapM f with
    | ok bs => exact ⟨bs, rfl⟩
    | error e =>
      obtain ⟨before, a, after, rfl, -, ha⟩ := mapM_eq_error hl
      obtain ⟨b, hb⟩ := h a (by simp)
      rw [ha] at hb
      cases hb

end MapM

namespace Catalog

variable {questions : List Question} {c : Catalog} {id : QuestionId} {q : Question}

theorem firstRepeat_eq_none {seen : List QuestionId} :
    firstRepeat seen questions = none ↔ (questions.map (·.id)).Nodup ∧ ∀ q ∈ questions, q.id ∉ seen := by
  induction questions generalizing seen with
  | nil => simp [firstRepeat]
  | cons q questions ih =>
    rw [firstRepeat]
    by_cases hq : q.id ∈ seen
    · simp [hq]
    · simp only [List.contains_eq_mem, hq, decide_false, Bool.false_eq_true, if_false, ih, List.map_cons,
        List.nodup_cons, List.mem_map, List.mem_cons, not_or, forall_eq_or_imp, not_exists, not_and, not_false_eq_true,
        true_and, forall_and]
      tauto

theorem ofQuestions_eq_ok : ofQuestions questions = .ok c ↔ c = ⟨questions⟩ ∧ (questions.map (·.id)).Nodup := by
  have hnone : firstRepeat [] questions = none ↔ (questions.map (·.id)).Nodup := by
    simp [firstRepeat_eq_none]
  rw [ofQuestions, ← hnone]
  cases firstRepeat [] questions with
  | some id => simp
  | none => simp [eq_comm]

/-- With distinct ids a question is found by its id. -/
theorem question?_eq_some (hd : (questions.map (·.id)).Nodup) :
    question? ⟨questions⟩ id = some q ↔ q ∈ questions ∧ q.id = id := by
  rw [question?]
  induction questions with
  | nil => simp
  | cons a questions ih =>
    rw [List.map_cons, List.nodup_cons] at hd
    rw [List.find?_cons]
    by_cases ha : a.id = id
    · -- No later question has the id.
      have hlater : ∀ x ∈ questions, x.id ≠ id := by
        intro x hx hid
        exact hd.1 (List.mem_map.2 ⟨x, hx, hid.trans ha.symm⟩)
      simp only [ha, beq_self_eq_true, Option.some.injEq, List.mem_cons]
      constructor
      · intro h
        subst h
        exact ⟨.inl rfl, ha⟩
      · intro h
        obtain ⟨hmem | hmem, hid⟩ := h
        · exact hmem.symm
        · exact absurd hid (hlater q hmem)
    · simp only [beq_eq_false_iff_ne.2 ha, List.mem_cons]
      rw [ih hd.2]
      constructor
      · intro h
        exact ⟨.inr h.1, h.2⟩
      · intro h
        obtain ⟨hmem | hmem, hid⟩ := h
        · exact absurd (hmem ▸ hid) ha
        · exact ⟨hmem, hid⟩

theorem question?_eq_none : question? ⟨questions⟩ id = none ↔ ∀ q ∈ questions, q.id ≠ id := by
  simp [question?]

end Catalog

variable {c : Catalog} {m : MissingQuestion}

/-- The question ids of a block, in the order of use, each with the id of the block. -/
def StoredBlock.asked (b : StoredBlock) : List (BlockId × QuestionId) := b.questions.map fun u => (b.id, u.id)

/-- The question ids of a stored program, in block order. -/
def StoredProgram.asked (s : StoredProgram) : List (BlockId × QuestionId) := s.blocks.flatMap StoredBlock.asked

theorem StoredUsage.exists_hydrate {u : StoredUsage} {block : BlockId} :
    (∃ v, u.hydrate c block = .ok v) ↔ c.question? u.id ≠ none := by
  rw [hydrate]
  cases c.question? u.id <;> simp

theorem StoredBlock.exists_hydrate {b : StoredBlock} :
    (∃ d, b.hydrate c = .ok d) ↔ ∀ u ∈ b.questions, c.question? u.id ≠ none := by
  have husage : ∀ u, c.question? u.id ≠ none ↔ ∃ v, StoredUsage.hydrate c b.id u = .ok v :=
    fun u => StoredUsage.exists_hydrate.symm
  simp only [husage, ← exists_mapM_ok, hydrate]
  cases b.questions.mapM (StoredUsage.hydrate c b.id) <;> simp [Except.map]

theorem StoredProgram.exists_hydrate {s : StoredProgram} :
    (∃ p, s.hydrate c = .ok p) ↔ ∀ b ∈ s.blocks, ∀ u ∈ b.questions, c.question? u.id ≠ none := by
  simp only [← StoredBlock.exists_hydrate, ← exists_mapM_ok, hydrate]
  cases s.blocks.mapM (StoredBlock.hydrate c) <;> simp [Except.map]

theorem StoredUsage.hydrate_error {u : StoredUsage} {block : BlockId} (h : u.hydrate c block = .error m) :
    m = ⟨block, u.id⟩ ∧ c.question? u.id = none := by
  rw [hydrate] at h
  split at h
  next => cases h
  next hnone =>
    cases h
    exact ⟨rfl, hnone⟩

/-- The first question that a block misses. -/
theorem StoredBlock.hydrate_error {b : StoredBlock} (h : b.hydrate c = .error m) :
    ∃ before after, b.asked = before ++ (m.block, m.question) :: after ∧
      (∀ a ∈ before, c.question? a.2 ≠ none) ∧ c.question? m.question = none := by
  have hrow : b.questions.mapM (StoredUsage.hydrate c b.id) = .error m := by
    rw [hydrate] at h
    cases hr : b.questions.mapM (StoredUsage.hydrate c b.id) with
    | ok questions =>
      rw [hr] at h
      cases h
    | error m' =>
      rw [hr] at h
      cases h
      rfl
  obtain ⟨before, u, after, hsplit, hbefore, hu⟩ := mapM_eq_error hrow
  obtain ⟨hm, hnone⟩ := StoredUsage.hydrate_error hu
  subst hm
  refine ⟨before.map fun u => (b.id, u.id), after.map fun u => (b.id, u.id), ?_, ?_, hnone⟩
  · rw [asked, hsplit, List.map_append, List.map_cons]
  · intro a ha
    obtain ⟨v, hv, rfl⟩ := List.mem_map.1 ha
    exact StoredUsage.exists_hydrate.1 (hbefore v hv)

/-- The first question that a program misses: the blocks before have all of theirs. -/
theorem StoredProgram.hydrate_error {s : StoredProgram} (h : s.hydrate c = .error m) :
    ∃ before after, s.asked = before ++ (m.block, m.question) :: after ∧
      (∀ a ∈ before, c.question? a.2 ≠ none) ∧ c.question? m.question = none := by
  have hrow : s.blocks.mapM (StoredBlock.hydrate c) = .error m := by
    rw [hydrate] at h
    cases hr : s.blocks.mapM (StoredBlock.hydrate c) with
    | ok blocks =>
      rw [hr] at h
      cases h
    | error m' =>
      rw [hr] at h
      cases h
      rfl
  obtain ⟨front, b, back, hsplit, hfront, hb⟩ := mapM_eq_error hrow
  obtain ⟨before, after, hasked, hbefore, hnone⟩ := StoredBlock.hydrate_error hb
  refine ⟨front.flatMap StoredBlock.asked ++ before, after ++ back.flatMap StoredBlock.asked, ?_, ?_, hnone⟩
  · rw [asked, hsplit, List.flatMap_append, List.flatMap_cons, hasked]
    simp
  · intro a ha
    rcases List.mem_append.1 ha with ha | ha
    · obtain ⟨d, hd, ha⟩ := List.mem_flatMap.1 ha
      obtain ⟨u, hu, rfl⟩ := List.mem_map.1 ha
      exact StoredBlock.exists_hydrate.1 (hfront d hd) u hu
    · exact hbefore a ha

/-- **Looking questions up is exact and can be undone.** Questions make a catalog if and only if their ids are
distinct. With that catalog a stored program is looked up if and only if each of its question ids is listed; then
it is what is stored of the result, and each use has the one listed question with its id. Otherwise the failure tells
the first id that is not listed, block by block and in the order of use, and the block that uses it. -/
theorem hydration_is_exact (questions : List Question) :
    ((∃ c, Catalog.ofQuestions questions = .ok c) ↔ (questions.map (·.id)).Nodup) ∧
    ∀ c, Catalog.ofQuestions questions = .ok c → ∀ s : StoredProgram,
      ((∃ p, s.hydrate c = .ok p) ↔ ∀ b ∈ s.blocks, ∀ u ∈ b.questions, ∃ q ∈ questions, q.id = u.id) ∧
      (∀ p, s.hydrate c = .ok p → StoredProgram.ofProgram p = s ∧
        ∀ b ∈ p.blocks, ∀ u ∈ b.questions, ∀ q, q = u.question ↔ q ∈ questions ∧ q.id = u.id) ∧
      ∀ m, s.hydrate c = .error m →
        (∃ before after, s.asked = before ++ (m.block, m.question) :: after ∧
          (∀ a ∈ before, ∃ q ∈ questions, q.id = a.2) ∧ ∀ q ∈ questions, q.id ≠ m.question) ∧
        m.message = "block " ++ Decimal.text m.block.toNat ++ ": question " ++ Decimal.text m.question.toNat
          ++ " not found in catalog" := by
  refine ⟨by simp [Catalog.ofQuestions_eq_ok], fun c hc s => ?_⟩
  obtain ⟨rfl, hd⟩ := Catalog.ofQuestions_eq_ok.1 hc
  have hlisted : ∀ id, Catalog.question? ⟨questions⟩ id ≠ none ↔ ∃ q ∈ questions, q.id = id := by
    intro id
    simp [Catalog.question?_eq_none]
  simp only [← hlisted]
  refine ⟨StoredProgram.exists_hydrate, fun p hp => ?_, fun m hm => ⟨?_, rfl⟩⟩
  · obtain ⟨hback, hagrees, -⟩ := StoredProgram.hydrate_ok hp
    refine ⟨hback, fun b hb u hu q => ?_⟩
    rw [← Catalog.question?_eq_some hd, hagrees b hb u hu, Option.some.injEq, eq_comm]
  · obtain ⟨before, after, hasked, hbefore, hnone⟩ := StoredProgram.hydrate_error hm
    exact ⟨before, after, hasked, hbefore, Catalog.question?_eq_none.1 hnone⟩

/-- Two questions, one of them used twice. With three uses of questions that are not listed, the failure is the one
that comes first in the order of use, though the ids of the others are smaller. -/
theorem hydration_is_exact_plan :
    let phone : Question := { id := 10, name := "phone", type := .phone }
    let plan : Question := { id := 20, name := "plan", type := .text }
    let contact : StoredBlock := { id := 1, name := "contact", questions := [{ id := 10, optional := true }] }
    let s : StoredProgram := {
      details := { id := 7, adminName := "form" }
      blocks := [contact, { id := 2, name := "plan", questions := [{ id := 20 }, { id := 10 }] }] }
    let t : StoredProgram := { s with
      blocks := [contact, { id := 3, name := "lost", questions := [{ id := 20 }, { id := 99 }, { id := 98 }] },
        { id := 2, name := "last", questions := [{ id := 97 }] }] }
    Catalog.ofQuestions [phone, plan] = .ok ⟨[phone, plan]⟩ ∧
      (∃ p, s.hydrate ⟨[phone, plan]⟩ = .ok p ∧ StoredProgram.ofProgram p = s ∧
        ∀ b ∈ p.blocks, ∀ u ∈ b.questions, u.question ∈ [phone, plan]) ∧
      t.hydrate ⟨[phone, plan]⟩ = .error ⟨3, 99⟩ ∧
      (∃ before after, t.asked = before ++ (3, 99) :: after ∧ ∀ a ∈ before, ∃ q ∈ [phone, plan], q.id = a.2) ∧
      ¬ ∃ c, Catalog.ofQuestions [phone, plan, { plan with id := 10 }] = .ok c := by
  intro phone plan contact s t
  have hc : Catalog.ofQuestions [phone, plan] = .ok ⟨[phone, plan]⟩ := rfl
  obtain ⟨-, hlooks⟩ := hydration_is_exact [phone, plan]
  obtain ⟨hsucceeds, hback, -⟩ := hlooks _ hc s
  obtain ⟨-, -, hfails⟩ := hlooks _ hc t
  obtain ⟨p, hp⟩ := hsucceeds.2 (by decide)
  obtain ⟨hstored, hquestions⟩ := hback p hp
  have ht : t.hydrate ⟨[phone, plan]⟩ = .error ⟨3, 99⟩ := rfl
  obtain ⟨⟨before, after, hasked, hbefore, -⟩, -⟩ := hfails _ ht
  refine ⟨hc, ⟨p, hp, hstored, fun b hb u hu => ?_⟩, ht, ⟨before, after, hasked, hbefore⟩, ?_⟩
  · exact ((hquestions b hb u hu u.question).1 rfl).1
  · rw [(hydration_is_exact _).1]
    decide

end FormProgram
