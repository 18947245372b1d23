/-
Inserting a block into a canonical list with distinct ids: at the end, or as the last sibling under its
enumerator, behind everything that repeats there already.
-/
import FormProgram.Proofs.Site

set_option autoImplicit false

namespace FormProgram

variable {l before earlier below later after : List Block} {b c : Block}

theorem Nested.single : Nested b.enumerator [b] := .tree (fun _ => rfl) .nil

/-- One more block at the end of what repeats under an enumerator. -/
theorem Site.extend {k : Option BlockId} (s : Site k l before earlier c below later after)
    (hc : c.isEnumerator = true) (hb : b.enumerator = some c.id) :
    Site k (before ++ (earlier ++ (c :: (below ++ [b])) ++ later) ++ after) before earlier c (below ++ [b])
      later after where
  list := rfl
  around := s.around
  first := s.first
  leaf := by simp [hc]
  inner := s.inner.append (hb ▸ .single)
  last := s.last

theorem Site.extend_perm {k : Option BlockId} (s : Site k l before earlier c below later after) :
    (before ++ (earlier ++ (c :: (below ++ [b])) ++ later) ++ after).Perm (b :: l) := by
  have h := perm_outside (before ++ earlier ++ c :: below) [b] (later ++ after)
  rw [s.list]
  refine List.Perm.trans ?_ (List.perm_append_singleton b _)
  simpa [List.append_assoc] using h

theorem Site.insertBlock (s : Site none l before earlier c below later after) (hd : DistinctIds l)
    (hnew : ∀ x ∈ l, x.id ≠ b.id) (hc : c.isEnumerator = true) (hb : b.enumerator = some c.id) :
    FormProgram.insertBlock l b = .ok (before ++ (earlier ++ (c :: (below ++ [b])) ++ later) ++ after) := by
  have hany : l.any (·.id == b.id) = false := by simpa using hnew
  have hindex : insertionIndex l b = .ok ((before ++ earlier).length + (c :: below).length) := by
    simp only [insertionIndex, hany, hb, hd.positionOf s.getElem?, s.getElem?, Option.map_some,
      Option.getD_some, hc, s.sliceAt hd, Bool.false_eq_true, if_false, if_true]
  have hl := s.list_tree
  rw [← List.length_append] at hindex
  rw [FormProgram.insertBlock, hindex, Except.map, hl, List.take_left' rfl, List.drop_left' rfl]
  simp [List.append_assoc]

theorem insertBlock_top (hnew : ∀ x ∈ l, x.id ≠ b.id) (hb : b.enumerator = none) :
    insertBlock l b = .ok (l ++ [b]) := by
  have hany : l.any (·.id == b.id) = false := by simpa using hnew
  simp [insertBlock, insertionIndex, hany, hb, Except.map]

/-- A block goes behind the whole of its group. -/
theorem insertBlock_behind_group {m : List Block} (h : Nested none l) (hd : DistinctIds l)
    (hi : insertBlock l b = .ok m) :
    ∃ front back, l = front ++ back ∧ m = front ++ b :: back ∧ ∀ x ∈ back, x.enumerator ≠ b.enumerator := by
  rw [insertBlock] at hi
  cases hindex : insertionIndex l b with
  | error e => simp [hindex, Except.map] at hi
  | ok i =>
    simp only [hindex, Except.map, Except.ok.injEq] at hi
    refine ⟨l.take i, l.drop i, (List.take_append_drop i l).symm, hi.symm, fun x hx => ?_⟩
    rw [insertionIndex] at hindex
    split at hindex
    · cases hindex
    cases hb : b.enumerator with
    | none =>
      simp only [hb, Except.ok.injEq] at hindex
      simp [← hindex] at hx
    | some e =>
      simp only [hb] at hindex
      split at hindex
      · cases hindex
      next p hp =>
        obtain ⟨c, hc, rfl⟩ := block_of_positionOf hp
        obtain ⟨before, earlier, below, later, after, rfl, s⟩ := h.site_at hc
        split at hindex
        · simp only [s.sliceAt hd, Except.ok.injEq] at hindex
          rw [← hindex, ← List.length_append, s.list_tree, List.drop_left' rfl] at hx
          refine s.enumerator_ne hd (by simp) ?_ List.mem_cons_self
          simp only [List.mem_append] at hx ⊢
          tauto
        · cases hindex

/-- **An insertion in canonical order**: it fails if the id is taken or else if there is no such enumerator;
otherwise the block is added and the list is canonical again. -/
theorem insertBlock_cases (h : Nested none l) (hd : DistinctIds l) (b : Block) :
    ((∃ x ∈ l, x.id = b.id) ∧ insertBlock l b = .error (.duplicateBlock b.id)) ∨
    ((∀ x ∈ l, x.id ≠ b.id) ∧ ∃ e, b.enumerator = some e ∧ (∀ c ∈ l, c.id = e → c.isEnumerator = false) ∧
      insertBlock l b = .error (.missingBlock e)) ∨
    ((∀ x ∈ l, x.id ≠ b.id) ∧ (∀ e, b.enumerator = some e → ∃ c ∈ l, c.id = e ∧ c.isEnumerator = true) ∧
      ∃ l', insertBlock l b = .ok l' ∧ l'.Perm (b :: l) ∧ Nested none l') := by
  by_cases hold : ∃ x ∈ l, x.id = b.id
  · refine .inl ⟨hold, ?_⟩
    have hany : l.any (·.id == b.id) = true := by simpa using hold
    simp [insertBlock, insertionIndex, hany, Except.map]
  · have hnew : ∀ x ∈ l, x.id ≠ b.id := fun x hx hid => hold ⟨x, hx, hid⟩
    have hany : l.any (·.id == b.id) = false := by simpa using hnew
    refine .inr ?_
    cases hb : b.enumerator with
    | none =>
      refine .inr ⟨hnew, by simp, l ++ [b], insertBlock_top hnew hb, List.perm_append_comm, ?_⟩
      exact h.append (hb ▸ .single)
    | some e =>
      cases hp : positionOf l e with
      | none =>
        refine .inl ⟨hnew, e, rfl, fun c hc hid => absurd hid (positionOf_eq_none.1 hp c hc), ?_⟩
        simp [insertBlock, insertionIndex, hany, hb, hp, Except.map]
      | some i =>
        obtain ⟨c, hc, rfl⟩ := block_of_positionOf hp
        have hmem : c ∈ l := List.mem_of_getElem? hc
        cases hen : c.isEnumerator with
        | false =>
          refine .inl ⟨hnew, c.id, rfl, fun c' hc' hid => ?_, ?_⟩
          · rw [hd.eq_of_id hc' hmem hid, hen]
          · simp [insertBlock, insertionIndex, hany, hb, hp, hc, hen, Except.map]
        | true =>
          obtain ⟨before, earlier, below, later, after, -, s⟩ := h.site_at hc
          have s' := s.extend hen hb
          refine .inr ⟨hnew, fun e he => ?_, _, s.insertBlock hd hnew hen hb, s.extend_perm, s'.nested⟩
          cases he
          exact ⟨c, hmem, rfl, hen⟩

end FormProgram
