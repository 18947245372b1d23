/-
Rows of results: one result for each item of a list, or none at all where one item has none.

That `mapM` has a result means that the items and the results are related one by one (`mapM_eq_some_iff`,
`mapM_eq_ok_iff`). What holds of lists that are so related is then said once, whatever a failure looks like.
-/
import Mathlib.Data.List.Forall2

set_option autoImplicit false

namespace FormProgram

variable {ε α β : Type} {l : List α} {l' : List β}

theorem mapM_eq_some_iff {f : α → Option β} : l.mapM f = some l' ↔ List.Forall₂ (fun a b => f a = some b) l l' := by
  induction l generalizing l' with
  | nil => simp [eq_comm]
  | cons a l ih =>
    rw [List.mapM_cons]
    cases ha : f a with
    | none => cases l' <;> simp [ha]
    | some b =>
      cases hl : l.mapM f with
      | none => cases l' <;> simp [← ih, hl]
      | some bs => cases l' <;> simp [← ih, ha, hl]

theorem mapM_eq_ok_iff {f : α → Except ε β} : l.mapM f = .ok l' ↔ List.Forall₂ (fun a b => f a = .ok b) l l' := by
  induction l generalizing l' with
  | nil => simp [eq_comm, pure, Except.pure]
  | cons a l ih =>
    rw [List.mapM_cons]
    cases ha : f a with
    | error e => cases l' <;> simp [bind, Except.bind, ha]
    | ok b =>
      cases hl : l.mapM f with
      | error e => cases l' <;> simp [bind, Except.bind, ← ih, hl]
      | ok bs => cases l' <;> simp [bind, Except.bind, pure, Except.pure, ← ih, ha, hl]

section Rows

variable {R : α → β → Prop}

theorem Row.exists_getElem? (h : List.Forall₂ R l l') {k : Nat} {a : α} (hk : l[k]? = some a) :
    ∃ b, l'[k]? = some b ∧ R a b := by
  induction h generalizing k with
  | nil => cases hk
  | @cons a' b l l' hab _ ih =>
    cases k with
    | zero =>
      cases hk
      exact ⟨b, rfl, hab⟩
    | succ k => exact ih hk

/-- Each result is that of some item. -/
theorem Row.exists_item (h : List.Forall₂ R l l') : ∀ b ∈ l', ∃ a ∈ l, R a b := by
  intro b hb
  obtain ⟨k, hk⟩ := List.mem_iff_getElem?.1 hb
  obtain ⟨a, ha, hab⟩ := Row.exists_getElem? h.flip hk
  exact ⟨a, List.mem_of_getElem? ha, hab⟩

/-- Each item has some result. -/
theorem Row.exists_result (h : List.Forall₂ R l l') : ∀ a ∈ l, ∃ b ∈ l', R a b := by
  intro a ha
  obtain ⟨k, hk⟩ := List.mem_iff_getElem?.1 ha
  obtain ⟨b, hb, hab⟩ := Row.exists_getElem? h hk
  exact ⟨b, List.mem_of_getElem? hb, hab⟩

end Rows

end FormProgram
