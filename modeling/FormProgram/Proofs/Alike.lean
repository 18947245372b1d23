/-
Block lists that are equal block by block (`Alike`). What is found out about a list depends on its blocks
only as far as equal blocks agree (`Block.Like`), and lists made of equal lists are equal again.
-/
import FormProgram.Availability
import FormProgram.Edit
import FormProgram.LateRead
import FormProgram.Proofs.Equality
import Mathlib.Data.List.Forall2

set_option autoImplicit false

namespace FormProgram

/-- As many blocks, and equal ones at each position. -/
abbrev Alike (xs ys : List Block) : Prop := List.Forall₂ (fun b c => (b == c) = true) xs ys

theorem beq_iff_alike {xs ys : List Block} : (xs == ys) = true ↔ Alike xs ys := by
  induction xs generalizing ys with
  | nil => cases ys <;> simp
  | cons b xs ih =>
    cases ys with
    | nil => simp
    | cons c ys => simp [← ih]

namespace Alike

variable {xs ys xs' ys' : List Block} {α : Type}

theorem refl (xs : List Block) : Alike xs xs := List.forall₂_same.2 fun _ _ => BEq.rfl

theorem isEmpty (h : Alike xs ys) : xs.isEmpty = ys.isEmpty := by
  cases h with
  | nil => rfl
  | cons _ _ => rfl

theorem map_eq (h : Alike xs ys) {f g : Block → α} (hf : ∀ b c, b.Like c → f b = g c) :
    xs.map f = ys.map g := by
  induction h with
  | nil => rfl
  | cons hbc _ ih => rw [List.map_cons, List.map_cons, hf _ _ (Block.like_of_beq hbc), ih]

theorem flatMap_eq (h : Alike xs ys) {f g : Block → List α} (hf : ∀ b c, b.Like c → f b = g c) :
    xs.flatMap f = ys.flatMap g := by
  rw [List.flatMap_def, List.flatMap_def, h.map_eq hf]

theorem filterMap_eq (h : Alike xs ys) {f g : Block → Option α} (hf : ∀ b c, b.Like c → f b = g c) :
    xs.filterMap f = ys.filterMap g := by
  have hm := congrArg (List.filterMap id) (h.map_eq hf)
  rwa [List.filterMap_map, List.filterMap_map] at hm

theorem any_eq (h : Alike xs ys) {f : Block → Bool} (hf : ∀ b c, b.Like c → f b = f c) : xs.any f = ys.any f := by
  have hm := congrArg (List.any · id) (h.map_eq hf)
  simpa [List.any_map] using hm

theorem getElem? (h : Alike xs ys) (i : Nat) : Option.Rel (fun b c => (b == c) = true) xs[i]? ys[i]? := by
  induction h generalizing i with
  | nil => exact .none
  | cons hbc _ ih =>
    cases i with
    | zero => exact .some hbc
    | succ i => exact ih i

theorem beq_getElem? (h : Alike xs ys) (i : Nat) : (xs[i]? == ys[i]?) = true := by
  have hi := h.getElem? i
  generalize xs[i]? = o, ys[i]? = o' at hi
  cases hi with
  | none => rfl
  | some hbc => exact hbc

theorem map_getElem? (h : Alike xs ys) (i : Nat) {f : Block → α} (hf : ∀ b c, b.Like c → f b = f c) :
    xs[i]?.map f = ys[i]?.map f := by
  have hm := congrArg (·[i]?) (h.map_eq hf)
  simpa using hm

theorem positionOf (h : Alike xs ys) (id : BlockId) : FormProgram.positionOf xs id = FormProgram.positionOf ys id := by
  have hm := congrArg (List.findIdx? (· == id)) (h.map_eq fun _ _ l => l.id)
  rw [List.findIdx?_map, List.findIdx?_map] at hm
  exact hm

theorem find? (h : Alike xs ys) {pass : Block → Bool} (hp : ∀ b c, b.Like c → pass b = pass c) :
    Option.Rel (fun b c => (b == c) = true) (xs.find? pass) (ys.find? pass) := by
  induction h with
  | nil => exact .none
  | @cons b c xs ys hbc _ ih =>
    rw [List.find?_cons, List.find?_cons, hp _ _ (Block.like_of_beq hbc)]
    cases pass c with
    | true => exact .some hbc
    | false => exact ih

theorem filter (h : Alike xs ys) {keep : Block → Bool} (hk : ∀ b c, b.Like c → keep b = keep c) :
    Alike (xs.filter keep) (ys.filter keep) :=
  List.rel_filter (fun b c hbc => iff_of_eq (congrArg (· = true) (hk b c (Block.like_of_beq hbc)))) h

theorem append (h : Alike xs ys) (h' : Alike xs' ys') : Alike (xs ++ xs') (ys ++ ys') := List.rel_append h h'

theorem pick (h : Alike xs ys) (positions : List Nat) :
    Alike (FormProgram.pick xs positions) (FormProgram.pick ys positions) := by
  refine List.rel_filterMap (fun i j hij => ?_) (List.forall₂_eq_eq_eq ▸ rfl : List.Forall₂ (· = ·) positions positions)
  cases hij
  exact h.getElem? i

end Alike

end FormProgram
