/-
Finite maps as lists of entries in ascending order of their keys.

The order is part of the value (`SortedMap.ascending`), so two maps are equal as soon as they hold
the same entries, and listing a map needs no sorting. The functions on bare lists
(`Entries.insert`, `Entries.add`) are shared with JSON objects, whose members nest.
-/
import FormProgram.Sorted.Set

set_option autoImplicit false

namespace FormProgram

namespace Entries

variable {κ ν : Type} [Ord κ]

/-- The keys ascend, so that no key occurs twice. -/
def Ascending (entries : List (κ × ν)) : Prop :=
  entries.Pairwise fun a b => compare a.1 b.1 = .lt

/-- Puts an entry at its place; an entry that had the key is replaced. -/
def insert (k : κ) (v : ν) : List (κ × ν) → List (κ × ν)
  | [] => [(k, v)]
  | e :: rest =>
    match compare k e.1 with
    | .lt => (k, v) :: e :: rest
    | .eq => (k, v) :: rest
    | .gt => e :: insert k v rest

/-- Puts an entry at its place unless the key is there already. -/
def add (k : κ) (v : ν) : List (κ × ν) → List (κ × ν)
  | [] => [(k, v)]
  | e :: rest =>
    match compare k e.1 with
    | .lt => (k, v) :: e :: rest
    | .eq => e :: rest
    | .gt => e :: add k v rest

theorem key_of_mem_insert {k : κ} {v : ν} {l : List (κ × ν)} {e : κ × ν}
    (h : e ∈ insert k v l) : e.1 = k ∨ e ∈ l := by
  induction l with
  | nil => simp [insert] at h; simp [h]
  | cons a l ih =>
    unfold insert at h
    split at h <;> simp only [List.mem_cons] at h ⊢
    · rcases h with rfl | h <;> simp_all
    · rcases h with rfl | h <;> simp_all
    · rcases h with rfl | h
      · simp
      · rcases ih h with h | h <;> simp [h]

theorem key_of_mem_add {k : κ} {v : ν} {l : List (κ × ν)} {e : κ × ν}
    (h : e ∈ add k v l) : e.1 = k ∨ e ∈ l := by
  induction l with
  | nil => simp [add] at h; simp [h]
  | cons a l ih =>
    unfold add at h
    split at h <;> simp only [List.mem_cons] at h ⊢
    · rcases h with rfl | h <;> simp_all
    · rcases h with rfl | h <;> simp_all
    · rcases h with rfl | h
      · simp
      · rcases ih h with h | h <;> simp [h]

variable [Std.TransOrd κ] [Std.LawfulEqOrd κ]

theorem Ascending.insert {l : List (κ × ν)} (h : Ascending l) (k : κ) (v : ν) :
    Ascending (Entries.insert k v l) := by
  induction l with
  | nil => simp [Entries.insert, Ascending]
  | cons a l ih =>
    have ha := List.pairwise_cons.1 h
    unfold Entries.insert
    split
    · rename_i hk
      refine List.pairwise_cons.2 ⟨fun e he => ?_, h⟩
      rcases List.mem_cons.1 he with rfl | he
      · exact hk
      · exact Std.TransCmp.lt_trans hk (ha.1 e he)
    · rename_i hk
      have hk := Std.LawfulEqCmp.eq_of_compare hk
      exact List.pairwise_cons.2 ⟨fun e he => hk ▸ ha.1 e he, ha.2⟩
    · rename_i hk
      refine List.pairwise_cons.2 ⟨fun e he => ?_, ih ha.2⟩
      rcases key_of_mem_insert he with rfl | he
      · exact Std.OrientedCmp.lt_of_gt hk
      · exact ha.1 e he

omit [Std.LawfulEqOrd κ] in
theorem Ascending.add {l : List (κ × ν)} (h : Ascending l) (k : κ) (v : ν) :
    Ascending (Entries.add k v l) := by
  induction l with
  | nil => simp [Entries.add, Ascending]
  | cons a l ih =>
    have ha := List.pairwise_cons.1 h
    unfold Entries.add
    split
    · rename_i hk
      refine List.pairwise_cons.2 ⟨fun e he => ?_, h⟩
      rcases List.mem_cons.1 he with rfl | he
      · exact hk
      · exact Std.TransCmp.lt_trans hk (ha.1 e he)
    · exact h
    · rename_i hk
      refine List.pairwise_cons.2 ⟨fun e he => ?_, ih ha.2⟩
      rcases key_of_mem_add he with rfl | he
      · exact Std.OrientedCmp.lt_of_gt hk
      · exact ha.1 e he

end Entries

structure SortedMap (κ ν : Type) [Ord κ] where
  entries : List (κ × ν)
  ascending : Entries.Ascending entries

namespace SortedMap

variable {κ ν : Type} [Ord κ]

instance [DecidableEq κ] [DecidableEq ν] : DecidableEq (SortedMap κ ν) := fun a b =>
  decidable_of_iff (a.entries = b.entries) (by cases a; cases b; simp)

instance : EmptyCollection (SortedMap κ ν) := ⟨⟨[], List.Pairwise.nil⟩⟩

instance : Inhabited (SortedMap κ ν) := ⟨∅⟩

def keys (m : SortedMap κ ν) : SortedSet κ :=
  have ascending : m.entries.Pairwise fun a b => compare a.1 b.1 = .lt := m.ascending
  ⟨m.entries.map (·.1), List.pairwise_map.2 ascending⟩

variable [Std.TransOrd κ] [Std.LawfulEqOrd κ]

/-- An entry that had the key is replaced. -/
def insert (m : SortedMap κ ν) (k : κ) (v : ν) : SortedMap κ ν :=
  ⟨Entries.insert k v m.entries, m.ascending.insert k v⟩

/-- Of several entries with one key the last is kept. -/
def ofList (entries : List (κ × ν)) : SortedMap κ ν :=
  entries.foldl (fun m e => m.insert e.1 e.2) ∅

end SortedMap

end FormProgram
