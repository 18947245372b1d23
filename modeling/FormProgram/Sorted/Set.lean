/-
Finite sets as lists of elements in ascending order. The order is part of the value, so sets with
the same elements are equal and their elements are listed without sorting.
-/
set_option autoImplicit false

namespace FormProgram

structure SortedSet (α : Type) [Ord α] where
  toList : List α
  ascending : toList.Pairwise fun a b => compare a b = .lt

namespace SortedSet

variable {α : Type} [Ord α]

instance [DecidableEq α] : DecidableEq (SortedSet α) := fun a b =>
  decidable_of_iff (a.toList = b.toList) (by cases a; cases b; simp)

instance : EmptyCollection (SortedSet α) := ⟨⟨[], List.Pairwise.nil⟩⟩

instance : Inhabited (SortedSet α) := ⟨∅⟩

instance : Membership α (SortedSet α) := ⟨fun s a => a ∈ s.toList⟩

instance [DecidableEq α] (a : α) (s : SortedSet α) : Decidable (a ∈ s) :=
  inferInstanceAs (Decidable (a ∈ s.toList))

def isEmpty (s : SortedSet α) : Bool := s.toList.isEmpty

/-- Keeps the elements that pass. -/
def filter (s : SortedSet α) (keep : α → Bool) : SortedSet α :=
  ⟨s.toList.filter keep, s.ascending.filter keep⟩

/-- Puts an element at its place in an ascending list, unless it is there. -/
def place (a : α) : List α → List α
  | [] => [a]
  | b :: rest =>
    match compare a b with
    | .lt => a :: b :: rest
    | .eq => b :: rest
    | .gt => b :: place a rest

variable [Std.TransOrd α] [Std.LawfulEqOrd α]

omit [Std.TransOrd α] in
@[simp] theorem mem_place {a x : α} {l : List α} : x ∈ place a l ↔ x = a ∨ x ∈ l := by
  induction l with
  | nil => simp [place]
  | cons b l ih =>
    unfold place
    split
    · simp
    · rename_i h
      have := Std.LawfulEqCmp.eq_of_compare h
      simp [this]
    · simp [ih, or_left_comm]

theorem pairwise_place {l : List α} (h : l.Pairwise fun a b => compare a b = .lt) (a : α) :
    (place a l).Pairwise fun a b => compare a b = .lt := by
  induction l with
  | nil => simp [place]
  | cons b l ih =>
    have hb := List.pairwise_cons.1 h
    unfold place
    split
    · rename_i hk
      refine List.pairwise_cons.2 ⟨fun e he => ?_, h⟩
      rcases List.mem_cons.1 he with rfl | he
      · exact hk
      · exact Std.TransCmp.lt_trans hk (hb.1 e he)
    · exact h
    · rename_i hk
      refine List.pairwise_cons.2 ⟨fun e he => ?_, ih hb.2⟩
      rcases mem_place.1 he with rfl | he
      · exact Std.OrientedCmp.lt_of_gt hk
      · exact hb.1 e he

def insert (s : SortedSet α) (a : α) : SortedSet α :=
  ⟨place a s.toList, pairwise_place s.ascending a⟩

def ofList (elements : List α) : SortedSet α := elements.foldl insert ∅

def union (s t : SortedSet α) : SortedSet α := t.toList.foldl insert s

omit [Std.TransOrd α] [Std.LawfulEqOrd α] in
theorem mem_toList {s : SortedSet α} {a : α} : a ∈ s.toList ↔ a ∈ s := Iff.rfl

omit [Std.TransOrd α] [Std.LawfulEqOrd α] in
@[simp] theorem not_mem_empty {a : α} : ¬ a ∈ (∅ : SortedSet α) := List.not_mem_nil

omit [Std.TransOrd α] [Std.LawfulEqOrd α] in
@[simp] theorem mem_filter {s : SortedSet α} {keep : α → Bool} {a : α} :
    a ∈ s.filter keep ↔ a ∈ s ∧ keep a = true := List.mem_filter

@[simp] theorem mem_insert {s : SortedSet α} {a x : α} : x ∈ s.insert a ↔ x = a ∨ x ∈ s :=
  mem_place

theorem mem_foldl_insert {l : List α} {s : SortedSet α} {x : α} :
    x ∈ l.foldl insert s ↔ x ∈ l ∨ x ∈ s := by
  induction l generalizing s with
  | nil => simp
  | cons a l ih => simp [ih, or_assoc, or_left_comm]

@[simp] theorem mem_ofList {l : List α} {x : α} : x ∈ ofList l ↔ x ∈ l := by
  simp [ofList, mem_foldl_insert]

@[simp] theorem mem_union {s t : SortedSet α} {x : α} : x ∈ s.union t ↔ x ∈ s ∨ x ∈ t := by
  simp [union, mem_foldl_insert, mem_toList, or_comm]

omit [Std.LawfulEqOrd α] in
theorem nodup_toList (s : SortedSet α) : s.toList.Nodup :=
  s.ascending.imp fun {a b} hlt heq => by
    have hself : compare a a = .eq := Std.ReflCmp.compare_self
    rw [← heq, hself] at hlt
    cases hlt

omit [Std.LawfulEqOrd α] in
/-- Sets with the same elements are equal. -/
theorem ext {s t : SortedSet α} (h : ∀ a, a ∈ s ↔ a ∈ t) : s = t := by
  have hperm : s.toList.Perm t.toList := (List.perm_ext_iff_of_nodup s.nodup_toList t.nodup_toList).2 h
  have hlist : s.toList = t.toList := by
    refine hperm.eq_of_pairwise (fun a b _ _ hab hba => ?_) s.ascending t.ascending
    rw [Std.OrientedCmp.gt_of_lt hab] at hba
    cases hba
  cases s
  cases t
  cases hlist
  rfl

omit [Std.TransOrd α] [Std.LawfulEqOrd α] in
theorem isEmpty_iff {s : SortedSet α} : s.isEmpty = true ↔ ∀ a, ¬ a ∈ s := by
  rw [isEmpty, List.isEmpty_iff, List.eq_nil_iff_forall_not_mem]
  rfl

omit [Std.LawfulEqOrd α] in
theorem eq_empty_iff {s : SortedSet α} : s = ∅ ↔ ∀ a, ¬ a ∈ s := by
  constructor
  · rintro rfl
    exact fun _ => not_mem_empty
  · exact fun h => ext fun a => iff_of_false (h a) not_mem_empty

end SortedSet

end FormProgram
