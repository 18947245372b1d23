/-
The walk of a forest as a loop over a stack: the node on top is noted and its children are put on the stack.
Nothing keeps the loop from meeting a node again.

With enough rounds it notes what `Forest.walk` lists, however the children are arranged, if the nodes it
starts from have no descendants beyond some level (`emit_eq`). From a node on a cycle it never ends
(`emit_eq_none_of_cycle`).
-/
import FormProgram.Proofs.ForestFacts
import Mathlib.Data.List.Perm.Basic

set_option autoImplicit false

namespace FormProgram.Forest

variable {f : Forest} {arrange : List Nat → List Nat} {i j n rounds : Nat} {stack out : List Nat}

/-- What the loop notes within that many rounds. There is no result if nodes are left on the stack then, or
if one that is taken off is no node of the forest. -/
def emit (f : Forest) (arrange : List Nat → List Nat) : Nat → List Nat → Option (List Nat)
  | _, [] => some []
  | 0, _ :: _ => none
  | rounds + 1, i :: stack =>
    if i < f.size then (f.emit arrange rounds (arrange (f.children i) ++ stack)).map (i :: ·) else none

/-- The walk with the children of every node arranged. -/
def walkBy (f : Forest) (arrange : List Nat → List Nat) : Nat → Nat → List Nat
  | 0, _ => []
  | levels + 1, i => i :: (arrange (f.children i)).flatMap (f.walkBy arrange levels)

@[simp] theorem emit_nil : f.emit arrange rounds [] = some [] := by
  cases rounds <;> rfl

theorem emit_cons (hi : i < f.size) : f.emit arrange (rounds + 1) (i :: stack) =
    (f.emit arrange rounds (arrange (f.children i) ++ stack)).map (i :: ·) := by
  rw [emit, if_pos hi]

theorem walkBy_id : f.walkBy id n i = f.walk n i := by
  induction n generalizing i with
  | zero => rfl
  | succ n ih =>
    rw [walkBy, walk, id_eq]
    exact congrArg _ (List.flatMap_congr fun c _ => ih)

theorem walkBy_perm (ha : ∀ l, (arrange l).Perm l) : (f.walkBy arrange n i).Perm (f.walk n i) := by
  induction n generalizing i with
  | zero => exact .nil
  | succ n ih => exact ((ha _).flatMap fun c _ => ih).cons i

/-- No node hangs that many levels below this one. -/
def Shallow (f : Forest) (n i : Nat) : Prop := ∀ j, f.up n j ≠ some i

theorem Shallow.child (h : f.Shallow (n + 1) i) (hj : j ∈ f.children i) : f.Shallow n j := by
  intro x hx
  refine h x ?_
  rw [up_add, hx, Option.bind_some, up_one, mem_children.1 hj]

theorem Height.shallow {h : Nat} (hi : f.Height i h) : f.Shallow f.size i := by
  intro x hx
  have := (hi.of_up hx).lt_size
  omega

/-- What lies on top of the stack is noted with all its descendants before the rest of the stack. -/
theorem emit_append (hmem : ∀ l, ∀ c ∈ arrange l, c ∈ l) (rounds : Nat) (nodes stack : List Nat)
    (hn : ∀ i ∈ nodes, f.Shallow n i) (hin : ∀ i ∈ nodes, i < f.size) :
    f.emit arrange ((nodes.flatMap (f.walkBy arrange n)).length + rounds) (nodes ++ stack) =
      (f.emit arrange rounds stack).map (nodes.flatMap (f.walkBy arrange n) ++ ·) := by
  induction n generalizing nodes rounds stack with
  | zero =>
    -- Every node has itself no level below.
    have hnil : nodes = [] := List.eq_nil_iff_forall_not_mem.2 fun i hi => hn i hi i rfl
    subst hnil
    simp
  | succ n ih =>
    induction nodes generalizing rounds stack with
    | nil => simp
    | cons i nodes ih' =>
      have hlast := ih' rounds stack (fun j hj => hn j (by simp [hj])) fun j hj => hin j (by simp [hj])
      have hchild := fun c (hc : c ∈ arrange (f.children i)) => hmem _ c hc
      have hbelow := ih ((nodes.flatMap (f.walkBy arrange (n + 1))).length + rounds) (arrange (f.children i))
        (nodes ++ stack)
        (fun c hc => (hn i (by simp)).child (hchild c hc))
        fun c hc => lt_size_of_parent? (mem_children.1 (hchild c hc))
      rw [List.flatMap_cons, walkBy, List.cons_append, List.cons_append, List.length_cons,
        List.length_append, Nat.add_right_comm _ 1, emit_cons (hin i (by simp)), Nat.add_assoc, hbelow,
        hlast, Option.map_map, Option.map_map]
      congr 1
      funext out
      simp

/-- The loop ends after as many rounds as there are nodes below the ones it starts from. -/
theorem emit_eq (hmem : ∀ l, ∀ c ∈ arrange l, c ∈ l) (nodes : List Nat) (hn : ∀ i ∈ nodes, f.Shallow n i)
    (hin : ∀ i ∈ nodes, i < f.size) (hr : (nodes.flatMap (f.walkBy arrange n)).length ≤ rounds) :
    f.emit arrange rounds nodes = some (nodes.flatMap (f.walkBy arrange n)) := by
  have h := emit_append hmem (rounds - (nodes.flatMap (f.walkBy arrange n)).length) nodes [] hn hin
  rw [Nat.add_sub_cancel' hr] at h
  simpa using h

theorem length_preorder_le : f.preorder.length ≤ f.size :=
  length_le_size nodup_preorder fun _ hi => (mem_preorder.1 hi).lt_size

/-- The loop from the roots ends for every forest: the cycles hang under no root. -/
theorem emit_roots (hr : f.size ≤ rounds) : f.emit id rounds f.roots = some f.preorder := by
  have hw : f.roots.flatMap (f.walkBy id f.size) = f.preorder :=
    List.flatMap_congr fun i _ => walkBy_id
  have hid : ∀ l : List Nat, ∀ c ∈ id l, c ∈ l := fun _ _ hc => hc
  rw [← hw]
  refine emit_eq hid f.roots (fun i hi => (Height.zero hi).shallow)
    (fun i hi => (List.getElem?_eq_some_iff.1 (mem_roots.1 hi)).1) ?_
  rw [hw]
  exact Nat.le_trans length_preorder_le hr

/-- Every level below a node on the stack takes a round of its own. -/
theorem lt_of_emit (hmem : ∀ l, ∀ c ∈ l, c ∈ arrange l) (h : f.emit arrange rounds stack = some out)
    (hi : i ∈ stack) (hu : f.up n j = some i) : n < rounds := by
  induction rounds generalizing stack out i j n with
  | zero =>
    cases stack with
    | nil => cases hi
    | cons => cases h
  | succ rounds ih =>
    cases stack with
    | nil => cases hi
    | cons top stack =>
      rw [emit] at h
      split at h
      next =>
        obtain ⟨rest, hrest, -⟩ := Option.map_eq_some_iff.1 h
        rcases List.mem_cons.1 hi with rfl | hi
        · cases n with
          | zero => omega
          | succ n =>
            rw [up_add] at hu
            obtain ⟨c, hc, hp⟩ := Option.bind_eq_some_iff.1 hu
            rw [up_one] at hp
            have := ih hrest (List.mem_append_left _ (hmem _ c (mem_children.2 hp))) hc
            omega
        · have := ih hrest (List.mem_append_right _ hi) hu
          omega
      next => cases h

/-- **On a cycle the loop never ends**, however many rounds it is given. -/
theorem emit_eq_none_of_cycle (hmem : ∀ l, ∀ c ∈ l, c ∈ arrange l) (h : f.up (n + 1) i = some i) :
    f.emit arrange rounds [i] = none := by
  cases he : f.emit arrange rounds [i] with
  | none => rfl
  | some out =>
    have hlt := lt_of_emit hmem he (List.mem_singleton.2 rfl) (up_mul_of_cycle h rounds)
    have hle := Nat.le_mul_of_pos_right rounds (Nat.succ_pos n)
    exact absurd hlt (Nat.not_lt_of_le hle)

/-- Every parent stands before its children. -/
def ParentsFirst (f : Forest) : Prop := ∀ i j, f.parent? j = some i → i < j

namespace ParentsFirst

variable (h : f.ParentsFirst)
include h

theorem add_le_of_up (hu : f.up n j = some i) : i + n ≤ j := by
  induction n generalizing j with
  | zero =>
    cases hu
    exact Nat.le_refl _
  | succ n ih =>
    rw [up] at hu
    obtain ⟨p, hp, hu⟩ := Option.bind_eq_some_iff.1 hu
    have := h p j hp
    have := ih hu
    omega

/-- The parents become smaller, so they come to an end. -/
theorem exists_endsAfter (hi : i < f.size) : ∃ n, f.EndsAfter i n := by
  induction i using Nat.strongRecOn with
  | _ i ih =>
    cases hp : f.parent? i with
    | none => exact ⟨0, i, hi, hp, rfl⟩
    | some p =>
      have hlt := h p i hp
      obtain ⟨n, r, hr, hnone, hu⟩ := ih p hlt (Nat.lt_trans hlt hi)
      exact ⟨n + 1, r, hr, hnone, by rw [up, hp, Option.bind_some, hu]⟩

theorem shallow (hi : i < f.size) : f.Shallow f.size i := by
  intro j hu
  have hj := lt_size_of_up hu hi
  have := h.add_le_of_up hu
  omega

theorem nodup_walk : (f.walk n i).Nodup := by
  induction n generalizing i with
  | zero => exact List.nodup_nil
  | succ n ih =>
    rw [walk, List.nodup_cons, List.nodup_flatMap]
    refine ⟨?_, fun c _ => ih, (nodup_nodesAt (.under i)).imp_of_mem ?_⟩
    · intro hmem
      obtain ⟨c, hc, hw⟩ := List.mem_flatMap.1 hmem
      obtain ⟨k, -, hu⟩ := mem_walk.1 hw
      have := h i c (mem_children.1 hc)
      have := h.add_le_of_up hu
      omega
    · -- A node below two siblings would put one of them below the other, and so below its parent.
      have hbelow : ∀ {a b : Nat}, a ∈ f.children i → b ∈ f.children i → a ≠ b → ∀ {x p d : Nat},
          f.up p x = some a → f.up (p + d) x ≠ some b := by
        intro a b ha hb hne x p d hp hq
        rw [up_add, hp, Option.bind_some] at hq
        cases d with
        | zero => exact hne (Option.some.inj hq)
        | succ d =>
          rw [up, mem_children.1 ha, Option.bind_some] at hq
          have := h.add_le_of_up hq
          have := h i b (mem_children.1 hb)
          omega
      intro a b ha hb hne x hxa hxb
      obtain ⟨p, -, hp⟩ := mem_walk.1 hxa
      obtain ⟨q, -, hq⟩ := mem_walk.1 hxb
      rcases Nat.le_total p q with hle | hle
      · obtain ⟨d, rfl⟩ := Nat.exists_eq_add_of_le hle
        exact hbelow ha hb hne hp hq
      · obtain ⟨d, rfl⟩ := Nat.exists_eq_add_of_le hle
        exact hbelow hb ha hne.symm hq hp

theorem subtreeSize_le (hi : i < f.size) : i + f.subtreeSize i ≤ f.size := by
  have hsub : f.subtree i ⊆ List.range' i (f.size - i) := by
    intro x hx
    obtain ⟨k, -, hu⟩ := mem_walk.1 hx
    have hx := lt_size_of_up hu hi
    have := h.add_le_of_up hu
    rw [List.mem_range'_1]
    omega
  have hle : f.subtreeSize i ≤ _ := List.Nodup.length_le_of_subset h.nodup_walk hsub
  rw [List.length_range'] at hle
  omega

end ParentsFirst

theorem subtreeSize_pos (hi : i < f.size) : 0 < f.subtreeSize i :=
  List.length_pos_of_mem (mem_walk.2 ⟨0, by omega, rfl⟩)

end FormProgram.Forest
