/-
The chain of enumerators above a block, for lists of any kind.

The climb is cut off by the number of nodes, not by what it has met. `ascend` is the climb as a loop with that
guard: a parent is added as long as the chain is no longer than the forest is large. A chain that ends has no node
twice, so the guard never stops it; one that does not end meets a node again (`ends_or_meetsCycle`), and the guard
stops it one node after it could have had every node once.
-/
import FormProgram.Proofs.Subtree
import Mathlib.Data.List.Chain

set_option autoImplicit false

namespace FormProgram

namespace Forest

variable {f : Forest} {i j k n r s : Nat}

/-- The climb with the chain found so far, its outermost node being `i`. -/
def ascend (f : Forest) (chain : List Nat) (i : Nat) : List Nat :=
  match f.parent? i with
  | none => chain
  | some p => if f.size < chain.length then chain else f.ascend (p :: chain) p
termination_by f.size + 1 - chain.length

/-- What the guard leaves to be climbed. -/
theorem ascend_eq_climb {below : List Nat} (h : below.length + n = f.size) :
    f.ascend (i :: below) i = f.climb n i ++ below := by
  induction n generalizing i below with
  | zero =>
    have hfull : f.size < (i :: below).length := by rw [List.length_cons]; omega
    rw [ascend]
    cases f.parent? i with
    | none => rfl
    | some p => exact if_pos hfull
  | succ n ih =>
    have hroom : ¬ f.size < (i :: below).length := by rw [List.length_cons]; omega
    have hnext : (i :: below).length + n = f.size := by rw [List.length_cons]; omega
    rw [ascend, climb]
    cases f.parent? i with
    | none => rfl
    | some p =>
      dsimp only
      rw [if_neg hroom, ih hnext, List.append_assoc, List.singleton_append]

theorem ascend_eq_chain : f.ascend [i] i = f.chain i := by
  rw [ascend_eq_climb (Nat.zero_add f.size), List.append_nil, chain]

/-- Every node is the parent of the next. -/
def Linked (f : Forest) (nodes : List Nat) : Prop := nodes.IsChain fun p s => f.parent? s = some p

theorem getLast?_climb : (f.climb n i).getLast? = some i := by
  cases n with
  | zero => rfl
  | succ n =>
    rw [climb]
    cases f.parent? i with
    | none => rfl
    | some p => exact List.getLast?_concat

theorem linked_climb : f.Linked (f.climb n i) := by
  induction n generalizing i with
  | zero => exact .singleton i
  | succ n ih =>
    rw [climb]
    cases hp : f.parent? i with
    | none => exact .singleton i
    | some p =>
      refine List.isChain_append.2 ⟨ih, .singleton i, ?_⟩
      rintro _ hs _ hi
      rw [getLast?_climb] at hs
      cases hs
      cases hi
      exact hp

theorem head?_climb (h : f.up n i = some r) : (f.climb n i).head? = some r := by
  induction n generalizing i with
  | zero => exact h
  | succ n ih =>
    obtain ⟨p, hp, hu⟩ := Option.bind_eq_some_iff.1 h
    simp only [climb, hp, List.head?_append, ih hu, Option.some_or]

theorem MeetsCycle.length_chain (h : f.MeetsCycle i) : (f.chain i).length = f.size + 1 := by
  obtain ⟨j, hj⟩ := h.exists_up f.size
  exact length_climb hj

/-- Every parent is a node. -/
def Closed (f : Forest) : Prop := ∀ i j, f.parent? j = some i → i < f.size

namespace Closed

variable (h : f.Closed)
include h

theorem up_lt_size (hi : i < f.size) (hu : f.up k i = some j) : j < f.size := by
  induction k generalizing i with
  | zero =>
    cases hu
    exact hi
  | succ k ih =>
    obtain ⟨p, hp, hu⟩ := Option.bind_eq_some_iff.1 hu
    exact ih (h p i hp) hu

theorem lt_size_of_mem_chain (hi : i < f.size) (hs : s ∈ f.chain i) : s < f.size := by
  obtain ⟨k, -, hu⟩ := mem_climb.1 hs
  exact h.up_lt_size hi hu

/-- A chain without end is longer than there are nodes, so it has one of them twice. -/
theorem ends_or_meetsCycle (hi : i < f.size) : (∃ n, f.EndsAfter i n) ∨ f.MeetsCycle i := by
  by_contra! hneither
  obtain ⟨hendless, hc⟩ := hneither
  have hup : ∀ n, ∃ j, f.up n i = some j := by
    intro n
    induction n with
    | zero => exact ⟨i, rfl⟩
    | succ n ih =>
      obtain ⟨j, hj⟩ := ih
      rw [up_add, hj, Option.bind_some, up_one]
      refine Option.ne_none_iff_exists'.1 fun hnone => ?_
      exact hendless n ⟨j, h.up_lt_size hi hj, hnone, hj⟩
  obtain ⟨j, hj⟩ := hup f.size
  have hle := length_le_size (nodup_climb hc) fun s hs => h.lt_size_of_mem_chain hi hs
  rw [length_climb hj] at hle
  exact absurd hle (Nat.not_succ_le_self _)

end Closed

theorem closed_ofBlocks {l : List Block} : (ofBlocks l).Closed := by
  intro i j hp
  obtain ⟨-, -, c, -, hc, -⟩ := parent?_ofBlocks.1 hp
  rw [size_ofBlocks]
  exact (List.getElem?_eq_some_iff.1 hc).1

end Forest

/-- **Chains are complete, or cut off on a cycle.** The loop with its guard gives the chain, which ends with the
block itself, each node being the parent of the next. Following the parents either comes to an end or goes round. If
it ends, the chain starts where there is no parent, repeats nothing and is no longer than the list; if it goes
round, the chain has one node more than there are blocks. -/
theorem chains_complete (l : List Block) (i : Nat) (hi : i < l.length) :
    (Forest.ofBlocks l).ascend [i] i = (Forest.ofBlocks l).chain i ∧
    ((Forest.ofBlocks l).chain i).getLast? = some i ∧
    (Forest.ofBlocks l).Linked ((Forest.ofBlocks l).chain i) ∧
    (∀ s ∈ (Forest.ofBlocks l).chain i, s < l.length) ∧
    ((∃ n, (Forest.ofBlocks l).EndsAfter i n) ∨ (Forest.ofBlocks l).MeetsCycle i) ∧
    ((∃ n, (Forest.ofBlocks l).EndsAfter i n) →
      (∃ r, ((Forest.ofBlocks l).chain i).head? = some r ∧ (Forest.ofBlocks l).parent? r = none) ∧
      ((Forest.ofBlocks l).chain i).Nodup ∧ ((Forest.ofBlocks l).chain i).length ≤ l.length) ∧
    ((Forest.ofBlocks l).MeetsCycle i → ((Forest.ofBlocks l).chain i).length = l.length + 1) := by
  rw [← size_ofBlocks] at hi ⊢
  refine ⟨Forest.ascend_eq_chain, Forest.getLast?_climb, Forest.linked_climb,
    fun s hs => Forest.closed_ofBlocks.lt_size_of_mem_chain hi hs, Forest.closed_ofBlocks.ends_or_meetsCycle hi,
    ?_, Forest.MeetsCycle.length_chain⟩
  rintro ⟨n, h⟩
  obtain ⟨r, -, hnone, hu⟩ := id h
  rw [h.chain_eq]
  refine ⟨⟨r, Forest.head?_climb hu, hnone⟩, Forest.nodup_climb h.not_meetsCycle, ?_⟩
  rw [Forest.length_climb hu]
  exact h.lt_size

/-- Three blocks, each under the one behind it, the last under a block that is missing: the chain of the first has
them all. Two that go round, and a third under one of them: its chain has four nodes. -/
theorem chains_complete_tangled :
    let row : List Block :=
      [{ id := 3, name := "employers", enumerator := some 2 },
        { id := 2, name := "jobs", enumerator := some 1, isEnumerator := true },
        { id := 1, name := "members", enumerator := some 9, isEnumerator := true }]
    let circle : List Block :=
      [{ id := 8, name := "these", enumerator := some 9, isEnumerator := true },
        { id := 9, name := "those", enumerator := some 8, isEnumerator := true },
        { id := 10, name := "more", enumerator := some 8 }]
    0 < row.length ∧ (Forest.ofBlocks row).EndsAfter 0 2 ∧ (Forest.ofBlocks row).ascend [0] 0 = [2, 1, 0] ∧
      ((Forest.ofBlocks row).chain 0).Nodup ∧ ((Forest.ofBlocks row).chain 0).length ≤ 3 ∧
      2 < circle.length ∧ (Forest.ofBlocks circle).MeetsCycle 2 ∧
      (Forest.ofBlocks circle).ascend [2] 2 = [0, 1, 0, 2] ∧ ((Forest.ofBlocks circle).chain 2).length = 4 := by
  intro row circle
  have hends : (Forest.ofBlocks row).EndsAfter 0 2 := ⟨2, by decide, by decide, by decide⟩
  have hround : (Forest.ofBlocks circle).MeetsCycle 2 := ⟨1, 0, 1, by decide, by decide⟩
  obtain ⟨hrow, -, -, -, -, hend, -⟩ := chains_complete row 0 (by decide)
  obtain ⟨hcircle, -, -, -, -, -, hcycle⟩ := chains_complete circle 2 (by decide)
  obtain ⟨-, hnodup, hlength⟩ := hend ⟨2, hends⟩
  refine ⟨by decide, hends, ?_, hnodup, hlength, by decide, hround, ?_, hcycle hround⟩
  · rw [hrow]
    decide
  · rw [hcircle]
    decide

end FormProgram
