/-
The blocks that are visible from a block, told in three ways: as the code finds them, walking the chain and at
each level the siblings; by recursion on the enumerator, what is visible from it and then the block's own row of
siblings; and flat, as the earlier blocks that stand at the top level or repeat directly under an ancestor.

The row of a level stops at the chain's member, the flat description at the block itself. They agree because in a
canonical list no sibling stands between a node and what repeats under it (`place_ne_of_between`).
-/
import FormProgram.Proofs.Availability

set_option autoImplicit false

namespace FormProgram

namespace Forest

variable {f : Forest} {i j s n : Nat}

namespace InPreorder

variable (h : f.InPreorder)
include h

theorem mem_chain (hi : i < f.size) : s ∈ f.chain i ↔ ∃ k, f.up k i = some s := by
  rw [chain, mem_climb]
  constructor
  · rintro ⟨k, -, hu⟩
    exact ⟨k, hu⟩
  · rintro ⟨k, hu⟩
    have := h.first.add_le_of_up hu
    exact ⟨k, by omega, hu⟩

/-- The row of a node by places: the nodes at its place, up to the node. -/
theorem row_eq_filter (hi : i < f.size) :
    upTo i (f.siblings i) = (List.range (i + 1)).filter fun j => f.places[j]? == f.places[i]? := by
  rw [h.row_eq hi, List.range_succ, List.filter_append]
  simp

/-- Visible from a node are at each level of its chain the nodes at the place of the chain's member, up to it. -/
theorem mem_visibleFrom (hi : i < f.size) :
    j ∈ f.visibleFrom i ↔ ∃ k s, f.up k i = some s ∧ j ≤ s ∧ f.places[j]? = f.places[s]? := by
  have hrow : ∀ s, (∃ k, f.up k i = some s) →
      (j ∈ upTo s (f.siblings s) ↔ j ≤ s ∧ f.places[j]? = f.places[s]?) := by
    rintro s ⟨k, hu⟩
    have := h.first.add_le_of_up hu
    rw [h.row_eq_filter (by omega), List.mem_filter, List.mem_range, Nat.lt_succ_iff, beq_iff_eq]
  rw [visibleFrom, List.mem_flatMap]
  constructor
  · rintro ⟨s, hs, hj⟩
    obtain ⟨k, hu⟩ := (h.mem_chain hi).1 hs
    exact ⟨k, s, hu, (hrow s ⟨k, hu⟩).1 hj⟩
  · rintro ⟨k, s, hu, hj⟩
    exact ⟨s, (h.mem_chain hi).2 ⟨k, hu⟩, (hrow s ⟨k, hu⟩).2 hj⟩

/-- No node is visible twice, and they come in list order: the row of a node stands behind its parent. -/
theorem visibleFrom_ascending (hi : i < f.size) : (f.visibleFrom i).Pairwise (· < ·) := by
  induction i using Nat.strongRecOn with
  | _ i ih =>
    rw [h.first.visibleFrom_eq hi, h.row_eq_filter hi]
    have hrow : ((List.range (i + 1)).filter fun j => f.places[j]? == f.places[i]?).Pairwise (· < ·) :=
      List.pairwise_lt_range.filter _
    cases hp : f.parent? i with
    | none => exact hrow
    | some p =>
      have hlt : p < i := h.first p i hp
      refine List.pairwise_append.2 ⟨ih p hlt (by omega), hrow, fun a ha c hc => ?_⟩
      have hap : a ≤ p := h.le_of_mem_visibleFrom (by omega) ha
      have hsame : f.places[c]? = f.places[i]? := eq_of_beq (List.mem_filter.1 hc).2
      have hpc : p < c := h.first p c ((parent?_eq_of_place hsame).trans hp)
      omega

theorem getLast?_visibleFrom (hi : i < f.size) : (f.visibleFrom i).getLast? = some i := by
  rw [h.first.visibleFrom_eq hi, h.row_eq hi, ← List.append_assoc, List.getLast?_concat]

end InPreorder

end Forest

/-- The positions of the siblings of the block at `i`, up to and including it: the blocks that name the same
enumerator, or none as it does. -/
def siblingsUpTo (blocks : List Block) (i : Nat) : List Nat :=
  (List.range (i + 1)).filter fun j => blocks[j]?.map (·.enumerator) == blocks[i]?.map (·.enumerator)

/-- The block at `j` stands at the top level, or repeats directly under an enumerator that the block at `i`
repeats under. -/
def InView (blocks : List Block) (i j : Nat) : Prop :=
  (∃ c, blocks[j]? = some c ∧ c.enumerator = none) ∨ ∃ m, RepeatsUnder blocks i m ∧ RepeatsAt blocks j m

variable {blocks : List Block} {b c : Block} {i j n : Nat}

theorem repeatsUnder_of_up (h : (Forest.ofBlocks blocks).up (n + 1) i = some j) : RepeatsUnder blocks i j := by
  induction n generalizing i with
  | zero =>
    rw [Forest.up_one] at h
    exact .direct (repeatsAt_of_parent? h)
  | succ n ih =>
    obtain ⟨p, hp, hu⟩ := Option.bind_eq_some_iff.1 h
    exact .through (repeatsAt_of_parent? hp) (ih hu)

namespace LaidOut

variable (h : LaidOut blocks) (hd : DistinctIds blocks)
include h hd

theorem repeatsUnder_iff_up : RepeatsUnder blocks i j ↔ ∃ n, (Forest.ofBlocks blocks).up (n + 1) i = some j :=
  ⟨h.exists_up_of_repeatsUnder hd, fun ⟨_, hn⟩ => repeatsUnder_of_up hn⟩

theorem parent?_iff : (Forest.ofBlocks blocks).parent? i = some j ↔ RepeatsAt blocks i j :=
  ⟨repeatsAt_of_parent?, h.parent?_of_repeatsAt hd⟩

theorem place_eq_iff (hb : blocks[i]? = some b) (hc : blocks[j]? = some c) :
    (Forest.ofBlocks blocks).places[j]? = (Forest.ofBlocks blocks).places[i]? ↔ c.enumerator = b.enumerator := by
  have hroot : ∀ {k : Nat} {x : Block}, blocks[k]? = some x →
      ((Forest.ofBlocks blocks).places[k]? = some .root ↔ x.enumerator = none) := by
    intro k x hx
    rw [← Forest.mem_roots, mem_roots_ofBlocks]
    simp [hx]
  cases he : b.enumerator with
  | none => rw [(hroot hb).2 he, hroot hc]
  | some e =>
    obtain ⟨p, hp⟩ := h.parent?_of_enumerator hd hb he
    obtain ⟨b', d, hb', hdp, hed⟩ := repeatsAt_of_parent? hp
    rw [hb] at hb'
    cases hb'
    rw [Forest.parent?_eq_some.1 hp, ← Forest.parent?_eq_some, h.parent?_iff hd, ← he, hed]
    constructor
    · rintro ⟨c', d', hc', hdp', hec⟩
      rw [hc] at hc'
      rw [hdp] at hdp'
      cases hc'
      cases hdp'
      exact hec
    · intro hec
      exact ⟨c, d, hc, hdp, hec⟩

theorem row_eq_siblingsUpTo (hf : (Forest.ofBlocks blocks).InPreorder) (hi : i < blocks.length) :
    upTo i ((Forest.ofBlocks blocks).siblings i) = siblingsUpTo blocks i := by
  rw [hf.row_eq_filter (by rwa [size_ofBlocks]), siblingsUpTo]
  refine List.filter_congr fun j hj => ?_
  have hj : j < blocks.length := by
    have := List.mem_range.1 hj
    omega
  have hplace := h.place_eq_iff hd (List.getElem?_eq_getElem hi) (List.getElem?_eq_getElem hj)
  rw [Bool.eq_iff_iff, beq_iff_eq, beq_iff_eq, hplace]
  simp [hi, hj]

/-- **The flat description**: visible from a block are the blocks up to it that stand at the top level or repeat
directly under one of its ancestors. -/
theorem mem_visibleFrom_iff (hf : (Forest.ofBlocks blocks).InPreorder) (hi : i < blocks.length) :
    j ∈ (Forest.ofBlocks blocks).visibleFrom i ↔ j ≤ i ∧ InView blocks i j := by
  have hsize : i < (Forest.ofBlocks blocks).size := by rwa [size_ofBlocks]
  -- A level of the chain goes no further than its member, but neither does it within the block.
  have hlevel : ∀ k s, (Forest.ofBlocks blocks).up k i = some s → j ≤ i →
      (Forest.ofBlocks blocks).places[j]? = (Forest.ofBlocks blocks).places[s]? →
      j ∈ (Forest.ofBlocks blocks).visibleFrom i := by
    intro k s hu hji hplace
    refine (hf.mem_visibleFrom hsize).2 ⟨k, s, hu, ?_, hplace⟩
    by_contra hlt
    exact hf.place_ne_of_between hsize hu (by omega) hji hplace
  constructor
  · intro hj
    obtain ⟨k, s, hu, hjs, hplace⟩ := (hf.mem_visibleFrom hsize).1 hj
    have hle := hf.first.add_le_of_up hu
    refine ⟨by omega, ?_⟩
    have hc : blocks[j]? = some blocks[j] := List.getElem?_eq_getElem (by omega)
    cases he : (blocks[j]).enumerator with
    | none => exact .inl ⟨_, hc, he⟩
    | some e =>
      obtain ⟨m, hm⟩ := h.parent?_of_enumerator hd hc he
      have hsm : (Forest.ofBlocks blocks).parent? s = some m := (Forest.parent?_eq_of_place hplace).symm.trans hm
      have hup : (Forest.ofBlocks blocks).up (k + 1) i = some m := by
        rw [Forest.up_add, hu, Option.bind_some, Forest.up_one, hsm]
      exact .inr ⟨m, repeatsUnder_of_up hup, repeatsAt_of_parent? hm⟩
  · rintro ⟨hji, hview⟩
    rcases hview with ⟨c, hc, he⟩ | ⟨m, hunder, hat⟩
    · obtain ⟨k, r, hr, hu⟩ := h.rooted hd hf.first hi
      refine hlevel k r hu hji ?_
      rw [Forest.mem_roots.1 hr]
      exact Forest.mem_roots.1 (mem_roots_ofBlocks.2 ⟨c, hc, he⟩)
    · obtain ⟨k, hu⟩ := (h.repeatsUnder_iff_up hd).1 hunder
      rw [Forest.up_add] at hu
      obtain ⟨s, hs, hsm⟩ := Option.bind_eq_some_iff.1 hu
      rw [Forest.up_one] at hsm
      refine hlevel k s hs hji ?_
      rw [Forest.parent?_eq_some.1 hsm, Forest.parent?_eq_some.1 ((h.parent?_iff hd).2 hat)]

end LaidOut

/-- **What is visible from a block.** In a canonical list with distinct ids it is what is visible from the block's
enumerator, nothing at the top level, and then the siblings up to the block; the positions ascend to that of the
block, and they are all those, up to the block, of blocks that stand at the top level or repeat directly under one of
its ancestors. The questions available through the block are the readable ones of these blocks, in this order. -/
theorem visible_blocks (blocks : List Block) (hc : isCanonical blocks = true) (hd : DistinctIds blocks)
    (i : Nat) (b : Block) (hb : blocks[i]? = some b) :
    let view := (Forest.ofBlocks blocks).visibleFrom
    (b.enumerator = none → view i = siblingsUpTo blocks i) ∧
    (∀ p, RepeatsAt blocks i p → view i = view p ++ siblingsUpTo blocks i) ∧
    (b.enumerator = none ∨ ∃ p, RepeatsAt blocks i p) ∧
    (view i).Pairwise (· < ·) ∧ (view i).getLast? = some i ∧
    (∀ j, j ∈ view i ↔ j ≤ i ∧ InView blocks i j) ∧
    availableThrough blocks b.id =
      some ((pick blocks (view i)).flatMap fun c => (c.questions.filter Usage.isReadable).map (·.question)) := by
  intro view
  have hf := inPreorder hc hd
  have h : LaidOut blocks := (isCanonical_iff_laidOut hd).1 hc
  have hi : i < blocks.length := (List.getElem?_eq_some_iff.1 hb).1
  have hsize : i < (Forest.ofBlocks blocks).size := by rwa [size_ofBlocks]
  have hview : view i = ((Forest.ofBlocks blocks).parent? i).elim [] view ++ siblingsUpTo blocks i := by
    rw [← h.row_eq_siblingsUpTo hd hf hi]
    exact hf.first.visibleFrom_eq hsize
  refine ⟨fun he => ?_, fun p hp => ?_, ?_, hf.visibleFrom_ascending hsize, hf.getLast?_visibleFrom hsize,
    fun j => h.mem_visibleFrom_iff hd hf hi, hd.availableThrough_eq hb⟩
  · rw [hview, Forest.parent?_of_mem_roots (mem_roots_ofBlocks.2 ⟨b, hb, he⟩)]
    rfl
  · rw [hview, (h.parent?_iff hd).2 hp]
    rfl
  · cases he : b.enumerator with
    | none => exact .inl rfl
    | some e =>
      obtain ⟨p, hp⟩ := h.parent?_of_enumerator hd hb he
      exact .inr ⟨p, repeatsAt_of_parent? hp⟩

/-- The members of a household, for each the jobs, for each job the employer, and for each member the income. -/
def earnings : List Block :=
  let asking (q : QuestionId) (name : String) : Usage := { question := { id := q, name, type := .text } }
  [{ id := 1, name := "members", isEnumerator := true, questions := [asking 10 "name"] },
    { id := 2, name := "jobs", enumerator := some 1, isEnumerator := true, questions := [asking 20 "job"] },
    { id := 3, name := "employer", enumerator := some 2, questions := [asking 30 "employer"] },
    { id := 4, name := "income", enumerator := some 1, questions := [asking 40 "income"] }]

/-- From the income one sees the members and the jobs, and not the employer of each job. -/
theorem visible_blocks_earnings :
    isCanonical earnings = true ∧ DistinctIds earnings ∧
      (Forest.ofBlocks earnings).visibleFrom 3 = [0, 1, 3] ∧ siblingsUpTo earnings 3 = [1, 3] ∧
      InView earnings 3 1 ∧ ¬ InView earnings 3 2 ∧
      (availableThrough earnings 4).map (·.map (·.name)) = some ["name", "job", "income"] := by
  have hc : isCanonical earnings = true := by decide
  have hd : DistinctIds earnings := by decide
  have hview : (Forest.ofBlocks earnings).visibleFrom 3 = [0, 1, 3] := by decide
  obtain ⟨-, -, -, -, -, hflat, hthrough⟩ := visible_blocks earnings hc hd 3 earnings[3] rfl
  refine ⟨hc, hd, hview, by decide, ?_, fun hemployer => ?_, ?_⟩
  · exact ((hflat 1).1 (by rw [hview]; decide)).2
  · have := (hflat 2).2 ⟨by decide, hemployer⟩
    rw [hview] at this
    exact absurd this (by decide)
  · rw [show availableThrough earnings 4 = _ from hthrough, hview]
    rfl

end FormProgram
