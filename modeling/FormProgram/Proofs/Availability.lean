/-
What a predicate may read has been asked before.

In a canonical list the nodes of the forest are numbered in preorder (`inPreorder`), so the node just before
another one is its parent or lies below its nearest earlier sibling. What is visible from a node goes along its
chain and never beyond the node, and what is visible from the next node is visible from the node already, the
next node apart (`visibleFrom_succ`). Read as questions this says that a visibility predicate finds its
questions in earlier blocks only, and does not lose any that the chain and the siblings of its block give.
-/
import FormProgram.Availability
import FormProgram.Proofs.InRange
import FormProgram.Proofs.LateReads
import FormProgram.Proofs.Layout

set_option autoImplicit false

namespace FormProgram

/-! ## Rows of siblings -/

theorem upTo_append {x : Nat} {ys zs : List Nat} (hx : x ∉ ys) : upTo x (ys ++ x :: zs) = ys ++ [x] := by
  induction ys with
  | nil => simp [upTo]
  | cons y ys ih =>
    simp only [List.mem_cons, not_or] at hx
    rw [List.cons_append, upTo, if_neg (Ne.symm hx.1), ih hx.2, List.cons_append]

/-- The positions up to `x` that pass, and then `x`. -/
theorem upTo_filter_range {n x : Nat} {pass : Nat → Bool} (hx : x < n) (hp : pass x = true) :
    upTo x ((List.range n).filter pass) = (List.range x).filter pass ++ [x] := by
  obtain ⟨m, rfl⟩ := Nat.exists_eq_add_of_lt hx
  have hsplit : List.range (x + m + 1) = List.range x ++ x :: (List.range' (x + 1) m) := by
    rw [List.range_eq_range', List.range_eq_range', Nat.add_assoc, ← List.range'_append_1, Nat.zero_add,
      List.range'_succ]
  rw [hsplit, List.filter_append, List.filter_cons_of_pos hp]
  refine upTo_append fun hmem => ?_
  have := List.mem_range.1 (List.mem_filter.1 hmem).1
  omega

/-- Positions that do not pass make no difference. -/
theorem filter_range_eq {m n : Nat} {pass : Nat → Bool} (hmn : m ≤ n)
    (h : ∀ j, m ≤ j → j < n → pass j = false) : (List.range n).filter pass = (List.range m).filter pass := by
  obtain ⟨d, rfl⟩ := Nat.exists_eq_add_of_le hmn
  have hnone : (List.range' m d).filter pass = [] := by
    rw [List.filter_eq_nil_iff]
    intro j hj
    rw [List.mem_range'_1] at hj
    simp [h j hj.1 hj.2]
  rw [List.range_eq_range', List.range_eq_range', ← List.range'_append_1, List.filter_append, Nat.zero_add,
    hnone, List.append_nil]

namespace Forest

variable {f : Forest} {i j s k n : Nat}

theorem ParentsFirst.parent?_zero (h : f.ParentsFirst) : f.parent? 0 = none := by
  cases hp : f.parent? 0 with
  | none => rfl
  | some p => exact absurd (h p 0 hp) (Nat.not_lt_zero p)

/-- What is visible from a node: all that is visible from its parent, and then its row of siblings. -/
theorem ParentsFirst.visibleFrom_eq (h : f.ParentsFirst) (hi : i < f.size) :
    f.visibleFrom i = (f.parent? i).elim [] f.visibleFrom ++ upTo i (f.siblings i) := by
  obtain ⟨n, hn⟩ := h.exists_endsAfter hi
  rw [visibleFrom, hn.chain_step, List.flatMap_append, List.flatMap_singleton]
  cases f.parent? i <;> rfl

/-! ## Nodes in preorder -/

/-- The nodes are numbered in preorder: none is a stray, parents come first, and the node before another one is
its parent or stands at or below a sibling of it. -/
structure InPreorder (f : Forest) : Prop where
  placed : ∀ i : Nat, f.places[i]? ≠ some Place.stray
  first : f.ParentsFirst
  next : ∀ i : Nat, i + 1 < f.size →
    f.parent? (i + 1) = some i ∨ ∃ k s : Nat, f.up k i = some s ∧ f.places[s]? = f.places[i + 1]?

theorem parent?_eq_of_place (h : f.places[i]? = f.places[j]?) : f.parent? i = f.parent? j := by
  rw [parent?, parent?, h]

theorem lt_size_of_place (h : f.places[s]? = f.places[i]?) (hi : i < f.size) : s < f.size := by
  have hsome := List.getElem?_eq_getElem (l := f.places) hi
  exact (List.getElem?_eq_some_iff.1 (h.trans hsome)).1

namespace InPreorder

variable (h : f.InPreorder)
include h

theorem siblings_eq (hi : i < f.size) :
    f.siblings i = (List.range f.size).filter fun j => f.places[j]? == f.places[i]? := by
  have hplace := List.getElem?_eq_getElem (l := f.places) hi
  have hstray := h.placed i
  rw [hplace]
  rw [hplace] at hstray
  rw [siblings, parent?, hplace]
  cases hp : f.places[i] with
  | root => exact nodesAt_eq .root
  | under p => exact nodesAt_eq (.under p)
  | stray => simp [hp] at hstray

/-- The row of a node: its earlier siblings and the node. -/
theorem row_eq (hi : i < f.size) :
    upTo i (f.siblings i) = ((List.range i).filter fun j => f.places[j]? == f.places[i]?) ++ [i] := by
  rw [h.siblings_eq hi]
  exact upTo_filter_range hi (beq_self_eq_true _)

/-- Nothing that stands behind a node is visible from it. -/
theorem le_of_mem_visibleFrom (hi : i < f.size) (hj : j ∈ f.visibleFrom i) : j ≤ i := by
  induction i using Nat.strongRecOn with
  | _ i ih =>
    rw [h.first.visibleFrom_eq hi, h.row_eq hi] at hj
    simp only [List.mem_append, List.mem_filter, List.mem_range, List.mem_singleton] at hj
    rcases hj with hj | ⟨hj, -⟩ | rfl
    · cases hp : f.parent? i with
      | none => simp [hp] at hj
      | some p =>
        have hlt := h.first p i hp
        simp only [hp, Option.elim_some] at hj
        have := ih p hlt (by omega) hj
        omega
    · omega
    · exact Nat.le_refl _

/-- What is visible from an ancestor comes first in what is visible from a node. -/
theorem visibleFrom_prefix_of_up (hi : i < f.size) (hu : f.up k i = some s) :
    f.visibleFrom s <+: f.visibleFrom i := by
  induction k generalizing i with
  | zero =>
    cases hu
    exact List.prefix_refl _
  | succ k ih =>
    obtain ⟨p, hp, hu⟩ := Option.bind_eq_some_iff.1 hu
    have hlt := h.first p i hp
    have hparent : f.visibleFrom p <+: f.visibleFrom i := by
      rw [h.first.visibleFrom_eq hi, hp, Option.elim_some]
      exact List.prefix_append ..
    exact (ih (by omega) hu).trans hparent

/-- A node between another one and its descendant is a descendant too. -/
theorem exists_up_between (hi : i < f.size) (hu : f.up k i = some s) (hsj : s ≤ j) (hji : j ≤ i) :
    ∃ n, f.up n j = some s := by
  induction i generalizing k with
  | zero =>
    obtain rfl : j = 0 := Nat.le_zero.1 hji
    exact ⟨k, hu⟩
  | succ i ih =>
    by_cases hj : j = i + 1
    · exact ⟨k, hj ▸ hu⟩
    -- The descendant is another node than `s`, so its parent is at or below `s`; so is the node before it.
    cases k with
    | zero =>
      cases hu
      omega
    | succ k =>
      obtain ⟨p, hp, hu⟩ := Option.bind_eq_some_iff.1 hu
      rcases h.next i hi with hnext | ⟨m, c, hm, hc⟩
      · rw [hp] at hnext
        cases hnext
        exact ih (by omega) hu (by omega)
      · have hcp : f.parent? c = some p := (parent?_eq_of_place hc).trans hp
        have hup : f.up (m + (k + 1)) i = some s := by
          rw [up_add, hm, Option.bind_some, up, hcp, Option.bind_some, hu]
        exact ih (by omega) hup (by omega)

/-- No sibling stands between a node and its descendant. -/
theorem place_ne_of_between (hi : i < f.size) (hu : f.up k i = some s) (hsj : s < j) (hji : j ≤ i) :
    f.places[j]? ≠ f.places[s]? := by
  intro hplace
  obtain ⟨n, hn⟩ := h.exists_up_between hi hu (Nat.le_of_lt hsj) hji
  cases n with
  | zero =>
    cases hn
    omega
  | succ n =>
    obtain ⟨p, hp, hn⟩ := Option.bind_eq_some_iff.1 hn
    have hle := h.first.add_le_of_up hn
    have hlt := h.first p s ((parent?_eq_of_place hplace).symm.trans hp)
    omega

/-- **From one node to the next**: what is visible from the next node, that node apart, comes first in what is
visible from this one. -/
theorem visibleFrom_succ (hi : i + 1 < f.size) :
    ∃ front, f.visibleFrom (i + 1) = front ++ [i + 1] ∧ front <+: f.visibleFrom i := by
  rw [h.first.visibleFrom_eq hi, h.row_eq hi, ← List.append_assoc]
  refine ⟨_, rfl, ?_⟩
  rcases h.next i hi with hp | ⟨k, s, hu, hplace⟩
  · -- The first child: its parent is the node before, and there are no earlier children.
    have hnone : ((List.range (i + 1)).filter fun j => f.places[j]? == f.places[i + 1]?) = [] := by
      rw [List.filter_eq_nil_iff]
      intro j hj hsame
      have hsame := parent?_eq_of_place (eq_of_beq hsame)
      have hlt := h.first i j (hsame.trans hp)
      have := List.mem_range.1 hj
      omega
    rw [hnone, hp, Option.elim_some]
    simp
  · -- Otherwise what is visible up to the nearest earlier sibling, of which the node before is a descendant.
    have hle := h.first.add_le_of_up hu
    have hs : s < f.size := lt_size_of_place hplace hi
    have hrow : ((List.range (i + 1)).filter fun j => f.places[j]? == f.places[i + 1]?) =
        ((List.range s).filter fun j => f.places[j]? == f.places[s]?) ++ [s] := by
      rw [← hplace, filter_range_eq (m := s + 1) (by omega)]
      · rw [List.range_succ, List.filter_append]
        simp
      · intro j hsj hji
        exact beq_eq_false_iff_ne.2 (h.place_ne_of_between (by omega) hu hsj (by omega))
    rw [hrow, ← parent?_eq_of_place hplace, ← h.row_eq hs, ← h.first.visibleFrom_eq hs]
    exact h.visibleFrom_prefix_of_up (by omega) hu

end InPreorder

end Forest

/-! ## Canonical lists are numbered in preorder -/

section Canonical

variable {blocks : List Block} {i j : Nat} {b : Block}

theorem repeatsAt_of_parent? (h : (Forest.ofBlocks blocks).parent? i = some j) : RepeatsAt blocks i j := by
  obtain ⟨-, b, c, hb, hc, -, he, -⟩ := parent?_ofBlocks.1 h
  exact ⟨b, c, hb, hc, he⟩

namespace LaidOut

variable (h : LaidOut blocks) (hd : DistinctIds blocks)
include h hd

theorem parent?_of_repeatsAt (hr : RepeatsAt blocks i j) : (Forest.ofBlocks blocks).parent? i = some j := by
  obtain ⟨hlt, hen⟩ := h.of_repeatsAt hd hr
  obtain ⟨b, c, hb, hc, he⟩ := hr
  exact parent?_ofBlocks.2 ⟨by omega, b, c, hb, hc, hen c hc, he, hd.positionOf hc⟩

theorem exists_up_of_repeatsUnder (hr : RepeatsUnder blocks i j) :
    ∃ n, (Forest.ofBlocks blocks).up (n + 1) i = some j := by
  induction hr with
  | direct hr => exact ⟨0, by rw [Forest.up_one, h.parent?_of_repeatsAt hd hr]⟩
  | through hr _ ih =>
    obtain ⟨n, hn⟩ := ih
    exact ⟨n + 1, by rw [Forest.up, h.parent?_of_repeatsAt hd hr, Option.bind_some, hn]⟩

theorem parent?_of_enumerator {e : BlockId} (hb : blocks[i]? = some b) (he : b.enumerator = some e) :
    ∃ j, (Forest.ofBlocks blocks).parent? i = some j := by
  obtain ⟨j, -, c, hc, -, rfl⟩ := h.named i b e hb he
  exact ⟨j, h.parent?_of_repeatsAt hd ⟨b, c, hb, hc, he⟩⟩

theorem placed (i : Nat) : (Forest.ofBlocks blocks).places[i]? ≠ some .stray := by
  intro hstray
  obtain ⟨b, hb, hplace⟩ := place_ofBlocks.1 hstray
  cases he : b.enumerator with
  | none =>
    rw [placeOf_eq_root.2 he] at hplace
    cases hplace
  | some e =>
    obtain ⟨j, hj⟩ := h.parent?_of_enumerator hd hb he
    rw [Forest.parent?_eq_some, hstray] at hj
    cases hj

/-- Every node stands at or below a root. -/
theorem rooted (hf : (Forest.ofBlocks blocks).ParentsFirst) (hi : i < blocks.length) :
    (Forest.ofBlocks blocks).Rooted i := by
  induction i using Nat.strongRecOn with
  | _ i ih =>
    have hb : blocks[i]? = some blocks[i] := List.getElem?_eq_getElem hi
    cases he : (blocks[i]).enumerator with
    | none => exact ⟨0, .zero (mem_roots_ofBlocks.2 ⟨_, hb, he⟩)⟩
    | some e =>
      obtain ⟨p, hp⟩ := h.parent?_of_enumerator hd hb he
      have hlt := hf p i hp
      obtain ⟨n, hn⟩ := ih p hlt (by omega)
      exact ⟨1 + n, hn.of_up (by rw [Forest.up_one, hp])⟩

end LaidOut

/-- **A canonical list is numbered in preorder.** -/
theorem inPreorder (hc : isCanonical blocks = true) (hd : DistinctIds blocks) :
    (Forest.ofBlocks blocks).InPreorder := by
  have h : LaidOut blocks := (isCanonical_iff_laidOut hd).1 hc
  have hf := parentsFirst hc
  refine ⟨h.placed hd, hf, fun i hi => ?_⟩
  rw [size_ofBlocks] at hi
  cases hp : (Forest.ofBlocks blocks).parent? (i + 1) with
  | none =>
    -- A top-level block: the node before stands below another top-level block.
    obtain ⟨n, r, hr, hu⟩ := h.rooted hd hf (i := i) (by omega)
    refine .inr ⟨n, r, hu, ?_⟩
    have hb : blocks[i + 1]? = some blocks[i + 1] := List.getElem?_eq_getElem hi
    have htop : (blocks[i + 1]).enumerator = none := by
      cases he : (blocks[i + 1]).enumerator with
      | none => rfl
      | some e =>
        obtain ⟨p, hp'⟩ := h.parent?_of_enumerator hd hb he
        rw [hp] at hp'
        cases hp'
    rw [Forest.mem_roots.1 hr]
    exact (Forest.mem_roots.1 (mem_roots_ofBlocks.2 ⟨_, hb, htop⟩)).symm
  | some p =>
    have hlt := hf p (i + 1) hp
    by_cases hpi : p = i
    · exact .inl (by rw [hpi])
    -- The stretch behind the parent reaches as far as this block, so the one before is in it.
    have hr := repeatsAt_of_parent? hp
    obtain ⟨m, hm, -⟩ := h.exists_stretch hd (i := p) (List.getElem?_eq_getElem (by omega))
    have hlast := (hm (i + 1)).1 (.direct hr)
    obtain ⟨n, hn⟩ := h.exists_up_of_repeatsUnder hd ((hm i).2 (by omega))
    rw [Forest.up_add] at hn
    obtain ⟨s, hs, hsp⟩ := Option.bind_eq_some_iff.1 hn
    rw [Forest.up_one, Forest.parent?_eq_some] at hsp
    exact .inr ⟨n, s, hs, by rw [hsp, Forest.parent?_eq_some.1 hp]⟩

end Canonical

/-! ## Readable questions -/

section Readable

variable {blocks : List Block} {i : Nat} {b : Block} {q : Question}

/-- The readable questions of the blocks at these positions. -/
def readableAt (blocks : List Block) (positions : List Nat) : List Question :=
  (pick blocks positions).flatMap Block.readableQuestions

theorem readableAt_append {xs ys : List Nat} :
    readableAt blocks (xs ++ ys) = readableAt blocks xs ++ readableAt blocks ys := by
  rw [readableAt, pick, List.filterMap_append, List.flatMap_append]
  rfl

theorem readableAt_singleton (hb : blocks[i]? = some b) : readableAt blocks [i] = b.readableQuestions := by
  rw [readableAt, pick_cons hb]
  simp [pick]

theorem readableAt_prefix {xs ys : List Nat} (h : xs <+: ys) : readableAt blocks xs <+: readableAt blocks ys := by
  obtain ⟨zs, rfl⟩ := h
  rw [readableAt_append]
  exact List.prefix_append ..

theorem id_mem_of_readable (h : q ∈ b.readableQuestions) : q.id ∈ b.questionIds := by
  obtain ⟨u, hu, rfl⟩ := List.mem_map.1 h
  exact List.mem_map.2 ⟨u, (List.mem_filter.1 hu).1, rfl⟩

theorem mem_readableAt {positions : List Nat} :
    q ∈ readableAt blocks positions ↔ ∃ j ∈ positions, ∃ c, blocks[j]? = some c ∧ q ∈ c.readableQuestions := by
  simp only [readableAt, List.mem_flatMap, mem_pick]
  constructor
  · rintro ⟨c, ⟨j, hj, hc⟩, hq⟩
    exact ⟨j, hj, c, hc, hq⟩
  · rintro ⟨j, hj, c, hc, hq⟩
    exact ⟨c, ⟨j, hj, hc⟩, hq⟩

theorem exists_of_mem_readableAt {positions : List Nat} (h : q ∈ readableAt blocks positions) :
    ∃ j ∈ positions, ∃ c, blocks[j]? = some c ∧ q.id ∈ c.questionIds := by
  obtain ⟨j, hj, c, hcj, hq⟩ := mem_readableAt.1 h
  exact ⟨j, hj, c, hcj, id_mem_of_readable hq⟩

/-- The positions whose answers a visibility predicate on the block at `i` may read. -/
def Forest.visibleBefore (f : Forest) : Nat → List Nat
  | 0 => []
  | i + 1 => f.visibleFrom i

theorem DistinctIds.availableThrough_eq (hd : DistinctIds blocks) (hb : blocks[i]? = some b) :
    availableThrough blocks b.id = some (readableAt blocks ((Forest.ofBlocks blocks).visibleFrom i)) := by
  rw [availableThrough, hd.positionOf hb]
  rfl

theorem DistinctIds.availableForVisibility_eq (hd : DistinctIds blocks) (hb : blocks[i]? = some b) :
    availableForVisibility blocks b.id =
      some (readableAt blocks ((Forest.ofBlocks blocks).visibleBefore i)) := by
  rw [availableForVisibility, hd.positionOf hb]
  cases i with
  | zero => rfl
  | succ i =>
    have hi : i + 1 < blocks.length := (List.getElem?_eq_some_iff.1 hb).1
    have hc : blocks[i]? = some blocks[i] := List.getElem?_eq_getElem (by omega)
    dsimp only
    rw [hc, Option.bind_some, hd.availableThrough_eq hc, Forest.visibleBefore]

/-- What a visibility predicate may read stands before its block. -/
theorem Forest.InPreorder.lt_of_mem_visibleBefore {f : Forest} (h : f.InPreorder) {j : Nat} (hi : i < f.size)
    (hj : j ∈ f.visibleBefore i) : j < i := by
  cases i with
  | zero => cases hj
  | succ i =>
    have := h.le_of_mem_visibleFrom (by omega) hj
    omega

/-- What is visible from a node, the node apart, comes first in what is visible before it. -/
theorem Forest.InPreorder.visibleFrom_eq_before {f : Forest} (h : f.InPreorder) (hi : i < f.size) :
    ∃ front, f.visibleFrom i = front ++ [i] ∧ front <+: f.visibleBefore i := by
  cases i with
  | zero =>
    refine ⟨[], ?_, List.prefix_refl _⟩
    rw [h.first.visibleFrom_eq hi, h.row_eq hi, h.first.parent?_zero]
    rfl
  | succ i => exact h.visibleFrom_succ hi

/-- The visibility predicate reads none but these questions, and the eligibility predicate none but the readable
questions of the block. -/
def Block.ReadsOnly (b : Block) (shown : List Question) : Prop :=
  (∀ p ∈ b.visibility, ∀ q ∈ p.questions, q ∈ shown.map (·.id)) ∧
    ∀ p ∈ b.eligibility, ∀ q ∈ p.questions, q ∈ b.readableQuestions.map (·.id)

/-- A block that keeps to questions asked before it reads nothing late. -/
theorem not_late_of_readsOnly {shown : List Question} (hd : DistinctIds blocks) (hb : blocks[i]? = some b)
    (hshown : ∀ q ∈ shown, ∃ c ∈ blocks.take i, q.id ∈ c.questionIds) (h : b.ReadsOnly shown) :
    ∀ v ∈ LateRead.ofBlocks blocks, v.block ≠ b.id := by
  intro v hv hid
  obtain ⟨j, c, hc, hv⟩ := LateRead.mem_ofBlocks.1 hv
  have hcid : c.id = b.id := (LateRead.block_of_mem_ofBlock hv).symm.trans hid
  obtain rfl : j = i := hd.position_unique hc hb hcid
  rw [hb] at hc
  cases hc
  have hnone : LateRead.ofBlock ((blocks.take j).flatMap Block.questionIds) b = [] := by
    refine LateRead.ofBlock_eq_nil.2 ⟨fun p hp q hq => ?_, fun p hp q hq => .inr ?_⟩
    · obtain ⟨x, hx, rfl⟩ := List.mem_map.1 (h.1 p hp q hq)
      exact List.mem_flatMap.2 (hshown x hx)
    · obtain ⟨x, hx, rfl⟩ := List.mem_map.1 (h.2 p hp q hq)
      exact id_mem_of_readable hx
  rw [hnone] at hv
  cases hv

end Readable

/-- **What is offered to a predicate has been asked.** In a canonical list with distinct ids every question
available to the visibility predicate of a block belongs to an earlier block, so a block that keeps to these, and
to its own readable questions for eligibility, has no late read; and all that is available through the block comes
first among them, its own questions apart. -/
theorem availability_sound (blocks : List Block) (hc : isCanonical blocks = true) (hd : DistinctIds blocks)
    (i : Nat) (b : Block) (hb : blocks[i]? = some b) :
    ∃ shown through,
      availableForVisibility blocks b.id = some shown ∧
      availableThrough blocks b.id = some through ∧
      (∀ q ∈ shown, ∃ c ∈ blocks.take i, q.id ∈ c.questionIds) ∧
      (b.ReadsOnly shown → ∀ v ∈ LateRead.ofBlocks blocks, v.block ≠ b.id) ∧
      ∃ front, through = front ++ b.readableQuestions ∧ front <+: shown := by
  have h := inPreorder hc hd
  have hi : i < (Forest.ofBlocks blocks).size := by
    rw [size_ofBlocks]
    exact (List.getElem?_eq_some_iff.1 hb).1
  have hshown : ∀ q ∈ readableAt blocks ((Forest.ofBlocks blocks).visibleBefore i),
      ∃ c ∈ blocks.take i, q.id ∈ c.questionIds := by
    intro q hq
    obtain ⟨j, hj, c, hcj, hqc⟩ := exists_of_mem_readableAt hq
    have hji : j < i := h.lt_of_mem_visibleBefore hi hj
    refine ⟨c, List.mem_of_getElem? (i := j) ?_, hqc⟩
    rw [List.getElem?_take_of_lt hji, hcj]
  obtain ⟨front, hfront, hpre⟩ := h.visibleFrom_eq_before hi
  refine ⟨_, _, hd.availableForVisibility_eq hb, hd.availableThrough_eq hb, hshown,
    not_late_of_readsOnly hd hb hshown, readableAt blocks front, ?_, readableAt_prefix hpre⟩
  rw [hfront, readableAt_append, readableAt_singleton hb]

/-- Members of a household with their incomes, asked for only where a member's name is given. -/
def census : List Block :=
  let name : Question := { id := 1, name := "name", type := .text }
  let income : Question := { id := 2, name := "income", type := .currency }
  let named : Condition :=
    .leaf { question := 1, scalar := "text", operator := .notEqual, value := ⟨.string "", trivial⟩ }
  let paid : Condition :=
    .leaf { question := 2, scalar := "currency_cents", operator := .lessThan, value := ⟨.null, trivial⟩ }
  [{ id := 1, name := "members", isEnumerator := true, questions := [{ question := name }] },
    { id := 2, name := "income", enumerator := some 1, questions := [{ question := income }],
      visibility := some { root := named, action := .showBlock },
      eligibility := some { root := paid, action := .eligibleBlock } }]

theorem availability_sound_census :
    isCanonical census = true ∧ DistinctIds census ∧
      (∃ shown through, availableForVisibility census 2 = some shown ∧ shown.map (·.id) = [1] ∧
        availableThrough census 2 = some through ∧ through.map (·.id) = [1, 2]) ∧
      ∀ v ∈ LateRead.ofBlocks census, v.block ≠ 2 := by
  have hc : isCanonical census = true := by decide
  have hd : DistinctIds census := by decide
  obtain ⟨shown, through, hshown, hthrough, -, hlate, -⟩ := availability_sound census hc hd 1 census[1] rfl
  have hids : (availableForVisibility census 2).map (·.map (·.id)) = some [1] := by decide
  have hids' : (availableThrough census 2).map (·.map (·.id)) = some [1, 2] := by decide
  have hone : shown.map (·.id) = [1] := by
    rw [show availableForVisibility census 2 = some shown from hshown] at hids
    exact Option.some.inj hids
  have htwo : through.map (·.id) = [1, 2] := by
    rw [show availableThrough census 2 = some through from hthrough] at hids'
    exact Option.some.inj hids'
  refine ⟨hc, hd, ⟨shown, through, hshown, hone, hthrough, htwo⟩, hlate ⟨?_, ?_⟩⟩
  · rw [hone]
    rintro p ⟨⟩ q hq
    exact Predicate.mem_questions.1 hq
  · rintro p ⟨⟩ q hq
    exact Predicate.mem_questions.1 hq

end FormProgram
