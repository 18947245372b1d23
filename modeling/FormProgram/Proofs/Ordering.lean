/-
Ordering a list of any kind: ids may repeat or be zero, enumerators may be missing, be plain blocks, name
themselves or go round in a circle.

Every node of the forest has one parent at most and a root has none, so the walk from the roots ends without
remembering where it has been. It passes the positions from which the enumerator ids lead to the top level
(`LeadsToTop`), each of them once, and the list that it leaves is in canonical order. A list in canonical order is
not ordered again, so ordering a program twice is ordering it once.
-/
import FormProgram.Proofs.Instances
import FormProgram.Proofs.StackWalk

set_option autoImplicit false

namespace FormProgram

/-- Going from a position to the first block with the id that the block there names, again and again, leads to a
top-level block. A block that is no enumerator leads nowhere, and no block leads to itself. -/
inductive LeadsToTop (blocks : List Block) : Nat → Prop
  | top {i : Nat} {b : Block} (block : blocks[i]? = some b) (enumerator : b.enumerator = none) : LeadsToTop blocks i
  | under {i j : Nat} {b c : Block} {e : BlockId} (block : blocks[i]? = some b) (enumerator : b.enumerator = some e)
      (first : positionOf blocks e = some j) (other : j ≠ i) (parent : blocks[j]? = some c)
      (isEnumerator : c.isEnumerator = true) (rest : LeadsToTop blocks j) : LeadsToTop blocks i

variable {blocks : List Block} {i : Nat}

theorem rooted_iff_leadsToTop : (Forest.ofBlocks blocks).Rooted i ↔ LeadsToTop blocks i := by
  constructor
  · intro h
    obtain ⟨n, r, hr, hu⟩ := h
    induction n generalizing i with
    | zero =>
      cases hu
      obtain ⟨b, hb, he⟩ := mem_roots_ofBlocks.1 hr
      exact .top hb he
    | succ n ih =>
      obtain ⟨p, hp, hu⟩ := Option.bind_eq_some_iff.1 hu
      obtain ⟨hne, b, c, hb, hc, hen, he, hfirst⟩ := parent?_ofBlocks.1 hp
      exact .under hb he hfirst hne hc hen (ih hu)
  · intro h
    induction h with
    | top hb he => exact ⟨0, .zero (mem_roots_ofBlocks.2 ⟨_, hb, he⟩)⟩
    | @under i j b c e hb he hfirst hne hc hen _ ih =>
      -- The first block with the id has that id.
      obtain ⟨c', hc', hid⟩ := block_of_positionOf hfirst
      rw [hc] at hc'
      cases hc'
      subst hid
      obtain ⟨n, hn⟩ := ih
      have hp : (Forest.ofBlocks blocks).parent? i = some j :=
        parent?_ofBlocks.2 ⟨hne, b, c, hb, hc, hen, he, hfirst⟩
      exact ⟨1 + n, hn.of_up (by rw [Forest.up_one, hp])⟩

theorem Forest.unreachable_ascending (f : Forest) : f.unreachable.Pairwise (· < ·) :=
  List.pairwise_lt_range.filter _

/-- A program with the content of an ordered one is left as it is. -/
theorem Program.Truthful.order_of_ordered {p q : Program} (hp : p.Truthful) (hq : q.Truthful)
    (h : q.toDraft = p.order.toDraft) : q.order.toDraft = p.order.toDraft := by
  have hc : isCanonical q.blocks = true := by
    rw [h]
    exact hp.isCanonical_order
  rw [hq.order_toDraft hc, h]

theorem Program.order_order (p : Program) : p.order.order = p.order := by
  have hnoted : ∀ q : Program, q.memo.ordered = some true → q.order = q := by
    intro q hq
    have hordered : q.isOrdered = true := by simp [isOrdered, hq]
    rw [order, if_pos hordered, noteOrdered, hordered, ← hq]
  refine hnoted p.order ?_
  rw [order]
  split
  next h => simp [noteOrdered, h]
  next => rfl

/-- Every position that the walk passes is one of a block. -/
theorem map_some_canonicalOrder (l : List Block) :
    (canonicalOrder l).map some = (Forest.ofBlocks l).preorder.map (l[·]?) := by
  refine map_some_pick fun i hi => ?_
  have hlt := (Forest.mem_preorder.1 hi).lt_size
  rwa [size_ofBlocks] at hlt

/-- **Ordering is safe on every list.** The walk from the roots ends within as many rounds as there are blocks. It
passes just the positions that lead to the top level, none of them twice; the others are reported in ascending
order; and what it leaves, the blocks at these positions one after the other, is in canonical order. So ordering an
ordered program changes nothing, nor does ordering another program with the same content, whatever either has been
asked before. -/
theorem ordering_is_safe (l : List Block) :
    (∀ more, (Forest.ofBlocks l).emit id (l.length + more) (Forest.ofBlocks l).roots =
      some (Forest.ofBlocks l).preorder) ∧
    (Forest.ofBlocks l).preorder.Nodup ∧
    (∀ i, i ∈ (Forest.ofBlocks l).preorder ↔ LeadsToTop l i) ∧
    (Forest.ofBlocks l).unreachable.Pairwise (· < ·) ∧
    (∀ i, i ∈ (Forest.ofBlocks l).unreachable ↔ i < l.length ∧ ¬ LeadsToTop l i) ∧
    canonicalOrder l = pick l (Forest.ofBlocks l).preorder ∧
    (canonicalOrder l).map some = (Forest.ofBlocks l).preorder.map (l[·]?) ∧
    isCanonical (canonicalOrder l) = true ∧
    ∀ events, ∀ p ∈ live events, p.order.order = p.order ∧
      ∀ events', ∀ q ∈ live events', q.toDraft = p.order.toDraft → q.order.toDraft = p.order.toDraft := by
  refine ⟨fun more => ?_, Forest.nodup_preorder, fun i => ?_, Forest.unreachable_ascending _, fun i => ?_,
    rfl, map_some_canonicalOrder l, isCanonical_canonicalOrder l,
    fun events p hp => ⟨p.order_order, fun events' q hq h => ?_⟩⟩
  · exact Forest.emit_roots (by rw [size_ofBlocks]; exact Nat.le_add_right ..)
  · rw [Forest.mem_preorder, rooted_iff_leadsToTop]
  · rw [Forest.mem_unreachable, size_ofBlocks, rooted_iff_leadsToTop]
  · exact (live_truthful events p hp).order_of_ordered (live_truthful events' q hq) h

/-- The jobs twice with one id, a block with id zero, and five blocks that hang under nothing: their enumerators are
missing, a plain block, the block itself, and each other. The five are left out. -/
theorem ordering_is_safe_tangled :
    let l : List Block :=
      [{ id := 3, name := "jobs", enumerator := some 2, isEnumerator := true },
        { id := 2, name := "members", isEnumerator := true },
        { id := 3, name := "more jobs", enumerator := some 3, isEnumerator := true },
        { id := 0, name := "contact" },
        { id := 5, name := "missing", enumerator := some 9 },
        { id := 6, name := "plain", enumerator := some 0 },
        { id := 7, name := "own", enumerator := some 7, isEnumerator := true },
        { id := 10, name := "these", enumerator := some 11, isEnumerator := true },
        { id := 11, name := "those", enumerator := some 10, isEnumerator := true }]
    let p := Draft.build { blocks := l }
    p ∈ live [.build p.toDraft] ∧ (Forest.ofBlocks l).preorder = [1, 0, 2, 3] ∧ LeadsToTop l 2 ∧
      (Forest.ofBlocks l).unreachable = [4, 5, 6, 7, 8] ∧ ¬ LeadsToTop l 7 ∧ isCanonical l = false ∧
      canonicalOrder l = [l[1], l[0], l[2], l[3]] ∧
      (canonicalOrder l).map (·.name) = ["members", "jobs", "more jobs", "contact"] ∧
      p.order.order = p.order ∧ p.order.toDraft.build ∈ live [.build p.order.toDraft] ∧
      p.order.toDraft.build.order.toDraft = p.order.toDraft := by
  intro l p
  have hp : p ∈ live [.build p.toDraft] := List.mem_singleton.2 rfl
  have hq : p.order.toDraft.build ∈ live [.build p.order.toDraft] := List.mem_singleton.2 rfl
  have hpreorder : (Forest.ofBlocks l).preorder = [1, 0, 2, 3] := by decide +kernel
  have hunreachable : (Forest.ofBlocks l).unreachable = [4, 5, 6, 7, 8] := by decide +kernel
  obtain ⟨-, -, hleads, -, hstrays, hpick, -, -, horder⟩ := ordering_is_safe l
  have hordered : canonicalOrder l = [l[1], l[0], l[2], l[3]] := by rw [hpick, hpreorder]; rfl
  obtain ⟨htwice, hagain⟩ := horder _ p hp
  refine ⟨hp, hpreorder, (hleads 2).1 (by rw [hpreorder]; decide), hunreachable, ?_, by decide +kernel, hordered,
    by rw [hordered]; rfl, htwice, hq, hagain _ _ hq rfl⟩
  exact ((hstrays 7).1 (by rw [hunreachable]; decide)).2

end FormProgram
