/-
Canonical order of formed block lists: nothing is lost and sibling groups keep their order, and these
two facts leave one canonical list only.

Existence is a fact about the walk (`canonicalOrder_perm`, `group_canonicalOrder`). Uniqueness is
`canonicalOrder_congr`: the walk sees a list through its sibling groups alone, so any canonical list
with the same groups, being its own canonical order, is the canonical order of this one too.
-/
import FormProgram.Proofs.Sound

set_option autoImplicit false

namespace FormProgram

variable {xs ys blocks : List Block} {b : Block}

theorem preorder_perm (h : Formed blocks) :
    (Forest.ofBlocks blocks).preorder.Perm (List.range blocks.length) := by
  refine (List.perm_ext_iff_of_nodup Forest.nodup_preorder List.nodup_range).2 fun i => ?_
  have hnone := (unreachable_eq_nil_iff h.distinct).2 h.grounded
  rw [List.eq_nil_iff_forall_not_mem] at hnone
  have hi := hnone i
  simp only [Forest.mem_unreachable, size_ofBlocks, not_and, not_not] at hi
  rw [Forest.mem_preorder, List.mem_range]
  refine ⟨fun hr => ?_, hi⟩
  have hlt := hr.lt_size
  rwa [size_ofBlocks] at hlt

theorem canonicalOrder_perm (h : Formed blocks) : (canonicalOrder blocks).Perm blocks := by
  have hp : (canonicalOrder blocks).Perm (pick blocks (List.range blocks.length)) :=
    pick_perm (preorder_perm h)
  rwa [pick_range] at hp

theorem group_sublist_canonicalOrder (h : Formed blocks) (k : Option BlockId) :
    (group blocks k).Sublist (canonicalOrder blocks) := by
  cases k with
  | none =>
    rw [← pick_roots]
    exact Forest.roots_sublist_preorder.filterMap _
  | some e =>
    cases hg : group blocks (some e) with
    | nil => exact List.nil_sublist _
    | cons b rest =>
      have hb : b ∈ blocks ∧ b.enumerator = some e := mem_group.1 (by rw [hg]; simp)
      obtain ⟨-, c, hc, rfl, hen⟩ := h.named b hb.1 e hb.2
      obtain ⟨i, hi⟩ := List.mem_iff_getElem?.1 hc
      have hself : c.enumerator ≠ some c.id := fun hce => (h.named c hc _ hce).1 rfl
      have hunder : groupUnder blocks c = group blocks (some c.id) := if_pos hen
      rw [← hg, ← hunder, ← pick_children h.distinct hi hself]
      have hr := (rooted_iff_grounded h.distinct hi).2 (h.grounded c hc)
      exact (Forest.children_sublist_preorder hr).filterMap _

theorem group_perm (h : xs.Perm ys) (k : Option BlockId) : (group xs k).Perm (group ys k) := h.filter _

theorem group_canonicalOrder (h : Formed blocks) (k : Option BlockId) :
    group (canonicalOrder blocks) k = group blocks k := by
  have hs := (group_sublist_canonicalOrder h k).filter (·.enumerator == k)
  have hid : (group blocks k).filter (·.enumerator == k) = group blocks k := by
    rw [group, List.filter_filter]
    simp
  rw [hid] at hs
  exact (hs.eq_of_length (group_perm (canonicalOrder_perm h) k).length_eq.symm).symm

theorem subtreeOf_congr (h : ∀ k, group xs k = group ys k) (n : Nat) (b : Block) :
    subtreeOf xs n b = subtreeOf ys n b := by
  induction n generalizing b with
  | zero => rfl
  | succ n ih =>
    have hb : groupUnder xs b = groupUnder ys b := by rw [groupUnder, groupUnder, h]
    rw [subtreeOf, subtreeOf, hb, funext ih]

theorem canonicalOrder_congr (hd : DistinctIds ys) (hp : xs.Perm ys) (h : ∀ k, group xs k = group ys k) :
    canonicalOrder xs = canonicalOrder ys := by
  rw [canonicalOrder_eq hd, canonicalOrder_eq ((DistinctIds.perm hp).2 hd), h, hp.length_eq,
    funext (subtreeOf_congr h ys.length)]

/-- **Canonical order is determined.** In a program without defects the canonical order is the one
canonical arrangement of the blocks that keeps the order within every sibling group, so however two such
programs interleave the same groups, they have the same canonical order. -/
theorem canonicalOrder_determined (p : Program) (h : p.defects = []) :
    (∀ l, l = canonicalOrder p.blocks ↔
      l.Perm p.blocks ∧ isCanonical l = true ∧ ∀ k, group l k = group p.blocks k) ∧
    ∀ q : Program, q.defects = [] → q.blocks.Perm p.blocks →
      (∀ k, group q.blocks k = group p.blocks k) → canonicalOrder q.blocks = canonicalOrder p.blocks := by
  have hf := Program.formed_of_defects h
  refine ⟨fun l => ⟨?_, ?_⟩, fun q _ hp hg => canonicalOrder_congr hf.distinct hp hg⟩
  · rintro rfl
    exact ⟨canonicalOrder_perm hf, isCanonical_canonicalOrder _, group_canonicalOrder hf⟩
  · rintro ⟨hp, hc, hg⟩
    have hl := canonicalOrder_eq_self (isCanonical_iff_nested.1 hc) ((DistinctIds.perm hp).2 hf.distinct)
    rw [← hl]
    exact canonicalOrder_congr hf.distinct hp hg

/-- The household form with its repeated blocks in front, and once more with its groups interleaved. -/
theorem canonicalOrder_determined_household :
    let p := Draft.build { blocks := [household[3], household[2], household[0], household[1], household[4]] }
    let q := Draft.build { blocks := [household[0], household[3], household[1], household[2], household[4]] }
    p.defects = [] ∧ q.defects = [] ∧ household.Perm p.blocks ∧
      (∀ k, group household k = group p.blocks k) ∧ canonicalOrder q.blocks = canonicalOrder p.blocks := by
  intro p q
  have hp : p.defects = [] := by decide +kernel
  have hq : q.defects = [] := by decide +kernel
  -- The walks; what stands at these positions is read off.
  have hpw : (Forest.ofBlocks p.blocks).preorder = [2, 3, 1, 0, 4] := by decide +kernel
  have hqw : (Forest.ofBlocks q.blocks).preorder = [0, 2, 3, 1, 4] := by decide +kernel
  have hpo : household = canonicalOrder p.blocks := (congrArg (pick p.blocks) hpw).symm
  have hqo : canonicalOrder q.blocks = household := congrArg (pick q.blocks) hqw
  have hqf := Program.formed_of_defects hq
  obtain ⟨hunique, hsame⟩ := canonicalOrder_determined p hp
  obtain ⟨hperm, -, hgroups⟩ := (hunique household).1 hpo
  refine ⟨hp, hq, hperm, hgroups, hsame q hq ?_ fun k => ?_⟩
  · exact (hqo ▸ canonicalOrder_perm hqf).symm.trans hperm
  · rw [← group_canonicalOrder hqf k, hqo, hgroups]

end FormProgram
