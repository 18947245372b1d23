/-
What it means that a program has no defects: `Sound` says it of the blocks alone and by ids, so that it
does not depend on their order (`Sound.perm`).

`defects_eq_nil_iff`: the check finds nothing exactly in sound programs. The reports of circles come
from the forest; with distinct ids a node is rooted exactly when its chain of ids ends at a top-level
block (`rooted_iff_grounded`).
-/
import FormProgram.Program.Defect
import FormProgram.Proofs.Memo

set_option autoImplicit false

namespace FormProgram

/-- Following the enumerator ids from the block leads to a top-level block. -/
inductive Grounded (blocks : List Block) : Block → Prop
  | top {b : Block} (enumerator : b.enumerator = none) : Grounded blocks b
  | under {b c : Block} (mem : c ∈ blocks) (isEnumerator : c.isEnumerator = true)
      (enumerator : b.enumerator = some c.id) (rest : Grounded blocks c) : Grounded blocks b

/-- Ids are positive and distinct, and the enumerators that blocks name make a forest. -/
structure Formed (blocks : List Block) : Prop where
  positive : ∀ b ∈ blocks, b.id ≠ 0
  distinct : DistinctIds blocks
  named : ∀ b ∈ blocks, ∀ e, b.enumerator = some e →
    e ≠ b.id ∧ ∃ c ∈ blocks, c.id = e ∧ c.isEnumerator = true
  grounded : ∀ b ∈ blocks, Grounded blocks b

/-- What a stored program must satisfy. -/
structure Sound (blocks : List Block) : Prop extends Formed blocks where
  nonempty : blocks ≠ []
  known : ∀ b ∈ blocks, ∀ q ∈ b.predicateQuestions, q ∈ blocks.flatMap Block.questionIds

variable {xs ys : List Block}

theorem Grounded.mono (h : ∀ c ∈ xs, c ∈ ys) {b : Block} (hb : Grounded xs b) : Grounded ys b := by
  induction hb with
  | top he => exact .top he
  | under hc hen he _ ih => exact .under (h _ hc) hen he ih

theorem Formed.perm (h : xs.Perm ys) (s : Formed xs) : Formed ys where
  positive b hb := s.positive b (h.mem_iff.2 hb)
  distinct := (DistinctIds.perm h).1 s.distinct
  named b hb e he := by
    obtain ⟨hne, c, hc, hce⟩ := s.named b (h.mem_iff.2 hb) e he
    exact ⟨hne, c, h.mem_iff.1 hc, hce⟩
  grounded b hb := (s.grounded b (h.mem_iff.2 hb)).mono fun _ => h.mem_iff.1

theorem Sound.perm (h : xs.Perm ys) (s : Sound xs) : Sound ys where
  toFormed := s.toFormed.perm h
  nonempty hn := s.nonempty (List.perm_nil.1 (hn ▸ h))
  known b hb q hq := (h.flatMap_right Block.questionIds).mem_iff.1 (s.known b (h.mem_iff.2 hb) q hq)

variable {blocks : List Block} {b : Block} {i : Nat}

/-- What a block must be like for a sound list to stay sound when it is added. -/
theorem Sound.cons_iff (s : Sound blocks) :
    Sound (b :: blocks) ↔ b.id ≠ 0 ∧ (∀ c ∈ blocks, c.id ≠ b.id) ∧
      (∀ e, b.enumerator = some e → ∃ c ∈ blocks, c.id = e ∧ c.isEnumerator = true) ∧
      ∀ q ∈ b.predicateQuestions, q ∈ b.questionIds ∨ q ∈ blocks.flatMap Block.questionIds := by
  constructor
  · intro h
    have hnew : ∀ c ∈ blocks, c.id ≠ b.id := (DistinctIds.cons.1 h.distinct).1
    refine ⟨h.positive b List.mem_cons_self, hnew, fun e he => ?_, fun q hq => ?_⟩
    · obtain ⟨hne, c, hc, hid, hen⟩ := h.named b List.mem_cons_self e he
      rcases List.mem_cons.1 hc with rfl | hc
      · exact absurd hid.symm hne
      · exact ⟨c, hc, hid, hen⟩
    · have hknown := h.known b List.mem_cons_self q hq
      rwa [List.flatMap_cons, List.mem_append] at hknown
  · rintro ⟨hpos, hnew, hnamed, hknown⟩
    have hmore : ∀ c ∈ blocks, c ∈ b :: blocks := fun c => List.mem_cons_of_mem b
    refine ⟨⟨?_, DistinctIds.cons.2 ⟨hnew, s.distinct⟩, ?_, ?_⟩, List.cons_ne_nil b blocks, ?_⟩
    · exact List.forall_mem_cons.2 ⟨hpos, s.positive⟩
    · refine List.forall_mem_cons.2 ⟨fun e he => ?_, fun c hc e he => ?_⟩
      · obtain ⟨c, hc, hid, hen⟩ := hnamed e he
        exact ⟨hid ▸ hnew c hc, c, hmore c hc, hid, hen⟩
      · obtain ⟨hne, c', hc', h'⟩ := s.named c hc e he
        exact ⟨hne, c', hmore c' hc', h'⟩
    · refine List.forall_mem_cons.2 ⟨?_, fun c hc => (s.grounded c hc).mono hmore⟩
      cases he : b.enumerator with
      | none => exact .top he
      | some e =>
        obtain ⟨c, hc, rfl, hen⟩ := hnamed e he
        exact .under (hmore c hc) hen he ((s.grounded c hc).mono hmore)
    · refine List.forall_mem_cons.2 ⟨fun q hq => ?_, fun c hc q hq => ?_⟩
      · rw [List.flatMap_cons, List.mem_append]
        exact hknown q hq
      · rw [List.flatMap_cons, List.mem_append]
        exact .inr (s.known c hc q hq)

theorem rooted_iff_grounded (hd : DistinctIds blocks) (hb : blocks[i]? = some b) :
    (Forest.ofBlocks blocks).Rooted i ↔ Grounded blocks b := by
  constructor
  · rintro ⟨n, r, hr, hu⟩
    induction n generalizing i b with
    | zero =>
      cases hu
      obtain ⟨b', hb', he⟩ := mem_roots_ofBlocks.1 hr
      rw [hb] at hb'
      cases hb'
      exact .top he
    | succ n ih =>
      obtain ⟨p, hp, hu⟩ := Option.bind_eq_some_iff.1 hu
      obtain ⟨-, b', c, hb', hc, hen, he, -⟩ := parent?_ofBlocks.1 hp
      rw [hb] at hb'
      cases hb'
      exact .under (List.mem_of_getElem? hc) hen he (ih hc hu)
  · intro h
    induction h generalizing i with
    | top he => exact ⟨0, .zero (mem_roots_ofBlocks.2 ⟨_, hb, he⟩)⟩
    | @under b c hc hen he _ ih =>
      obtain ⟨j, hj⟩ := List.mem_iff_getElem?.1 hc
      by_cases hij : j = i
      · subst hij
        exact ih hj
      · obtain ⟨n, hn⟩ := ih hj
        have hp : (Forest.ofBlocks blocks).parent? i = some j :=
          parent?_ofBlocks.2 ⟨hij, b, c, hb, hj, hen, he, hd.positionOf hj⟩
        exact ⟨1 + n, hn.of_up (by rw [Forest.up_one, hp])⟩

/-- Nothing is left out of the preorder when every block is grounded. -/
theorem unreachable_eq_nil_iff (hd : DistinctIds blocks) :
    (Forest.ofBlocks blocks).unreachable = [] ↔ ∀ b ∈ blocks, Grounded blocks b := by
  rw [List.eq_nil_iff_forall_not_mem]
  simp only [Forest.mem_unreachable, size_ofBlocks, not_and, not_not]
  constructor
  · intro h b hb
    obtain ⟨i, hi⟩ := List.mem_iff_getElem?.1 hb
    exact (rooted_iff_grounded hd hi).1 (h i (List.getElem?_eq_some_iff.1 hi).1)
  · intro h i hi
    have hb : blocks[i]? = some blocks[i] := List.getElem?_eq_getElem hi
    exact (rooted_iff_grounded hd hb).2 (h _ (List.getElem_mem hi))

theorem ofIds_eq_nil_iff {seen : List BlockId} :
    Defect.ofIds seen blocks = [] ↔
      (∀ b ∈ blocks, b.id ≠ 0) ∧ DistinctIds blocks ∧ ∀ b ∈ blocks, b.id ∉ seen := by
  induction blocks generalizing seen with
  | nil => simp [Defect.ofIds, DistinctIds.nil]
  | cons b blocks ih =>
    have hfirst : ∀ {c : Prop} [Decidable c] {d : Defect}, (if c then [d] else []) = [] ↔ ¬ c := by
      intro c _ d
      split <;> simp_all
    simp only [Defect.ofIds, List.append_eq_nil_iff, hfirst, ih, DistinctIds.cons, forall_eq_or_imp,
      List.mem_cons, not_or, List.contains_iff_mem, forall_and]
    constructor
    · rintro ⟨⟨h0, hs⟩, hpos, hd, hne, hseen⟩
      exact ⟨⟨h0, hpos⟩, ⟨hne, hd⟩, hs, hseen⟩
    · rintro ⟨⟨h0, hpos⟩, ⟨hne, hd⟩, hs, hseen⟩
      exact ⟨⟨h0, hs⟩, hpos, hd, hne, hseen⟩

namespace Program

variable {p : Program}

theorem hasEnumerator_iff {e : BlockId} :
    p.hasEnumerator e = true ↔ ∃ c ∈ p.blocks, c.id = e ∧ c.isEnumerator = true := by
  simp [hasEnumerator]

theorem enumeratorDefects_eq_nil_iff :
    p.enumeratorDefects = [] ↔ ∀ b ∈ p.blocks, ∀ e, b.enumerator = some e →
      e ≠ b.id ∧ ∃ c ∈ p.blocks, c.id = e ∧ c.isEnumerator = true := by
  rw [enumeratorDefects, List.filterMap_eq_nil_iff]
  refine forall₂_congr fun b _ => ?_
  cases b.enumerator with
  | none => simp
  | some e =>
    simp only [Option.some.injEq, forall_eq', ← hasEnumerator_iff]
    split
    · simp_all
    · split <;> simp_all

theorem cycleDefects_eq_nil_iff (hd : DistinctIds p.blocks) :
    p.cycleDefects = [] ↔ ∀ b ∈ p.blocks, Grounded p.blocks b := by
  rw [← unreachable_eq_nil_iff hd, cycleDefects, List.map_eq_nil_iff]
  constructor
  · intro h
    refine List.eq_nil_iff_forall_not_mem.2 fun i hi => ?_
    have hlt := (Forest.mem_unreachable.1 hi).1
    rw [size_ofBlocks] at hlt
    have := mem_pick.2 ⟨i, hi, List.getElem?_eq_getElem hlt⟩
    rw [h] at this
    cases this
  · intro h
    rw [h]
    rfl

theorem structureDefects_eq_nil_iff : p.structureDefects = [] ↔ Formed p.blocks := by
  have hids : Defect.ofIds [] p.blocks ++ p.enumeratorDefects = [] ↔
      (∀ b ∈ p.blocks, b.id ≠ 0) ∧ DistinctIds p.blocks ∧ ∀ b ∈ p.blocks, ∀ e, b.enumerator = some e →
        e ≠ b.id ∧ ∃ c ∈ p.blocks, c.id = e ∧ c.isEnumerator = true := by
    rw [List.append_eq_nil_iff, ofIds_eq_nil_iff, enumeratorDefects_eq_nil_iff]
    simp only [List.not_mem_nil, not_false_eq_true, implies_true, and_true, and_assoc]
  constructor
  · intro h
    simp only [structureDefects, List.isEmpty_iff] at h
    split at h
    next hnil =>
      obtain ⟨hpos, hd, hnamed⟩ := hids.1 hnil
      exact ⟨hpos, hd, hnamed, (cycleDefects_eq_nil_iff hd).1 h⟩
    next hne => exact absurd h hne
  · intro h
    rw [structureDefects, hids.2 ⟨h.positive, h.distinct, h.named⟩]
    exact (cycleDefects_eq_nil_iff h.distinct).2 h.grounded

theorem questionDefects_eq_nil_iff (hm : p.Truthful) :
    p.questionDefects = [] ↔ ∀ b ∈ p.blocks, ∀ q ∈ b.predicateQuestions, q ∈ p.questionIds := by
  rw [questionDefects, List.flatMap_eq_nil_iff]
  refine forall₂_congr fun b _ => ?_
  rw [List.map_eq_nil_iff, List.filter_eq_nil_iff]
  refine forall₂_congr fun q _ => ?_
  rw [← hm.hasQuestion]
  simp

/-- Without defects the blocks are formed as they must be, whatever the memos say. -/
theorem formed_of_defects (h : p.defects = []) : Formed p.blocks := by
  rw [defects] at h
  split at h
  · cases h
  · exact structureDefects_eq_nil_iff.1 (List.append_eq_nil_iff.1 h).1

theorem defects_eq_nil_iff (hm : p.Truthful) : p.defects = [] ↔ Sound p.blocks := by
  constructor
  · intro h
    have hf := formed_of_defects h
    rw [defects] at h
    split at h
    · cases h
    next hne =>
      have hq := (questionDefects_eq_nil_iff hm.noteQuestions).1 (List.append_eq_nil_iff.1 h).2
      exact ⟨hf, by simpa using hne, hq⟩
  · intro h
    have hne : p.blocks.isEmpty = false := by simpa using h.nonempty
    rw [defects, hne, structureDefects_eq_nil_iff.2 h.toFormed,
      (questionDefects_eq_nil_iff hm.noteQuestions).2 h.known]
    rfl

end Program

end FormProgram
