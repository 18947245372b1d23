/-
The questions that are offered to the visibility predicate of a block, against the rule for what such a predicate
may read: answers from the block's enumerators and from earlier siblings of the block and of these (`InReach`),
never from what repeats on its own below such a sibling.

What is offered is all that is visible from the block just before. That block may lie below an earlier sibling, and
then the blocks on its way up to the sibling are offered too (`Leaked`): the rule is kept for the other blocks only
(`offered_questions`), and `employer_offered` is a program where it is broken.
-/
import FormProgram.Proofs.Session
import FormProgram.Proofs.VisibleBlocks

set_option autoImplicit false

namespace FormProgram

variable {blocks : List Block} {i j m s : Nat}

/-- The block at `j` is an earlier sibling of the block at `i`. -/
def EarlierSibling (blocks : List Block) (i j : Nat) : Prop :=
  j < i ∧ ∃ b c, blocks[i]? = some b ∧ blocks[j]? = some c ∧ c.enumerator = b.enumerator

/-- The rule: the block at `j` is an enumerator that the block at `i` repeats under, or an earlier sibling of that
block or of such an enumerator. -/
def InReach (blocks : List Block) (i j : Nat) : Prop :=
  RepeatsUnder blocks i j ∨ EarlierSibling blocks i j ∨ ∃ m, RepeatsUnder blocks i m ∧ EarlierSibling blocks m j

/-- The block at `j` repeats directly under an enumerator of the block just before the one at `i`, and this enumerator
is an earlier sibling of the block at `i` or lies below one. -/
def Leaked (blocks : List Block) (i j : Nat) : Prop :=
  ∃ m s, RepeatsAt blocks j m ∧ RepeatsUnder blocks (i - 1) m ∧ EarlierSibling blocks i s ∧
    (m = s ∨ RepeatsUnder blocks m s)

theorem EarlierSibling.repeatsAt (h : EarlierSibling blocks i j) (hr : RepeatsAt blocks j m) :
    RepeatsAt blocks i m := by
  obtain ⟨-, b, c, hb, hc, he⟩ := h
  obtain ⟨c', d, hc', hd, hcd⟩ := hr
  rw [hc] at hc'
  cases hc'
  exact ⟨b, d, hb, hd, he ▸ hcd⟩

theorem EarlierSibling.repeatsUnder (h : EarlierSibling blocks i j) (hr : RepeatsUnder blocks j s) :
    RepeatsUnder blocks i s := by
  cases hr with
  | direct hr => exact .direct (h.repeatsAt hr)
  | through hr hrest => exact .through (h.repeatsAt hr) hrest

theorem InReach.repeatsUnder (h : InReach blocks i j) (hr : RepeatsUnder blocks j s) : RepeatsUnder blocks i s := by
  rcases h with hunder | hsibling | ⟨m, hunder, hsibling⟩
  · exact hunder.trans hr
  · exact hsibling.repeatsUnder hr
  · exact hunder.trans (hsibling.repeatsUnder hr)

/-- A leak comes from below an earlier sibling, and the block just before lies there too. -/
theorem Leaked.exists_sibling (h : Leaked blocks i j) :
    ∃ s, EarlierSibling blocks i s ∧ RepeatsUnder blocks j s ∧ RepeatsUnder blocks (i - 1) s := by
  obtain ⟨m, s, hat, hprev, hs, rfl | hms⟩ := h
  · exact ⟨m, hs, .direct hat, hprev⟩
  · exact ⟨s, hs, .through hat hms, hprev.trans hms⟩

/-- If the block just before lies below an earlier sibling, it leaks itself. -/
theorem EarlierSibling.leaked (hs : EarlierSibling blocks i s) (hr : RepeatsUnder blocks (i - 1) s) :
    Leaked blocks i (i - 1) := by
  cases id hr with
  | direct hat => exact ⟨s, s, hat, hr, hs, .inl rfl⟩
  | through hat hrest => exact ⟨_, s, hat, .direct hat, hs, .inr hrest⟩

namespace LaidOut

variable (h : LaidOut blocks) (hd : DistinctIds blocks) (hf : (Forest.ofBlocks blocks).InPreorder)
include h hd hf

omit hf in
theorem earlierSibling_iff (hi : i < blocks.length) :
    EarlierSibling blocks i j ↔
      j < i ∧ (Forest.ofBlocks blocks).places[j]? = (Forest.ofBlocks blocks).places[i]? := by
  refine and_congr_right fun hj => ?_
  have hb := List.getElem?_eq_getElem hi
  have hc : blocks[j]? = some blocks[j] := List.getElem?_eq_getElem (by omega)
  rw [h.place_eq_iff hd hb hc]
  constructor
  · rintro ⟨b', c', hb', hc', he⟩
    rw [hb] at hb'
    rw [hc] at hc'
    cases hb'
    cases hc'
    exact he
  · intro he
    exact ⟨_, _, hb, hc, he⟩

/-- **The rule is what is visible from the block itself**, the block apart. -/
theorem inReach_iff (hi : i < blocks.length) :
    InReach blocks i j ↔ j ∈ (Forest.ofBlocks blocks).visibleFrom i ∧ j ≠ i := by
  have hsize : i < (Forest.ofBlocks blocks).size := by rwa [size_ofBlocks]
  have hup : ∀ {k s}, (Forest.ofBlocks blocks).up k i = some s → s + k ≤ i := hf.first.add_le_of_up
  rw [hf.mem_visibleFrom hsize]
  constructor
  · intro hreach
    rcases hreach with hunder | hsibling | ⟨a, hunder, hsibling⟩
    · obtain ⟨n, hn⟩ := h.exists_up_of_repeatsUnder hd hunder
      have := hup hn
      exact ⟨⟨n + 1, j, hn, Nat.le_refl j, rfl⟩, by omega⟩
    · obtain ⟨hlt, hplace⟩ := (h.earlierSibling_iff hd hi).1 hsibling
      exact ⟨⟨0, i, rfl, by omega, hplace⟩, by omega⟩
    · obtain ⟨n, hn⟩ := h.exists_up_of_repeatsUnder hd hunder
      have := hup hn
      obtain ⟨hlt, hplace⟩ := (h.earlierSibling_iff hd (by omega)).1 hsibling
      exact ⟨⟨n + 1, a, hn, by omega, hplace⟩, by omega⟩
  · rintro ⟨⟨k, a, hu, hja, hplace⟩, hne⟩
    have := hup hu
    by_cases hsame : j = a
    · subst hsame
      cases k with
      | zero =>
        cases hu
        exact absurd rfl hne
      | succ n => exact .inl (repeatsUnder_of_up hu)
    · have hsibling : EarlierSibling blocks a j :=
        (h.earlierSibling_iff hd (by omega)).2 ⟨by omega, hplace⟩
      cases k with
      | zero =>
        cases hu
        exact .inr (.inl hsibling)
      | succ n => exact .inr (.inr ⟨a, repeatsUnder_of_up hu, hsibling⟩)

theorem lt_of_under_sibling (hs : EarlierSibling blocks i s) (hr : RepeatsUnder blocks j s) : j < i := by
  have hi : i < blocks.length := by
    obtain ⟨-, b, -, hb, -⟩ := hs
    exact (List.getElem?_eq_some_iff.1 hb).1
  obtain ⟨hlt, hplace⟩ := (h.earlierSibling_iff hd hi).1 hs
  obtain ⟨n, hn⟩ := h.exists_up_of_repeatsUnder hd hr
  have hj : j < (Forest.ofBlocks blocks).size := by
    rw [size_ofBlocks]
    exact hr.lt_length
  by_contra hle
  exact hf.place_ne_of_between hj hn hlt (by omega) hplace.symm

theorem not_inReach_of_leaked (hl : Leaked blocks i j) : ¬ InReach blocks i j := by
  intro hreach
  obtain ⟨s, hs, hjs, -⟩ := hl.exists_sibling
  exact absurd (h.lt_of_under_sibling hd hf hs (hreach.repeatsUnder hjs)) (Nat.lt_irrefl i)

/-- **What a visibility predicate is offered**: what is in reach of its block, and what the block just before leaks. -/
theorem mem_visibleBefore_iff (hi : i < blocks.length) :
    j ∈ (Forest.ofBlocks blocks).visibleBefore i ↔ InReach blocks i j ∨ Leaked blocks i j := by
  have hsize : i < (Forest.ofBlocks blocks).size := by rwa [size_ofBlocks]
  constructor
  · intro hj
    cases i with
    | zero => cases hj
    | succ i =>
      rw [Forest.visibleBefore] at hj
      have hji : j ≤ i := hf.le_of_mem_visibleFrom (by omega) hj
      rw [h.inReach_iff hd hf hi]
      rcases hf.next i hsize with hp | ⟨k, s, hu, hplace⟩
      · -- The block just before is the enumerator, and all that is visible from it is in reach.
        have hpre := hf.visibleFrom_prefix_of_up hsize (k := 1) (by rw [Forest.up_one, hp])
        exact .inl ⟨hpre.subset hj, by omega⟩
      · -- It stands at or below a sibling `s`: of its levels those below `s` are leaked, the others are the block's own.
        have hs := hf.first.add_le_of_up hu
        obtain ⟨n, a, hn, hja, hplaceA⟩ := (hf.mem_visibleFrom (by omega)).1 hj
        rcases Nat.lt_or_ge n k with hlt | hge
        · obtain ⟨d, rfl⟩ := Nat.exists_eq_add_of_lt hlt
          rw [Nat.add_assoc, Forest.up_add, hn, Option.bind_some] at hu
          obtain ⟨m, hm, hms⟩ := Option.bind_eq_some_iff.1 hu
          have hprev : (Forest.ofBlocks blocks).up (n + 1) i = some m := by
            rw [Forest.up_add, hn, Option.bind_some, Forest.up_one, hm]
          refine .inr ⟨m, s, repeatsAt_of_parent? ((Forest.parent?_eq_of_place hplaceA).trans hm),
            repeatsUnder_of_up hprev, (h.earlierSibling_iff hd hi).2 ⟨by omega, hplace⟩, ?_⟩
          cases d with
          | zero => exact .inl (Option.some.inj hms)
          | succ d => exact .inr (repeatsUnder_of_up hms)
        · obtain ⟨d, rfl⟩ := Nat.exists_eq_add_of_le hge
          rw [Forest.up_add, hu, Option.bind_some] at hn
          refine .inl ⟨(hf.mem_visibleFrom hsize).2 ?_, by omega⟩
          cases d with
          | zero =>
            cases hn
            exact ⟨0, i + 1, rfl, by omega, hplaceA.trans hplace⟩
          | succ d =>
            have hown : (Forest.ofBlocks blocks).up (d + 1) (i + 1) = some a := by
              rw [Forest.up, ← Forest.parent?_eq_of_place hplace]
              exact hn
            exact ⟨d + 1, a, hown, hja, hplaceA⟩
  · intro hj
    rcases hj with hreach | hleak
    · obtain ⟨front, hview, hpre⟩ := hf.visibleFrom_eq_before hsize
      obtain ⟨hj, hne⟩ := (h.inReach_iff hd hf hi).1 hreach
      rw [hview, List.mem_append, List.mem_singleton] at hj
      exact hpre.subset (hj.resolve_right hne)
    · obtain ⟨s, hs, hjs, -⟩ := hleak.exists_sibling
      have hlt := h.lt_of_under_sibling hd hf hs hjs
      obtain ⟨m, -, hat, hprev, -⟩ := hleak
      cases i with
      | zero => exact absurd hlt (Nat.not_lt_zero j)
      | succ i =>
        rw [Forest.visibleBefore, h.mem_visibleFrom_iff hd hf (by omega)]
        exact ⟨by omega, .inr ⟨m, hprev, hat⟩⟩

end LaidOut

/-- **What the visibility predicate of a block is offered.** In a program without defects these are the readable
questions of the blocks in reach, and of those that the block just before leaks. A leak is never in reach: it comes from
below an earlier sibling. There is one exactly when the block just before lies below an earlier sibling, so for the
other blocks the rule is kept. -/
theorem offered_questions (events : List Event) (p : Program) (hp : p ∈ live events) (h : p.defects = [])
    (i : Nat) (b : Block) (hb : p.order.blocks[i]? = some b) :
    ∃ offered, p.availableForVisibility b.id = .ok offered ∧
      (∀ q, q ∈ offered ↔ ∃ j c, p.order.blocks[j]? = some c ∧ q ∈ c.readableQuestions ∧
        (InReach p.order.blocks i j ∨ Leaked p.order.blocks i j)) ∧
      (∀ j, Leaked p.order.blocks i j → ¬ InReach p.order.blocks i j ∧
        ∃ s, EarlierSibling p.order.blocks i s ∧ RepeatsUnder p.order.blocks j s) ∧
      ((∃ j, Leaked p.order.blocks i j) ↔
        ∃ s, EarlierSibling p.order.blocks i s ∧ RepeatsUnder p.order.blocks (i - 1) s) := by
  have ht := live_truthful events p hp
  have hd := ht.distinct_order (Program.formed_of_defects h)
  have hf := inPreorder ht.isCanonical_order hd
  have hl : LaidOut p.order.blocks := (isCanonical_iff_laidOut hd).1 ht.isCanonical_order
  have hi : i < p.order.blocks.length := (List.getElem?_eq_some_iff.1 hb).1
  refine ⟨readableAt p.order.blocks ((Forest.ofBlocks p.order.blocks).visibleBefore i), ?_, fun q => ?_,
    fun j hj => ⟨hl.not_inReach_of_leaked hd hf hj, ?_⟩, ?_, ?_⟩
  · rw [Program.availableForVisibility, hd.availableForVisibility_eq hb]
    rfl
  · simp only [mem_readableAt, hl.mem_visibleBefore_iff hd hf hi]
    constructor
    · rintro ⟨j, hj, c, hc, hq⟩
      exact ⟨j, c, hc, hq, hj⟩
    · rintro ⟨j, c, hc, hq, hj⟩
      exact ⟨j, hj, c, hc, hq⟩
  · obtain ⟨s, hs, hjs, -⟩ := hj.exists_sibling
    exact ⟨s, hs, hjs⟩
  · rintro ⟨j, hj⟩
    obtain ⟨s, hs, -, hprev⟩ := hj.exists_sibling
    exact ⟨s, hs, hprev⟩
  · rintro ⟨s, hs, hprev⟩
    exact ⟨i - 1, hs.leaked hprev⟩

theorem order_earnings : (Draft.build { blocks := earnings }).order.blocks = earnings :=
  (Program.Truthful.build _).order_blocks_of_canonical (by decide)

/-- The employer comes right behind the job that it belongs to: whether it is asked for may depend on the member and on
the job, and nothing else is offered. -/
theorem offered_questions_employer :
    let p := Draft.build { blocks := earnings }
    p.defects = [] ∧ (∀ j, ¬ Leaked p.order.blocks 2 j) ∧
      ∃ offered, p.availableForVisibility 3 = .ok offered ∧ offered.map (·.name) = ["name", "job"] ∧
        ∀ q ∈ offered, ∃ j c, p.order.blocks[j]? = some c ∧ q ∈ c.readableQuestions ∧ InReach p.order.blocks 2 j := by
  intro p
  have hp : p ∈ live [.build p.toDraft] := List.mem_singleton.2 rfl
  have hdefects : p.defects = [] := by decide +kernel
  have hblocks : p.order.blocks = earnings := order_earnings
  have hb : p.order.blocks[2]? = some earnings[2] := by rw [hblocks]; rfl
  obtain ⟨offered, hoffered, hmem, -, hleak⟩ := offered_questions _ p hp hdefects 2 earnings[2] hb
  have hnone : ∀ j, ¬ Leaked p.order.blocks 2 j := by
    intro j hj
    obtain ⟨s, ⟨hs, b, c, hb', hc, he⟩, -⟩ := hleak.1 ⟨j, hj⟩
    rw [hblocks] at hb' hc
    cases hb'
    obtain rfl | rfl : s = 0 ∨ s = 1 := by omega
    · cases hc
      cases he
    · cases hc
      exact absurd he (by decide)
  have hnames : (p.availableForVisibility 3).map (·.map (·.name)) = .ok ["name", "job"] := by
    rw [Program.availableForVisibility, hblocks]
    rfl
  rw [show p.availableForVisibility 3 = .ok offered from hoffered] at hnames
  refine ⟨hdefects, hnone, offered, hoffered, Except.ok.inj hnames, fun q hq => ?_⟩
  obtain ⟨j, c, hc, hqc, hj⟩ := (hmem q).1 hq
  exact ⟨j, c, hc, hqc, hj.resolve_right (hnone j)⟩

/-- The income comes right behind the employer of a job, so the employer is offered, which no block asks for but one
that repeats for the jobs. -/
theorem employer_offered :
    let p := Draft.build { blocks := earnings }
    p.defects = [] ∧ ∃ b q offered, p.order.blocks[3]? = some b ∧ b.isRepeated = true ∧
      p.availableForVisibility b.id = .ok offered ∧ q ∈ offered ∧
      ∀ j c, p.order.blocks[j]? = some c → q.id ∈ c.questionIds → ¬ InReach p.order.blocks 3 j := by
  intro p
  have hc : isCanonical earnings = true := by decide
  have hd : DistinctIds earnings := by decide
  have hoffered : FormProgram.availableForVisibility earnings 4 =
      some (readableAt earnings [0, 1, 2]) := rfl
  rw [show p.order.blocks = earnings from order_earnings]
  refine ⟨by decide +kernel, earnings[3], { id := 30, name := "employer", type := .text },
    readableAt earnings [0, 1, 2], rfl, rfl, ?_, by decide, fun j c hc' hq => ?_⟩
  · rw [Program.availableForVisibility, order_earnings]
    exact congrArg _ hoffered
  · rw [((isCanonical_iff_laidOut hd).1 hc).inReach_iff hd (inPreorder hc hd) (by decide)]
    have hj : j < 4 := (List.getElem?_eq_some_iff.1 hc').1
    obtain rfl | hother : j = 2 ∨ (j = 0 ∨ j = 1 ∨ j = 3) := by omega
    · decide
    · obtain rfl | rfl | rfl := hother <;>
        · cases hc'
          exact absurd hq (by decide)

end FormProgram
