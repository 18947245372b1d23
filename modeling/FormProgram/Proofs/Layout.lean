/-
Canonical order as it is described: whatever repeats under an enumerator block stands behind it without
a gap, and nothing names an enumerator that does not stand before it.

`isCanonical_iff_laidOut`: for distinct ids this is what the one-pass check accepts and what walking
the forest leaves as it is. Orphans, blocks that name themselves and circles of enumerators are told
apart from canonical lists by all three.
-/
import FormProgram.Proofs.Site

set_option autoImplicit false

namespace FormProgram

variable {blocks : List Block}

/-- The block at position `i` names the block at position `j` as its enumerator. -/
def RepeatsAt (blocks : List Block) (i j : Nat) : Prop :=
  ∃ b c, blocks[i]? = some b ∧ blocks[j]? = some c ∧ b.enumerator = some c.id

/-- The chain of enumerators of the block at position `i` passes through position `j`. -/
inductive RepeatsUnder (blocks : List Block) : Nat → Nat → Prop
  | direct {i j : Nat} (h : RepeatsAt blocks i j) : RepeatsUnder blocks i j
  | through {i m j : Nat} (h : RepeatsAt blocks i m) (rest : RepeatsUnder blocks m j) :
      RepeatsUnder blocks i j

/-- Every repeated block stands behind its enumerator block, and the blocks whose chain passes through
an enumerator block stand right behind it. -/
structure LaidOut (blocks : List Block) : Prop where
  named : ∀ (i : Nat) (b : Block) (e : BlockId), blocks[i]? = some b → b.enumerator = some e →
    ∃ j < i, ∃ c : Block, blocks[j]? = some c ∧ c.isEnumerator = true ∧ c.id = e
  contiguous : ∀ (i : Nat) (b : Block), blocks[i]? = some b → b.isEnumerator = true →
    ∃ k, ∀ j, RepeatsUnder blocks j i ↔ i < j ∧ j ≤ i + k

namespace RepeatsUnder

theorem trans {i m j : Nat} (h : RepeatsUnder blocks i m) (h' : RepeatsUnder blocks m j) :
    RepeatsUnder blocks i j := by
  induction h with
  | direct h => exact .through h h'
  | through h _ ih => exact .through h (ih h')

theorem lt_length {i j : Nat} (h : RepeatsUnder blocks i j) : i < blocks.length := by
  cases h with
  | direct h | through h =>
    obtain ⟨b, -, hb, -⟩ := h
    exact (List.getElem?_eq_some_iff.1 hb).1

end RepeatsUnder

namespace Site

variable {k : Option BlockId} {l before earlier below later after : List Block} {b : Block}

theorem getElem?_below (s : Site k l before earlier b below later after) {p : Nat} (hp : p < below.length) :
    l[(before ++ earlier).length + 1 + p]? = some below[p] := by
  rw [s.list_tree, List.append_assoc, List.getElem?_append_right (by omega), Nat.add_assoc,
    Nat.add_sub_cancel_left, List.getElem?_append_left (by rw [List.length_cons]; omega), Nat.add_comm,
    List.getElem?_cons_succ, List.getElem?_eq_getElem hp]

/-- A position in the tree of a block holds a block of the tree. -/
theorem mem_tree (s : Site k l before earlier b below later after) {j : Nat} {x : Block}
    (hx : l[j]? = some x) (hlo : (before ++ earlier).length ≤ j)
    (hhi : j ≤ (before ++ earlier).length + below.length) : x ∈ b :: below := by
  rw [s.list_tree, List.append_assoc, List.getElem?_append_right hlo,
    List.getElem?_append_left (by rw [List.length_cons]; omega)] at hx
  exact List.mem_of_getElem? hx

/-- What names a block of the tree stands in the tree, behind its root. -/
theorem position_of_repeatsAt (s : Site none l before earlier b below later after) (hd : DistinctIds l)
    {j m : Nat} (h : RepeatsAt l j m) (hlo : (before ++ earlier).length ≤ m)
    (hhi : m ≤ (before ++ earlier).length + below.length) :
    (before ++ earlier).length < j ∧ j ≤ (before ++ earlier).length + below.length := by
  obtain ⟨x, y, hx, hy, he⟩ := h
  have hy := s.mem_tree hy hlo hhi
  by_contra hj
  have hout : x ∈ before ++ (earlier ++ later) ++ after ∨ x = b := by
    rw [s.list_tree, List.append_assoc] at hx
    rcases Nat.lt_trichotomy j (before ++ earlier).length with h | h | h
    · rw [List.getElem?_append_left h] at hx
      have := List.mem_of_getElem? hx
      simp only [List.mem_append] at this ⊢
      tauto
    · rw [h, List.getElem?_append_right (Nat.le_refl _), Nat.sub_self] at hx
      cases hx
      exact .inr rfl
    · rw [List.getElem?_append_right (by omega),
        List.getElem?_append_right (by rw [List.length_cons]; omega)] at hx
      have := List.mem_of_getElem? hx
      simp only [List.mem_append] at this ⊢
      tauto
  rcases hout with hout | rfl
  · exact s.enumerator_ne hd (by simp) hout hy he
  · exact s.enumerator_ne_self hd (by simp) hy he

theorem repeatsUnder_iff (s : Site none l before earlier b below later after) (hd : DistinctIds l) (j : Nat) :
    RepeatsUnder l j (before ++ earlier).length ↔
      (before ++ earlier).length < j ∧ j ≤ (before ++ earlier).length + below.length := by
  constructor
  · intro h
    generalize hi : (before ++ earlier).length = i at h
    induction h with
    | direct h => subst hi; exact s.position_of_repeatsAt hd h (Nat.le_refl _) (by omega)
    | through h _ ih =>
      obtain ⟨hlo, hhi⟩ := ih hi
      subst hi
      exact s.position_of_repeatsAt hd h (by omega) hhi
  · rintro ⟨hlo, hhi⟩
    obtain ⟨p, rfl⟩ : ∃ p, j = (before ++ earlier).length + 1 + p :=
      ⟨j - ((before ++ earlier).length + 1), by omega⟩
    induction p using Nat.strongRecOn with
    | _ p ih =>
      have hp : p < below.length := by omega
      have hsplit : below = below.take p ++ below[p] :: below.drop (p + 1) := by
        rw [List.getElem_cons_drop, List.take_append_drop]
      rcases s.inner.enumerator_of_split hsplit with he | ⟨c, hc, -, he⟩
      · exact .direct ⟨_, b, s.getElem?_below hp, s.getElem?, he⟩
      · obtain ⟨q, hq, rfl⟩ := List.mem_iff_getElem.1 hc
        rw [List.length_take] at hq
        rw [List.getElem_take] at he
        have hrest := ih q (by omega) (by omega) (by omega)
        exact .through ⟨_, _, s.getElem?_below hp, s.getElem?_below (by omega), he⟩ hrest

end Site

theorem laidOut_of_nested (h : Nested none blocks) (hd : DistinctIds blocks) : LaidOut blocks := by
  refine ⟨fun i b e hb he => ?_, fun i b hb _ => ?_⟩
  · obtain ⟨before, earlier, below, later, after, rfl, s⟩ := h.site_at hb
    rcases s.around.target with ⟨hk, -, -⟩ | ⟨c, hc, hen, hec⟩
    · rw [hk] at he
      cases he
    · rw [he] at hec
      cases hec
      obtain ⟨j, hj, rfl⟩ := List.mem_iff_getElem.1 hc
      refine ⟨j, by rw [List.length_append]; omega, _, ?_, hen, rfl⟩
      rw [s.list, List.append_assoc, List.getElem?_append_left hj, List.getElem?_eq_getElem hj]
  · obtain ⟨before, earlier, below, later, after, rfl, s⟩ := h.site_at hb
    exact ⟨below.length, s.repeatsUnder_iff hd⟩

namespace LaidOut

variable {i j : Nat} {b c : Block}

/-- A block that is named stands before the one that names it and is an enumerator. -/
theorem of_repeatsAt (h : LaidOut blocks) (hd : DistinctIds blocks) (hji : RepeatsAt blocks j i) :
    i < j ∧ ∀ b, blocks[i]? = some b → b.isEnumerator = true := by
  obtain ⟨x, y, hx, hy, he⟩ := hji
  obtain ⟨i', hi', c, hc, hen, hid⟩ := h.named j x y.id hx he
  have : i' = i := hd.position_unique hc hy hid
  subst this
  rw [hc] at hy
  cases hy
  refine ⟨hi', fun b hb => ?_⟩
  rw [hc] at hb
  cases hb
  exact hen

theorem of_repeatsUnder (h : LaidOut blocks) (hd : DistinctIds blocks) (hji : RepeatsUnder blocks j i) :
    i < j ∧ ∀ b, blocks[i]? = some b → b.isEnumerator = true := by
  induction hji with
  | direct hji => exact h.of_repeatsAt hd hji
  | through hjm _ ih => exact ⟨Nat.lt_trans ih.1 (h.of_repeatsAt hd hjm).1, ih.2⟩

/-- Behind every block there is a stretch of all that repeats under it, empty behind a block that is no
enumerator. -/
theorem exists_stretch (h : LaidOut blocks) (hd : DistinctIds blocks) (hb : blocks[i]? = some b) :
    ∃ k, (∀ j, RepeatsUnder blocks j i ↔ i < j ∧ j ≤ i + k) ∧ (b.isEnumerator = false → k = 0) := by
  cases hen : b.isEnumerator with
  | true =>
    obtain ⟨k, hk⟩ := h.contiguous i b hb hen
    exact ⟨k, hk, by simp⟩
  | false =>
    refine ⟨0, fun j => ⟨fun hj => ?_, fun hj => by omega⟩, fun _ => rfl⟩
    have := (h.of_repeatsUnder hd hj).2 b hb
    rw [hen] at this
    cases this

/-- A stretch of positions that all that repeats under it belongs to is nested under `k`, when each of its
blocks repeats under `k` or under an earlier position of the stretch. -/
theorem nested_stretch (h : LaidOut blocks) (hd : DistinctIds blocks) {n : Nat} :
    ∀ {s : Nat} {k : Option BlockId}, s + n ≤ blocks.length →
      (∀ j b, s ≤ j → j < s + n → blocks[j]? = some b →
        b.enumerator = k ∨ ∃ m, s ≤ m ∧ m < j ∧ RepeatsAt blocks j m) →
      (∀ m j, s ≤ m → m < s + n → RepeatsUnder blocks j m → j < s + n) →
      Nested k ((blocks.drop s).take n) := by
  induction n using Nat.strongRecOn with
  | _ n ih =>
    intro s k hlen hup hdown
    cases n with
    | zero => exact .nil
    | succ n =>
      have hs : s < blocks.length := by omega
      have hb : blocks[s]? = some blocks[s] := List.getElem?_eq_getElem hs
      obtain ⟨m, hm, hleaf⟩ := h.exists_stretch hd hb
      have hmn : m ≤ n := by
        by_contra hlt
        have := hdown s (s + m) (Nat.le_refl _) (by omega) ((hm _).2 (by omega))
        omega
      obtain ⟨r, rfl⟩ := Nat.exists_eq_add_of_le hmn
      rw [List.drop_eq_getElem_cons hs, List.take_succ_cons, List.take_add, List.drop_drop]
      refine .cons ?_ (fun hen => by rw [hleaf hen, List.take_zero]) ?_ ?_
      · rcases hup s _ (Nat.le_refl _) (by omega) hb with he | ⟨p, hp, hps, -⟩
        · exact he
        · omega
      · refine ih m (by omega) (by omega) (fun j x hj hjm hx => ?_) (fun p j hp hpm hjp => ?_)
        · -- The chain of the block passes through `s`: at once, or by an earlier block of this stretch.
          cases (hm j).2 (by omega) with
          | direct hjs =>
            obtain ⟨x', y, hx', hy, he⟩ := hjs
            rw [hx] at hx'
            rw [hb] at hy
            cases hx'
            cases hy
            exact .inl he
          | through hjp hps =>
            exact .inr ⟨_, ((hm _).1 hps).1, (h.of_repeatsAt hd hjp).1, hjp⟩
        · have := ((hm j).1 (hjp.trans ((hm p).2 (by omega)))).2
          omega
      · refine ih r (by omega) (by omega) (fun j x hj hjr hx => ?_) (fun p j hp hpr hjp => ?_)
        · rcases hup j x (by omega) (by omega) hx with he | ⟨p, hp, hpj, hjp⟩
          · exact .inl he
          · refine .inr ⟨p, ?_, hpj, hjp⟩
            -- An enumerator at `s` or in the stretch behind it would have the block in that stretch.
            by_contra hps
            have hjs : RepeatsUnder blocks j s := by
              rcases Nat.eq_or_lt_of_le hp with rfl | hsp
              · exact .direct hjp
              · exact .through hjp ((hm p).2 (by omega))
            have := ((hm j).1 hjs).2
            omega
        · have := hdown p j (by omega) (by omega) hjp
          omega

theorem nested (h : LaidOut blocks) (hd : DistinctIds blocks) : Nested none blocks := by
  have hn := h.nested_stretch hd (n := blocks.length) (s := 0) (k := none) (by omega) ?_ ?_
  · simpa using hn
  · intro j b _ _ hb
    cases he : b.enumerator with
    | none => exact .inl rfl
    | some e =>
      obtain ⟨m, hm, c, hc, -, rfl⟩ := h.named j b e hb he
      exact .inr ⟨m, by omega, hm, b, c, hb, hc, he⟩
  · intro m j _ _ hj
    have := hj.lt_length
    omega

end LaidOut

theorem isCanonical_iff_laidOut (hd : DistinctIds blocks) : isCanonical blocks = true ↔ LaidOut blocks := by
  rw [isCanonical_iff_nested]
  exact ⟨fun h => laidOut_of_nested h hd, fun h => h.nested hd⟩

theorem isCanonical_iff_canonicalOrder_eq (hd : DistinctIds blocks) :
    isCanonical blocks = true ↔ canonicalOrder blocks = blocks := by
  constructor
  · exact fun h => canonicalOrder_eq_self (isCanonical_iff_nested.1 h) hd
  · intro h
    rw [← h]
    exact isCanonical_canonicalOrder blocks

/-- **Three readings of canonical order agree** on every list of blocks with distinct ids: the one-pass
check accepts it, walking its forest changes nothing, and every enumerator block is followed at once by
exactly what repeats under it. -/
theorem canonical_readings_agree (blocks : List Block) (hd : DistinctIds blocks) :
    (isCanonical blocks = true ↔ canonicalOrder blocks = blocks) ∧
      (isCanonical blocks = true ↔ LaidOut blocks) :=
  ⟨isCanonical_iff_canonicalOrder_eq hd, isCanonical_iff_laidOut hd⟩

theorem canonical_readings_agree_household :
    DistinctIds household ∧ canonicalOrder household = household ∧ LaidOut household := by
  have hd : DistinctIds household := by decide
  have hc : isCanonical household = true := by decide
  obtain ⟨horder, hlaid⟩ := canonical_readings_agree household hd
  exact ⟨hd, horder.1 hc, hlaid.1 hc⟩

end FormProgram
