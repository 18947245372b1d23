/-
The site of a block in a nested list: its sibling group with the block and all that repeats under it
in the middle, and what stands around the group.

Every block of a nested list has a site (`Nested.exists_site`). With distinct ids the subtree of the
block in the forest is the slice that the site shows (`Site.sliceAt`), and nothing outside of it
repeats under a block inside.
-/
import FormProgram.Proofs.Subtree

set_option autoImplicit false

namespace FormProgram

theorem perm_outside {α : Type} (xs mid ys : List α) : (xs ++ mid ++ ys).Perm (xs ++ ys ++ mid) := by
  rw [List.append_assoc, List.append_assoc]
  exact List.perm_append_comm.append_left xs

/-- `Around k e before after`: a list nested under `e`, put between `before` and `after`, makes one nested
under `k`, and it is the whole group of `e` there. -/
inductive Around : Option BlockId → Option BlockId → List Block → List Block → Prop
  | whole {k : Option BlockId} : Around k k [] []
  | under {k e : Option BlockId} {b : Block} {earlier before after later : List Block}
      (first : Nested k earlier) (enumerator : b.enumerator = k) (isEnumerator : b.isEnumerator = true)
      (inner : Around (some b.id) e before after) (last : Nested k later) :
      Around k e (earlier ++ b :: before) (after ++ later)

namespace Around

variable {k e : Option BlockId} {before after mid : List Block}

theorem fill (h : Around k e before after) (hm : Nested e mid) : Nested k (before ++ mid ++ after) := by
  induction h with
  | whole => simpa using hm
  | @under k e b earlier before after later first he hen _ last ih =>
    have h := first.append (.cons he (by simp [hen]) (ih hm) last)
    simpa [List.append_assoc] using h

/-- The group's enumerator is the one around it all, or stands before the group. -/
theorem target (h : Around k e before after) :
    (e = k ∧ before = [] ∧ after = []) ∨ ∃ c ∈ before, c.isEnumerator = true ∧ e = some c.id := by
  induction h with
  | whole => exact .inl ⟨rfl, rfl, rfl⟩
  | @under k e b earlier before after later _ _ hen _ _ ih =>
    rcases ih with ⟨he, -, -⟩ | ⟨c, hc, h⟩
    · exact .inr ⟨b, by simp, hen, he⟩
    · exact .inr ⟨c, by simp [hc], h⟩

theorem prepend {xs : List Block} (h : Around k e before after) (hx : Nested k xs) :
    (e = k ∧ before = [] ∧ after = []) ∨ Around k e (xs ++ before) after := by
  cases h with
  | whole => exact .inl ⟨rfl, rfl, rfl⟩
  | under first he hen inner last =>
    have h := Around.under (hx.append first) he hen inner last
    exact .inr (by simpa [List.append_assoc] using h)

/-- No block around the group belongs to it. -/
theorem enumerator_ne (h : Around k e before after) (hd : DistinctIds (before ++ after))
    (hk : ∀ x ∈ before ++ after, k ≠ some x.id) : ∀ x ∈ before ++ after, x.enumerator ≠ e := by
  induction h with
  | whole => simp
  | @under k e b earlier before after later first he hen inner last ih =>
    intro x hx hxe
    -- What the outermost siblings repeat under is `k` or one of them, and `e` is neither.
    have hsplit : ((earlier ++ b :: before) ++ (after ++ later)).Perm
        ((earlier ++ later) ++ b :: (before ++ after)) := by
      have h := perm_outside earlier (b :: (before ++ after)) later
      simpa [List.append_assoc] using h
    obtain ⟨-, hdin, hdis⟩ := DistinctIds.append.1 ((DistinctIds.perm hsplit).1 hd)
    obtain ⟨hb, hdin⟩ := DistinctIds.cons.1 hdin
    have hk' : ∀ y ∈ (earlier ++ later) ++ b :: (before ++ after), k ≠ some y.id := fun y hy =>
      hk y (hsplit.mem_iff.2 hy)
    have he' : ∃ c ∈ b :: (before ++ after), e = some c.id := by
      rcases inner.target with ⟨h, -, -⟩ | ⟨c, hc, -, h⟩
      · exact ⟨b, by simp, h⟩
      · exact ⟨c, by simp [hc], h⟩
    obtain ⟨c, hc, rfl⟩ := he'
    have hkc : k ≠ some c.id := hk' c (List.mem_append_right _ hc)
    rcases List.mem_append.1 (hsplit.mem_iff.1 hx) with hout | hin
    · rcases (first.append last).enumerator_of_mem hout with h | ⟨d, hd', h⟩
      · exact hkc (h.symm.trans hxe)
      · exact hdis d hd' c hc (Option.some.inj (h.symm.trans hxe))
    · rcases List.mem_cons.1 hin with rfl | hin
      · exact hkc (he.symm.trans hxe)
      · exact ih hdin (fun y hy h => hb y hy (Option.some.inj h).symm) x hin hxe

end Around

/-- Where `b` stands in a list nested under `k`: its group is `earlier`, then `b` with all that repeats
under it, then `later`. -/
structure Site (k : Option BlockId) (l before earlier : List Block) (b : Block)
    (below later after : List Block) : Prop where
  list : l = before ++ (earlier ++ (b :: below) ++ later) ++ after
  around : Around k b.enumerator before after
  first : Nested b.enumerator earlier
  leaf : b.isEnumerator = false → below = []
  inner : Nested (some b.id) below
  last : Nested b.enumerator later

theorem Nested.exists_site {k : Option BlockId} {l : List Block} (h : Nested k l) {xs ys : List Block}
    {b : Block} (hl : l = xs ++ b :: ys) :
    ∃ before earlier below later after, xs = before ++ earlier ∧ ys = below ++ later ++ after ∧
      Site k l before earlier b below later after := by
  induction h generalizing xs ys with
  | nil => simp at hl
  | @cons k c below rest he leaf inner later ih₁ ih₂ =>
    cases xs with
    | nil =>
      simp only [List.nil_append, List.cons.injEq] at hl
      obtain ⟨rfl, rfl⟩ := hl
      subst he
      exact ⟨[], [], below, rest, [], rfl, by simp, by simp, .whole, .nil, leaf, inner, later⟩
    | cons c' xs =>
      simp only [List.cons_append, List.cons.injEq] at hl
      obtain ⟨rfl, hl⟩ := hl
      -- The block stands in what is below `c`, or among the later siblings of `c`.
      rcases split_append hl with ⟨ys', rfl, hb⟩ | ⟨xs', rfl, hr⟩
      · obtain ⟨before, earlier, low, late, after, rfl, rfl, s⟩ := ih₁ hb
        have hen : c.isEnumerator = true := by
          cases hc : c.isEnumerator with
          | false => simp [leaf hc] at hb
          | true => rfl
        refine ⟨c :: before, earlier, low, late, after ++ rest, rfl, by simp, ?_⟩
        exact ⟨by simp [s.list], .under .nil he hen s.around later, s.first, s.leaf, s.inner, s.last⟩
      · obtain ⟨before, earlier, low, late, after, rfl, rfl, s⟩ := ih₂ hr
        have htree : Nested k (c :: below) := he ▸ Nested.tree leaf inner
        rcases s.around.prepend htree with ⟨hk, rfl, rfl⟩ | ha
        · refine ⟨[], c :: below ++ earlier, low, late, [], by simp, rfl, ?_⟩
          refine ⟨by simp [s.list], hk ▸ .whole, (hk ▸ htree).append s.first, s.leaf, s.inner, s.last⟩
        · refine ⟨c :: below ++ before, earlier, low, late, after, by simp, rfl, ?_⟩
          exact ⟨by simp [s.list], ha, s.first, s.leaf, s.inner, s.last⟩

theorem Nested.site_at {k : Option BlockId} {l : List Block} (h : Nested k l) {i : Nat} {b : Block}
    (hb : l[i]? = some b) : ∃ before earlier below later after, (before ++ earlier).length = i ∧
      Site k l before earlier b below later after := by
  obtain ⟨hi, hb⟩ := List.getElem?_eq_some_iff.1 hb
  have hl : l = l.take i ++ b :: l.drop (i + 1) := by
    rw [← hb, List.getElem_cons_drop, List.take_append_drop]
  obtain ⟨before, earlier, below, later, after, hxs, -, s⟩ := h.exists_site hl
  refine ⟨before, earlier, below, later, after, ?_, s⟩
  rw [← hxs, List.length_take]
  omega

namespace Site

variable {k : Option BlockId} {l before earlier below later after : List Block} {b : Block}

theorem nested (s : Site k l before earlier b below later after) : Nested k l := by
  rw [s.list]
  exact s.around.fill ((s.first.append (.tree s.leaf s.inner)).append s.last)

/-- The list without the block and what repeats under it. -/
theorem nested_rest (s : Site k l before earlier b below later after) :
    Nested k (before ++ (earlier ++ later) ++ after) :=
  s.around.fill (s.first.append s.last)

theorem list_tree (s : Site k l before earlier b below later after) :
    l = (before ++ earlier) ++ (b :: below) ++ (later ++ after) := by
  rw [s.list]
  simp [List.append_assoc]

theorem perm (s : Site k l before earlier b below later after) :
    l.Perm ((before ++ (earlier ++ later) ++ after) ++ b :: below) := by
  have h := perm_outside (before ++ earlier) (b :: below) (later ++ after)
  rw [s.list_tree]
  simpa [List.append_assoc] using h

theorem getElem? (s : Site k l before earlier b below later after) :
    l[(before ++ earlier).length]? = some b := by
  rw [s.list_tree]
  simp [List.append_assoc]

variable (s : Site k l before earlier b below later after) (hd : DistinctIds l)
  (hk : ∀ x ∈ l, k ≠ some x.id)

include s hd hk

/-- Nothing outside of a block's tree repeats under a block inside. -/
theorem enumerator_ne {x y : Block} (hx : x ∈ before ++ (earlier ++ later) ++ after) (hy : y ∈ b :: below) :
    x.enumerator ≠ some y.id := by
  intro h
  obtain ⟨-, -, hdis⟩ := DistinctIds.append.1 ((DistinctIds.perm s.perm).1 hd)
  rcases s.nested_rest.enumerator_of_mem hx with hxk | ⟨c, hc, hxc⟩
  · exact hk y (s.perm.mem_iff.2 (List.mem_append_right _ hy)) (hxk.symm.trans h)
  · exact hdis c hc y hy (Option.some.inj (hxc.symm.trans h))

theorem enumerator_ne_self {y : Block} (hy : y ∈ b :: below) : b.enumerator ≠ some y.id := by
  intro h
  obtain ⟨-, -, hdis⟩ := DistinctIds.append.1 ((DistinctIds.perm s.perm).1 hd)
  rcases s.around.target with ⟨he, -, -⟩ | ⟨c, hc, -, he⟩
  · exact hk y (s.perm.mem_iff.2 (List.mem_append_right _ hy)) (he.symm.trans h)
  · exact hdis c (by simp [hc]) y hy (Option.some.inj (he.symm.trans h))

/-- What repeats under a block is not in the group of the block. -/
theorem below_ne {c : Block} (hc : c ∈ below) : c.enumerator ≠ b.enumerator := by
  intro h
  rcases s.inner.enumerator_of_mem hc with hb | ⟨d, hd', hcd⟩
  · exact s.enumerator_ne_self hd hk List.mem_cons_self (h.symm.trans hb)
  · exact s.enumerator_ne_self hd hk (List.mem_cons_of_mem b hd') (h.symm.trans hcd)

/-- The groups under a block and under all that repeats under it lie behind the block. -/
theorem group_tree {y : Block} (hy : y ∈ b :: below) : group l (some y.id) = group below (some y.id) := by
  have hout : ∀ xs : List Block, (∀ x ∈ xs, x ∈ before ++ (earlier ++ later) ++ after) →
      group xs (some y.id) = [] := fun _ h => group_eq_nil_of_ne fun x hx => s.enumerator_ne hd hk (h x hx) hy
  have hb : group [b] (some y.id) = [] :=
    group_eq_nil_of_ne fun x hx => by
      rw [List.mem_singleton.1 hx]
      exact s.enumerator_ne_self hd hk hy
  rw [s.list, ← List.singleton_append (x := b)]
  simp only [group_append, hb, hout before (by simp_all), hout earlier (by simp_all),
    hout later (by simp_all), hout after (by simp_all), List.append_nil, List.nil_append]

theorem subtreeOf_eq {n : Nat} (hn : below.length < n) : subtreeOf l n b = b :: below := by
  have hd' := (DistinctIds.append.1 ((DistinctIds.perm s.perm).1 hd)).2.1
  have hself : ∀ y ∈ b :: below, b.enumerator ≠ some y.id := fun y hy => s.enumerator_ne_self hd hk hy
  have htop : group (b :: below) b.enumerator = [b] := by
    have hb : group below b.enumerator = [] := group_eq_nil_of_ne fun c hc => s.below_ne hd hk hc
    rw [← List.singleton_append, group_append, hb]
    simp [group]
  have h := (Nested.tree s.leaf s.inner).flatMap_subtreeOf l hd' hself (fun y hy => ?_) hn
  · rw [htop] at h
    simpa using h
  · have hby : group [b] (some y.id) = [] := group_eq_nil_of_ne fun x hx => by
      rw [List.mem_singleton.1 hx]
      exact hself y hy
    rw [s.group_tree hd hk hy, ← List.singleton_append, group_append, hby, List.nil_append]

end Site

/-- **The slice of a block is its tree**: in a list nested under no enumerator, from the block over all
that repeats under it. -/
theorem Site.sliceAt {l before earlier below later after : List Block} {b : Block}
    (s : Site none l before earlier b below later after) (hd : DistinctIds l) :
    (Forest.ofBlocks l).sliceAt (before ++ earlier).length =
      ⟨(before ++ earlier).length, (before ++ earlier).length + (b :: below).length⟩ := by
  have hb := s.getElem?
  have hself := s.enumerator_ne_self hd (by simp) (y := b) (by simp)
  have hlt : below.length < l.length := by
    rw [s.list]
    simp only [List.length_append, List.length_cons]
    omega
  have hlen : (Forest.ofBlocks l).subtreeSize (before ++ earlier).length = (b :: below).length := by
    rw [← s.subtreeOf_eq hd (by simp) hlt, ← pick_walk hd _ hb hself, length_pick, Forest.subtreeSize,
      Forest.subtree, size_ofBlocks]
    intro j hj
    obtain ⟨k, -, hu⟩ := Forest.mem_walk.1 hj
    have hi : (before ++ earlier).length < (Forest.ofBlocks l).size := by
      rw [size_ofBlocks]
      exact (List.getElem?_eq_some_iff.1 hb).1
    rw [← size_ofBlocks]
    exact Forest.lt_size_of_up hu hi
  rw [Forest.sliceAt, hlen]

end FormProgram
