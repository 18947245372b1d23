/-
Facts about the forest of a block list, for lists of any kind: the walk downward and the parent links
upward describe the same relation, and a node is in the preorder, once, exactly when its chain of
parents ends at a root (`mem_preorder`, `nodup_preorder`).

A chain of parents has a node twice only if it runs into a cycle (`nodup_climb`), so one that ends is
shorter than the forest is large (`EndsAfter.lt_size`).
-/
import FormProgram.Forest
import Mathlib.Data.List.Flatten
import Mathlib.Data.List.Nodup

set_option autoImplicit false

namespace FormProgram.Forest

variable {f : Forest} {i j k n s : Nat}

theorem nodesAt_eq (p : Place) :
    f.nodesAt p = (List.range f.size).filter fun i => f.places[i]? == some p := by
  have hc : ∀ e ∈ f.places.zipIdx, (e.1 == p) = (f.places[e.2]? == some p) := by
    intro e he
    rw [List.mem_zipIdx_iff_getElem?.1 he]
    simp
  calc f.nodesAt p
      = (f.places.zipIdx.filter ((fun i => f.places[i]? == some p) ∘ Prod.snd)).map Prod.snd := by
        rw [nodesAt, List.filter_congr hc]
        rfl
    _ = (f.places.zipIdx.map Prod.snd).filter fun i => f.places[i]? == some p := List.filter_map.symm
    _ = _ := by rw [List.zipIdx_map_snd, List.range_eq_range', size]

theorem mem_nodesAt {p : Place} : i ∈ f.nodesAt p ↔ f.places[i]? = some p := by
  simp only [nodesAt_eq, List.mem_filter, List.mem_range, size, beq_iff_eq, and_iff_right_iff_imp]
  exact fun h => (List.getElem?_eq_some_iff.1 h).1

theorem nodup_nodesAt (p : Place) : (f.nodesAt p).Nodup := by
  rw [nodesAt_eq]
  exact List.nodup_range.filter _

theorem mem_roots : i ∈ f.roots ↔ f.places[i]? = some .root := mem_nodesAt

theorem parent?_eq_some : f.parent? j = some i ↔ f.places[j]? = some (.under i) := by
  unfold parent?
  split
  next p h => simp [h]
  next h => simpa using h i

theorem lt_size_of_parent? (h : f.parent? j = some i) : j < f.size :=
  (List.getElem?_eq_some_iff.1 (parent?_eq_some.1 h)).1

theorem mem_children : j ∈ f.children i ↔ f.parent? j = some i := by
  rw [parent?_eq_some]
  exact mem_nodesAt

/-- Nodes that are all different are no more than the forest has. -/
theorem length_le_size {nodes : List Nat} (hn : nodes.Nodup) (hlt : ∀ s ∈ nodes, s < f.size) :
    nodes.length ≤ f.size := by
  have hle := List.Nodup.length_le_of_subset hn fun s hs => List.mem_range.2 (hlt s hs)
  rwa [List.length_range] at hle

theorem parent?_of_mem_roots (h : i ∈ f.roots) : f.parent? i = none := by
  rw [parent?, mem_roots.1 h]

/-! ## Upward -/

/-- The ancestor of a node that many levels up. -/
def up (f : Forest) : Nat → Nat → Option Nat
  | 0, i => some i
  | n + 1, i => (f.parent? i).bind (f.up n)

theorem up_add (m n : Nat) : ∀ i, f.up (m + n) i = (f.up m i).bind (f.up n) := by
  induction m with
  | zero => intro i; rw [Nat.zero_add]; rfl
  | succ m ih =>
    intro i
    rw [Nat.succ_add, up, up]
    cases f.parent? i with
    | none => rfl
    | some p => exact ih p

theorem up_one : f.up 1 i = f.parent? i := by
  cases h : f.parent? i <;> simp [up, h]

theorem lt_size_of_up (hu : f.up n j = some i) (hi : i < f.size) : j < f.size := by
  cases n with
  | zero =>
    cases hu
    exact hi
  | succ n =>
    rw [up] at hu
    obtain ⟨p, hp, -⟩ := Option.bind_eq_some_iff.1 hu
    exact lt_size_of_parent? hp

/-- The chain that is climbed: the ancestors that are that many levels up at most, and the node. -/
theorem mem_climb : s ∈ f.climb n i ↔ ∃ k ≤ n, f.up k i = some s := by
  induction n generalizing i with
  | zero =>
    simp only [climb, List.mem_singleton, Nat.le_zero, exists_eq_left, up, Option.some.injEq]
    exact eq_comm
  | succ n ih =>
    rw [climb]
    constructor
    · intro hs
      cases hp : f.parent? i with
      | none =>
        simp only [hp, List.mem_singleton] at hs
        exact ⟨0, Nat.zero_le _, by rw [hs, up]⟩
      | some p =>
        simp only [hp, List.mem_append, List.mem_singleton, ih] at hs
        rcases hs with ⟨k, hk, hu⟩ | rfl
        · exact ⟨k + 1, by omega, by rw [up, hp, Option.bind_some, hu]⟩
        · exact ⟨0, Nat.zero_le _, rfl⟩
    · rintro ⟨k, hk, hu⟩
      cases k with
      | zero =>
        have his : i = s := Option.some.inj hu
        cases f.parent? i <;> simp [his]
      | succ k =>
        obtain ⟨p, hp, hu⟩ := Option.bind_eq_some_iff.1 hu
        simp only [hp, List.mem_append, ih]
        exact .inl ⟨k, by omega, hu⟩

theorem length_climb (h : f.up n i = some j) : (f.climb n i).length = n + 1 := by
  induction n generalizing i with
  | zero => rfl
  | succ n ih =>
    obtain ⟨p, hp, hu⟩ := Option.bind_eq_some_iff.1 h
    simp only [climb, hp, List.length_append, List.length_singleton, ih hu]

/-! ## Cycles -/

/-- The parent chain of a node runs into a cycle. -/
def MeetsCycle (f : Forest) (i : Nat) : Prop := ∃ k j n, f.up k i = some j ∧ f.up (n + 1) j = some j

theorem MeetsCycle.of_up (h : f.MeetsCycle j) (hu : f.up n i = some j) : f.MeetsCycle i := by
  obtain ⟨k, c, m, hk, hc⟩ := h
  exact ⟨n + k, c, m, by rw [up_add, hu, Option.bind_some, hk], hc⟩

theorem up_mul_of_cycle (h : f.up n i = some i) (times : Nat) : f.up (times * n) i = some i := by
  induction times with
  | zero =>
    rw [Nat.zero_mul]
    rfl
  | succ times ih => rw [Nat.succ_mul, up_add, ih, Option.bind_some, h]

/-- From a node that leads to a cycle there is always another parent. -/
theorem MeetsCycle.exists_up (h : f.MeetsCycle i) (n : Nat) : ∃ j, f.up n i = some j := by
  obtain ⟨k, c, m, hk, hc⟩ := h
  have hround : f.up (k + n * (m + 1)) i = some c := by
    rw [up_add, hk, Option.bind_some, up_mul_of_cycle hc]
  have hle : n ≤ k + n * (m + 1) := Nat.le_add_left_of_le (Nat.le_mul_of_pos_right n m.succ_pos)
  obtain ⟨d, hd⟩ := Nat.exists_eq_add_of_le hle
  rw [hd, up_add] at hround
  obtain ⟨j, hj, -⟩ := Option.bind_eq_some_iff.1 hround
  exact ⟨j, hj⟩

/-- A node that comes twice in a chain is on a cycle. -/
theorem nodup_climb (h : ¬ f.MeetsCycle i) : (f.climb n i).Nodup := by
  induction n generalizing i with
  | zero => exact List.nodup_singleton i
  | succ n ih =>
    rw [climb]
    cases hp : f.parent? i with
    | none => exact List.nodup_singleton i
    | some p =>
      have hup : f.up 1 i = some p := by rw [up_one, hp]
      refine List.nodup_append.2 ⟨ih fun hc => h (hc.of_up hup), List.nodup_singleton i, ?_⟩
      rintro s hs _ hi rfl
      obtain rfl := List.mem_singleton.1 hi
      obtain ⟨k, -, hu⟩ := mem_climb.1 hs
      exact h ⟨0, s, k, rfl, by rw [up, hp, Option.bind_some, hu]⟩

/-! ## Ends -/

/-- The parent chain of a node ends after that many steps, at a node that has no parent. -/
def EndsAfter (f : Forest) (i n : Nat) : Prop := ∃ r < f.size, f.parent? r = none ∧ f.up n i = some r

namespace EndsAfter

/-- Beyond the end there is nothing. -/
theorem up_eq_none (h : f.EndsAfter i n) (hn : n < k) : f.up k i = none := by
  obtain ⟨r, -, hr, hu⟩ := h
  obtain ⟨d, rfl⟩ := Nat.exists_eq_add_of_lt hn
  rw [Nat.add_assoc, up_add, hu, Option.bind_some, up, hr]
  rfl

theorem unique {m : Nat} (hm : f.EndsAfter i m) (hn : f.EndsAfter i n) : m = n := by
  obtain ⟨_, -, -, hm'⟩ := id hm
  obtain ⟨_, -, -, hn'⟩ := id hn
  rcases Nat.lt_trichotomy m n with h | h | h
  · rw [hm.up_eq_none h] at hn'; cases hn'
  · exact h
  · rw [hn.up_eq_none h] at hm'; cases hm'

theorem not_meetsCycle (h : f.EndsAfter i n) : ¬ f.MeetsCycle i := by
  intro hc
  obtain ⟨j, hj⟩ := hc.exists_up (n + 1)
  rw [h.up_eq_none n.lt_succ_self] at hj
  cases hj

theorem up_lt_size (h : f.EndsAfter i n) (hu : f.up k i = some j) : j < f.size := by
  have hk : k ≤ n := by
    by_contra hlt
    rw [h.up_eq_none (by omega)] at hu
    cases hu
  obtain ⟨r, hr, -, hn⟩ := h
  rw [← Nat.add_sub_cancel' hk, up_add, hu, Option.bind_some] at hn
  exact lt_size_of_up hn hr

/-- A chain that ends has no node twice, so it is not longer than the forest is large. -/
theorem lt_size (h : f.EndsAfter i n) : n < f.size := by
  obtain ⟨r, -, -, hr⟩ := id h
  have hlt : ∀ s ∈ f.climb n i, s < f.size := by
    intro s hs
    obtain ⟨k, -, hu⟩ := mem_climb.1 hs
    exact h.up_lt_size hu
  have hle := length_le_size (nodup_climb h.not_meetsCycle) hlt
  rwa [length_climb hr] at hle

/-- More steps than there are ancestors change nothing. -/
theorem climb_eq (h : f.EndsAfter i n) (hk : n ≤ k) : f.climb k i = f.climb n i := by
  obtain ⟨r, hr, hnone, hu⟩ := h
  induction n generalizing k i with
  | zero =>
    cases hu
    cases k with
    | zero => rfl
    | succ k => simp only [climb, hnone]
  | succ n ih =>
    obtain ⟨p, hp, hu⟩ := Option.bind_eq_some_iff.1 hu
    obtain ⟨d, rfl⟩ := Nat.exists_eq_add_of_le hk
    rw [Nat.add_right_comm, climb, climb, hp]
    dsimp only
    rw [ih (Nat.le_add_right n d) hu]

theorem chain_eq (h : f.EndsAfter i n) : f.chain i = f.climb n i := h.climb_eq (Nat.le_of_lt h.lt_size)

/-- The chain of a node is that of its parent, and then the node. -/
theorem chain_step (h : f.EndsAfter i n) : f.chain i = (f.parent? i).elim [] f.chain ++ [i] := by
  rw [h.chain_eq]
  obtain ⟨r, hr, hnone, hu⟩ := h
  cases n with
  | zero =>
    cases hu
    rw [hnone]
    rfl
  | succ n =>
    obtain ⟨p, hp, hu⟩ := Option.bind_eq_some_iff.1 hu
    have hparent : f.EndsAfter p n := ⟨r, hr, hnone, hu⟩
    rw [climb, hp, Option.elim_some, hparent.chain_eq]

end EndsAfter

/-- The parent chain of a node reaches a root in that many steps. -/
def Height (f : Forest) (i n : Nat) : Prop := ∃ r ∈ f.roots, f.up n i = some r

/-- The parent chain of a node ends at a root. -/
def Rooted (f : Forest) (i : Nat) : Prop := ∃ n, f.Height i n

theorem Height.zero (h : i ∈ f.roots) : f.Height i 0 := ⟨i, h, rfl⟩

theorem Height.of_up {h : Nat} (hi : f.Height i h) (hu : f.up n j = some i) : f.Height j (n + h) := by
  obtain ⟨r, hr, hi⟩ := hi
  refine ⟨r, hr, ?_⟩
  rw [up_add, hu]
  exact hi

theorem Height.endsAfter (h : f.Height i n) : f.EndsAfter i n := by
  obtain ⟨r, hr, hu⟩ := h
  exact ⟨r, (List.getElem?_eq_some_iff.1 (mem_roots.1 hr)).1, parent?_of_mem_roots hr, hu⟩

theorem Height.unique {m : Nat} (hm : f.Height i m) (hn : f.Height i n) : m = n := hm.endsAfter.unique hn.endsAfter

theorem Height.lt_size (h : f.Height i n) : n < f.size := h.endsAfter.lt_size

/-! ## Downward -/

/-- The walk below a node finds the nodes that have it among their nearest ancestors. -/
theorem mem_walk : j ∈ f.walk n i ↔ ∃ k < n, f.up k j = some i := by
  induction n generalizing i with
  | zero => simp [walk]
  | succ n ih =>
    simp only [walk, List.mem_cons, List.mem_flatMap, mem_children, ih]
    constructor
    · rintro (rfl | ⟨c, hc, k, hk, hu⟩)
      · exact ⟨0, by omega, rfl⟩
      · refine ⟨k + 1, by omega, ?_⟩
        rw [up_add, hu, Option.bind_some, up_one, hc]
    · rintro ⟨k, hk, hu⟩
      cases k with
      | zero =>
        cases hu
        exact .inl rfl
      | succ k =>
        rw [up_add] at hu
        obtain ⟨c, hc, hp⟩ := Option.bind_eq_some_iff.1 hu
        rw [up_one] at hp
        exact .inr ⟨c, hp, k, by omega, hc⟩

/-- Nodes found below two different nodes of one height are different. -/
theorem Height.disjoint_walk {h : Nat} {a b : Nat} (ha : f.Height a h) (hb : f.Height b h) (hne : a ≠ b) :
    List.Disjoint (f.walk n a) (f.walk n b) := by
  intro x hxa hxb
  obtain ⟨p, -, hp⟩ := mem_walk.1 hxa
  obtain ⟨q, -, hq⟩ := mem_walk.1 hxb
  have hpq : p = q := Nat.add_right_cancel ((ha.of_up hp).unique (hb.of_up hq))
  rw [hpq, hq] at hp
  cases hp
  exact hne rfl

theorem Height.nodup_walk {h : Nat} (hi : f.Height i h) : (f.walk n i).Nodup := by
  induction n generalizing i h with
  | zero => exact List.nodup_nil
  | succ n ih =>
    have hchild : ∀ c ∈ f.children i, f.Height c (1 + h) := fun c hc =>
      hi.of_up (by rw [up_one, mem_children.1 hc])
    rw [walk, List.nodup_cons, List.nodup_flatMap]
    refine ⟨?_, fun c hc => ih (hchild c hc), ?_⟩
    · intro hmem
      obtain ⟨c, hc, hw⟩ := List.mem_flatMap.1 hmem
      obtain ⟨k, -, hu⟩ := mem_walk.1 hw
      have := hi.unique ((hchild c hc).of_up hu)
      omega
    · refine (nodup_nodesAt (.under i)).imp_of_mem ?_
      intro a b ha hb hne
      exact (hchild a ha).disjoint_walk (hchild b hb) hne

theorem mem_preorder : i ∈ f.preorder ↔ f.Rooted i := by
  simp only [preorder, subtree, List.mem_flatMap, mem_walk]
  constructor
  · rintro ⟨r, hr, k, -, hu⟩
    exact ⟨k, r, hr, hu⟩
  · rintro ⟨k, r, hr, hu⟩
    exact ⟨r, hr, k, Height.lt_size ⟨r, hr, hu⟩, hu⟩

theorem nodup_preorder : f.preorder.Nodup := by
  rw [preorder, List.nodup_flatMap]
  refine ⟨fun r hr => (Height.zero hr).nodup_walk, ?_⟩
  refine (nodup_nodesAt .root).imp_of_mem ?_
  intro a b ha hb hne
  exact (Height.zero ha).disjoint_walk (Height.zero hb) hne

theorem sublist_flatMap {α : Type} {g : α → List α} {l : List α} (h : ∀ a ∈ l, [a].Sublist (g a)) :
    l.Sublist (l.flatMap g) := by
  have hs := List.Sublist.flatMap_right l h
  rwa [List.flatMap_singleton' l] at hs

theorem sublist_flatMap_of_mem {α β : Type} {g : α → List β} {l : List α} {a : α} (h : a ∈ l) :
    (g a).Sublist (l.flatMap g) := by
  have hs := (List.singleton_sublist.2 h).flatMap g
  rwa [List.flatMap_singleton g a] at hs

theorem singleton_sublist_walk (hn : 0 < n) : [i].Sublist (f.walk n i) :=
  List.singleton_sublist.2 (mem_walk.2 ⟨0, hn, rfl⟩)

theorem children_sublist_walk (h : j ∈ f.walk n i) : (f.children j).Sublist (f.walk (n + 1) i) := by
  induction n generalizing i with
  | zero => cases h
  | succ n ih =>
    rw [walk, List.mem_cons, List.mem_flatMap] at h
    rw [walk]
    refine .cons i ?_
    rcases h with rfl | ⟨c, hc, h⟩
    · exact sublist_flatMap fun c _ => singleton_sublist_walk (by omega)
    · exact (ih h).trans (sublist_flatMap_of_mem hc)

theorem roots_sublist_preorder : f.roots.Sublist f.preorder := by
  refine sublist_flatMap fun r hr => singleton_sublist_walk ?_
  have := (Height.zero hr).lt_size
  omega

theorem children_sublist_preorder (h : f.Rooted i) : (f.children i).Sublist f.preorder := by
  cases hc : f.children i with
  | nil => exact List.nil_sublist _
  | cons c cs =>
    obtain ⟨n, r, hr, hu⟩ := h
    have hchild : f.parent? c = some i := mem_children.1 (by rw [hc]; simp)
    have hlt : 1 + n < f.size := (Height.of_up ⟨r, hr, hu⟩ (by rw [up_one, hchild])).lt_size
    -- The node has a child, so it is not on the last level of the walk.
    have hw : i ∈ f.walk (f.size - 1) r := mem_walk.2 ⟨n, by omega, hu⟩
    have hs := children_sublist_walk hw
    rw [Nat.sub_add_cancel (by omega)] at hs
    rw [← hc]
    exact hs.trans (sublist_flatMap_of_mem hr)

theorem Rooted.lt_size (h : f.Rooted i) : i < f.size := by
  obtain ⟨n, h⟩ := h
  exact h.endsAfter.up_lt_size (k := 0) rfl

theorem mem_unreachable : i ∈ f.unreachable ↔ i < f.size ∧ ¬ f.Rooted i := by
  simp [unreachable, mem_preorder]

end FormProgram.Forest
