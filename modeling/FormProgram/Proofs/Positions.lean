/-
Positions of blocks in a list: ids that occur once, the position of an id, and the blocks at a row of
positions (`pick`).
-/
import FormProgram.Edit
import Mathlib.Data.List.Nodup

set_option autoImplicit false

namespace FormProgram

variable {blocks : List Block} {b c : Block} {i j : Nat}

/-- No two blocks have the same id. -/
def DistinctIds (blocks : List Block) : Prop := (blocks.map (·.id)).Nodup

instance : Decidable (DistinctIds blocks) := inferInstanceAs (Decidable (List.Nodup _))

namespace DistinctIds

theorem nil : DistinctIds [] := List.nodup_nil

theorem cons : DistinctIds (b :: blocks) ↔ (∀ c ∈ blocks, c.id ≠ b.id) ∧ DistinctIds blocks := by
  simp only [DistinctIds, List.map_cons, List.nodup_cons, List.mem_map, not_exists, not_and]

theorem append {xs ys : List Block} :
    DistinctIds (xs ++ ys) ↔ DistinctIds xs ∧ DistinctIds ys ∧ ∀ x ∈ xs, ∀ y ∈ ys, x.id ≠ y.id := by
  simp only [DistinctIds, List.map_append, List.nodup_append, List.mem_map]
  constructor
  · rintro ⟨hx, hy, h⟩
    exact ⟨hx, hy, fun x hxm y hym => h _ ⟨x, hxm, rfl⟩ _ ⟨y, hym, rfl⟩⟩
  · rintro ⟨hx, hy, h⟩
    refine ⟨hx, hy, ?_⟩
    rintro _ ⟨x, hxm, rfl⟩ _ ⟨y, hym, rfl⟩
    exact h x hxm y hym

theorem perm {xs ys : List Block} (h : xs.Perm ys) : DistinctIds xs ↔ DistinctIds ys :=
  (h.map Block.id).nodup_iff

theorem eq_of_id (h : DistinctIds blocks) (hb : b ∈ blocks) (hc : c ∈ blocks) (hid : b.id = c.id) : b = c :=
  List.inj_on_of_nodup_map h hb hc hid

theorem position_unique (h : DistinctIds blocks) (hi : blocks[i]? = some b) (hj : blocks[j]? = some c)
    (hid : b.id = c.id) : i = j := by
  have hli : i < blocks.length := (List.getElem?_eq_some_iff.1 hi).1
  have hmap : (blocks.map (·.id))[i]? = (blocks.map (·.id))[j]? := by
    rw [List.getElem?_map, List.getElem?_map, hi, hj, Option.map_some, Option.map_some, hid]
  exact (List.getElem?_inj (by rwa [List.length_map]) h).1 hmap

end DistinctIds

theorem block_of_positionOf {id : BlockId} (h : positionOf blocks id = some i) :
    ∃ b, blocks[i]? = some b ∧ b.id = id := by
  obtain ⟨hi, hb, -⟩ := List.findIdx?_eq_some_iff_getElem.1 h
  exact ⟨blocks[i], List.getElem?_eq_getElem hi, by simpa using hb⟩

theorem positionOf_eq_none {id : BlockId} : positionOf blocks id = none ↔ ∀ b ∈ blocks, b.id ≠ id := by
  simp [positionOf, List.findIdx?_eq_none_iff]

theorem exists_positionOf (hb : b ∈ blocks) : ∃ i, positionOf blocks b.id = some i := by
  cases h : positionOf blocks b.id with
  | none => exact absurd rfl (positionOf_eq_none.1 h b hb)
  | some i => exact ⟨i, rfl⟩

theorem DistinctIds.positionOf (h : DistinctIds blocks) (hi : blocks[i]? = some b) :
    FormProgram.positionOf blocks b.id = some i := by
  obtain ⟨j, hj⟩ := exists_positionOf (List.mem_of_getElem? hi)
  obtain ⟨c, hc, hid⟩ := block_of_positionOf hj
  rw [hj, h.position_unique hc hi hid]

theorem firstDuplicateAfter_eq_none {seen : List BlockId} :
    firstDuplicateAfter seen blocks = none ↔ DistinctIds blocks ∧ ∀ b ∈ blocks, b.id ∉ seen := by
  induction blocks generalizing seen with
  | nil => simp [firstDuplicateAfter, DistinctIds.nil]
  | cons b blocks ih =>
    rw [firstDuplicateAfter, DistinctIds.cons]
    by_cases hb : b.id ∈ seen
    · simp [hb]
    · simp only [List.contains_eq_mem, hb, decide_false, Bool.false_eq_true, if_false, ih, List.mem_cons,
        not_or]
      constructor
      · rintro ⟨hd, h⟩
        refine ⟨⟨fun c hc => (h c hc).1, hd⟩, ?_⟩
        rintro c (rfl | hc)
        · exact hb
        · exact (h c hc).2
      · rintro ⟨⟨hne, hd⟩, h⟩
        exact ⟨hd, fun c hc => ⟨hne c hc, h c (.inr hc)⟩⟩

theorem firstDuplicate_eq_none : firstDuplicate blocks = none ↔ DistinctIds blocks := by
  simp [firstDuplicate, firstDuplicateAfter_eq_none]

theorem firstDuplicateAfter_eq_some {seen : List BlockId} {id : BlockId}
    (h : firstDuplicateAfter seen blocks = some id) :
    ∃ before b after, blocks = before ++ b :: after ∧ b.id = id ∧ DistinctIds before ∧
      (∀ c ∈ before, c.id ∉ seen) ∧ (b.id ∈ seen ∨ ∃ c ∈ before, c.id = b.id) := by
  induction blocks generalizing seen with
  | nil => cases h
  | cons a blocks ih =>
    rw [firstDuplicateAfter, List.contains_eq_mem] at h
    by_cases ha : a.id ∈ seen
    · simp only [ha, decide_true, if_true, Option.some.injEq] at h
      exact ⟨[], a, blocks, rfl, h, .nil, nofun, .inl ha⟩
    · simp only [ha, decide_false, Bool.false_eq_true, if_false] at h
      obtain ⟨before, b, after, rfl, hid, hd, hnew, hrepeat⟩ := ih h
      simp only [List.mem_cons, not_or] at hnew hrepeat
      refine ⟨a :: before, b, after, rfl, hid, DistinctIds.cons.2 ⟨fun c hc => (hnew c hc).1, hd⟩, ?_, ?_⟩
      · rintro c (_ | ⟨_, hc⟩)
        · exact ha
        · exact (hnew c hc).2
      · rcases hrepeat with (hba | hb) | ⟨c, hc, hcb⟩
        · exact .inr ⟨a, List.mem_cons_self, hba.symm⟩
        · exact .inl hb
        · exact .inr ⟨c, List.mem_cons_of_mem a hc, hcb⟩

/-- The first id that repeats is that of the first block with an id that has been there before. -/
theorem firstDuplicate_eq_some {id : BlockId} (h : firstDuplicate blocks = some id) :
    ∃ before b after, blocks = before ++ b :: after ∧ b.id = id ∧ DistinctIds before ∧
      ∃ c ∈ before, c.id = b.id := by
  obtain ⟨before, b, after, hl, hid, hd, -, hrepeat⟩ := firstDuplicateAfter_eq_some h
  exact ⟨before, b, after, hl, hid, hd, hrepeat.resolve_left List.not_mem_nil⟩

theorem pick_cons {positions : List Nat} (h : blocks[i]? = some b) :
    pick blocks (i :: positions) = b :: pick blocks positions := by
  rw [pick, List.filterMap_cons_some h]
  rfl

theorem pick_flatMap {f : Nat → List Nat} {positions : List Nat} :
    pick blocks (positions.flatMap f) = positions.flatMap fun i => pick blocks (f i) := by
  induction positions with
  | nil => rfl
  | cons i positions ih =>
    rw [List.flatMap_cons, List.flatMap_cons, ← ih]
    exact List.filterMap_append

/-- Rows of positions that hold what a function makes of the block they stand for. -/
theorem pick_flatMap_eq {f : Nat → List Nat} {g : Block → List Block} {positions : List Nat}
    (h : ∀ i ∈ positions, ∃ b, blocks[i]? = some b ∧ pick blocks (f i) = g b) :
    pick blocks (positions.flatMap f) = (pick blocks positions).flatMap g := by
  rw [pick_flatMap]
  induction positions with
  | nil => rfl
  | cons i positions ih =>
    obtain ⟨b, hb, hf⟩ := h i (by simp)
    rw [List.flatMap_cons, pick_cons hb, List.flatMap_cons, hf, ih fun j hj => h j (by simp [hj])]

theorem mem_pick {positions : List Nat} : b ∈ pick blocks positions ↔ ∃ i ∈ positions, blocks[i]? = some b :=
  List.mem_filterMap

theorem map_some_pick {positions : List Nat} (h : ∀ i ∈ positions, i < blocks.length) :
    (pick blocks positions).map some = positions.map (blocks[·]?) := by
  induction positions with
  | nil => rfl
  | cons i positions ih =>
    have hi : i < blocks.length := h i (by simp)
    have hb := List.getElem?_eq_getElem hi
    rw [pick_cons hb, List.map_cons, List.map_cons, hb, ih fun j hj => h j (by simp [hj])]

theorem length_pick {positions : List Nat} (h : ∀ i ∈ positions, i < blocks.length) :
    (pick blocks positions).length = positions.length := by
  simpa using congrArg List.length (map_some_pick h)

theorem pick_range : pick blocks (List.range blocks.length) = blocks := by
  induction blocks with
  | nil => rfl
  | cons b blocks ih =>
    rw [List.length_cons, List.range_succ_eq_map, pick_cons (b := b) rfl]
    congr 1
    rw [pick, List.filterMap_map]
    exact ih

/-- The positions whose blocks pass hold the blocks that pass, in list order. -/
theorem pick_filter_range {keep : Nat → Bool} {pass : Block → Bool}
    (h : ∀ i b, blocks[i]? = some b → keep i = pass b) :
    pick blocks ((List.range blocks.length).filter keep) = blocks.filter pass := by
  have hc : ∀ i, (if keep i = true then blocks[i]? else none) = (blocks[i]?).filter pass := by
    intro i
    cases hi : blocks[i]? with
    | none => simp
    | some b => simp [h i b hi, Option.filter]
  calc pick blocks ((List.range blocks.length).filter keep)
      = (List.range blocks.length).filterMap fun i => (blocks[i]?).filter pass := by
        rw [pick, List.filterMap_filter]
        exact congrArg (List.filterMap · _) (funext hc)
    _ = (pick blocks (List.range blocks.length)).filter pass := List.filter_filterMap.symm
    _ = blocks.filter pass := by rw [pick_range]

theorem pick_perm {ps qs : List Nat} (h : ps.Perm qs) : (pick blocks ps).Perm (pick blocks qs) :=
  h.filterMap _

end FormProgram
