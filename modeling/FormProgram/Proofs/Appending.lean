/-
Inserting a block is appending it and ordering again.

An insertion puts one block into a list that is in order; ordering builds the whole list anew from the sibling
groups. Both lead to the same list because an inserted block goes behind the whole of its group, as an appended one
does (`Arranges.insertBlock`), and the groups leave one canonical list only (`Arranges.eq_canonicalOrder`). So a
list inserted block by block is put in order on the way (`Truthful.insertAll`).
-/
import FormProgram.Proofs.CanonicalOrder
import FormProgram.Proofs.Session

set_option autoImplicit false

namespace FormProgram

variable {l m xs : List Block} {b : Block}

/-- `l` has the blocks of `xs` in canonical order, every sibling group as it is in `xs`. -/
structure Arranges (l xs : List Block) : Prop where
  nested : Nested none l
  perm : l.Perm xs
  groups : ∀ k, group l k = group xs k

/-- The enumerator that the block names, if any, is there. -/
def HasEnumeratorOf (l : List Block) (b : Block) : Prop :=
  ∀ e ∈ b.enumerator, ∃ c ∈ l, c.id = e ∧ c.isEnumerator = true

instance : Decidable (HasEnumeratorOf l b) :=
  decidable_of_iff ((b.enumerator.all fun e => l.any fun c => c.id == e && c.isEnumerator) = true) (by
    cases h : b.enumerator <;> simp [HasEnumeratorOf, h])

/-- Every repeated block comes after its enumerator. -/
def EnumeratorsFirst (l : List Block) : Prop := ∀ i, (h : i < l.length) → HasEnumeratorOf (l.take i) l[i]

instance : Decidable (EnumeratorsFirst l) := Nat.decidableBallLT l.length fun i h => HasEnumeratorOf (l.take i) l[i]

/-- What an insertion makes of a program. -/
structure Appended (p : Program) (b : Block) (q : Program) : Prop where
  details : q.details = p.details
  blocks : q.blocks = canonicalOrder (p.blocks ++ [b])
  canonical : isCanonical q.blocks = true
  /-- Without the block the program is in order as it was. -/
  rest : q.blocks.filter (·.id != b.id) = canonicalOrder p.blocks
  last : (group q.blocks b.enumerator).getLast? = some b

theorem DistinctIds.of_append (hd : DistinctIds (xs ++ [b])) : DistinctIds xs ∧ ∀ x ∈ xs, x.id ≠ b.id := by
  obtain ⟨hxs, -, hne⟩ := DistinctIds.append.1 hd
  exact ⟨hxs, fun x hx => hne x hx b (List.mem_singleton.2 rfl)⟩

theorem EnumeratorsFirst.split {rest : List Block} (h : EnumeratorsFirst (xs ++ b :: rest)) : HasEnumeratorOf xs b := by
  have hb := h xs.length (by simp)
  rwa [List.take_left' rfl, List.getElem_append_right (Nat.le_refl _), getElem_congr_idx (Nat.sub_self _)] at hb

namespace Arranges

theorem eq_canonicalOrder (h : Arranges l xs) (hd : DistinctIds xs) : l = canonicalOrder xs := by
  rw [← canonicalOrder_congr hd h.perm h.groups]
  exact (canonicalOrder_eq_self h.nested ((DistinctIds.perm h.perm).2 hd)).symm

theorem of_formed (h : Formed xs) : Arranges (FormProgram.canonicalOrder xs) xs :=
  ⟨nested_canonicalOrder xs, canonicalOrder_perm h, group_canonicalOrder h⟩

/-- **An insertion arranges one block more**, the last of its group. -/
theorem insertBlock (h : Arranges l xs) (hd : DistinctIds xs) (hi : FormProgram.insertBlock l b = .ok m) :
    Arranges m (xs ++ [b]) := by
  have hdl : DistinctIds l := (DistinctIds.perm h.perm).2 hd
  obtain ⟨front, back, hl, hm, hback⟩ := insertBlock_behind_group h.nested hdl hi
  refine ⟨?_, ?_, fun k => ?_⟩
  · rcases insertBlock_cases h.nested hdl b with ⟨-, he⟩ | ⟨-, e, -, -, he⟩ | ⟨-, -, m', hok, -, hnested⟩
    · rw [hi] at he
      cases he
    · rw [hi] at he
      cases he
    · rw [hi] at hok
      cases hok
      exact hnested
  · rw [hm]
    refine List.perm_middle.trans ?_
    rw [← hl]
    exact (h.perm.cons b).trans (List.perm_append_singleton b xs).symm
  · have hgroups := h.groups k
    rw [hm, ← List.singleton_append, group_append, group_append, group_append, ← hgroups, hl, group_append,
      List.append_assoc]
    by_cases hk : b.enumerator = k
    · -- in its own group the block is the last, since none of them stands behind it
      have hnone : group back k = [] := group_eq_nil_of_ne fun x hx => hk ▸ hback x hx
      rw [hnone, List.append_nil, List.nil_append]
    · have hnone : group [b] k = [] := group_eq_nil_of_ne fun x hx => by rwa [List.mem_singleton.1 hx]
      rw [hnone, List.append_nil, List.nil_append]

end Arranges

namespace Program

variable {p q : Program}

/-- A new block whose enumerator is there is inserted. -/
theorem insert_arranges (ha : Arranges p.order.blocks xs) (hd : DistinctIds (xs ++ [b]))
    (hb : HasEnumeratorOf xs b) :
    ∃ q, p.insert b = .ok q ∧ q.details = p.details ∧ Arranges q.blocks (xs ++ [b]) := by
  obtain ⟨hxs, hnew⟩ := hd.of_append
  have hdl : DistinctIds p.order.blocks := (DistinctIds.perm ha.perm).2 hxs
  rcases insertBlock_cases ha.nested hdl b with ⟨⟨x, hx, hid⟩, -⟩ | ⟨-, e, he, hlacks, -⟩ | ⟨-, -, m, hok, -⟩
  · exact absurd hid (hnew x (ha.perm.mem_iff.1 hx))
  · obtain ⟨c, hc, hid, hen⟩ := hb e he
    rw [hlacks c (ha.perm.mem_iff.2 hc) hid] at hen
    cases hen
  · refine ⟨p.order.withBlocks m, ?_, order_details, ha.insertBlock hxs hok⟩
    rw [insert, hok]

namespace Truthful

variable (h : p.Truthful)
include h

/-- **A list inserted block by block is put in order**, each block with its enumerator before it. -/
theorem insertAll (ha : Arranges p.blocks xs) {rest : List Block} (hd : DistinctIds (xs ++ rest))
    (he : EnumeratorsFirst (xs ++ rest)) :
    ∃ q, rest.foldlM Program.insert p = .ok q ∧ q.details = p.details ∧ Arranges q.blocks (xs ++ rest) := by
  induction rest generalizing p xs with
  | nil => exact ⟨p, rfl, rfl, by rwa [List.append_nil]⟩
  | cons b rest ih =>
    have hb := he.split
    rw [List.append_cons] at hd he ⊢
    have hblocks : p.order.blocks = p.blocks := h.order_blocks_of_canonical (isCanonical_iff_nested.2 ha.nested)
    obtain ⟨q, hq, hdetails, haq⟩ := insert_arranges (hblocks ▸ ha) (DistinctIds.append.1 hd).1 hb
    obtain ⟨r, hr, hrest, har⟩ := ih (insert hq) haq hd he
    refine ⟨r, ?_, hrest.trans hdetails, har⟩
    rw [List.foldlM_cons, hq]
    exact hr

section Formed

variable (hf : Formed p.blocks)
include hf

theorem order_arranges : Arranges p.order.blocks p.blocks := by
  rw [h.order_blocks_of_distinct hf.distinct]
  exact .of_formed hf

theorem insert_duplicate_iff :
    p.insert b = .error (.duplicateBlockId p.id b.id) ↔ ∃ c ∈ p.blocks, c.id = b.id := by
  rcases h.insert_cases hf b with ⟨hold, herr⟩ | ⟨hnew, e, -, -, herr⟩ | ⟨hnew, -, q, hok, -⟩
  · exact iff_of_true herr hold
  · rw [herr]
    exact iff_of_false nofun fun ⟨c, hc, hid⟩ => hnew c hc hid
  · rw [hok]
    exact iff_of_false nofun fun ⟨c, hc, hid⟩ => hnew c hc hid

theorem insert_missing_iff (hnew : ∀ c ∈ p.blocks, c.id ≠ b.id) {e : BlockId} :
    p.insert b = .error (.blockNotFound p.id e) ↔
      b.enumerator = some e ∧ ∀ c ∈ p.blocks, c.id = e → c.isEnumerator = false := by
  rcases h.insert_cases hf b with ⟨⟨c, hc, hid⟩, -⟩ | ⟨-, e', he', hlacks, herr⟩ | ⟨-, hnamed, q, hok, -⟩
  · exact absurd hid (hnew c hc)
  · rw [herr]
    constructor
    · intro heq
      cases heq
      exact ⟨he', hlacks⟩
    · rintro ⟨he, -⟩
      rw [he'] at he
      cases he
      rfl
  · rw [hok]
    refine iff_of_false nofun ?_
    rintro ⟨he, hlacks⟩
    obtain ⟨c, hc, hid, hen⟩ := hnamed e he
    rw [hlacks c hc hid] at hen
    cases hen

/-- An inserted block comes to stand somewhere between the others. -/
theorem insert_between (hi : p.insert b = .ok q) :
    ∃ front back, p.order.blocks = front ++ back ∧ q.blocks = front ++ b :: back := by
  rw [Program.insert] at hi
  split at hi
  next m hm =>
    cases hi
    obtain ⟨front, back, hl, hm, -⟩ := insertBlock_behind_group h.nested_order (h.distinct_order hf) hm
    exact ⟨front, back, hl, hm⟩
  next => cases hi

theorem insert_appended (hnew : ∀ c ∈ p.blocks, c.id ≠ b.id) (hb : HasEnumeratorOf p.blocks b) :
    ∃ q, p.insert b = .ok q ∧ Appended p b q := by
  have hd : DistinctIds (p.blocks ++ [b]) := by
    rw [DistinctIds.perm (List.perm_append_singleton b p.blocks), DistinctIds.cons]
    exact ⟨hnew, hf.distinct⟩
  obtain ⟨q, hq, hdetails, ha⟩ := insert_arranges (h.order_arranges hf) hd hb
  refine ⟨q, hq, hdetails, ha.eq_canonicalOrder hd, isCanonical_iff_nested.2 ha.nested, ?_, ?_⟩
  · have hold : ∀ c ∈ p.order.blocks, (c.id != b.id) = true := fun c hc =>
      bne_iff_ne.2 (hnew c ((h.order_perm hf).mem_iff.1 hc))
    rw [← h.order_blocks_of_distinct hf.distinct]
    obtain ⟨front, back, hl, hm⟩ := h.insert_between hf hq
    rw [hl] at hold
    rw [hl, hm, ← List.filter_eq_self.2 hold]
    simp
  · have hone : group [b] b.enumerator = [b] := by simp [group]
    rw [ha.groups, group_append, hone, List.getLast?_concat]

end Formed

end Truthful

end Program

/-- **Inserting agrees with appending and ordering.** Into a program without defects, in whatever order it is
stored, a block is not inserted if its id is in use, or else if it names an enumerator that no block is; otherwise
the result is the canonical order of the blocks with the new one behind them, which is the last of its group and
moves no other. So of an empty program the insertions of a list with distinct ids, each enumerator before what
repeats under it, make the canonical order of the list. -/
theorem insertion_is_appending :
    (∀ (events : List Event) (p : Program), p ∈ live events → p.defects = [] → ∀ b : Block,
      (p.insert b = .error (.duplicateBlockId p.id b.id) ↔ ∃ c ∈ p.blocks, c.id = b.id) ∧
      ((∀ c ∈ p.blocks, c.id ≠ b.id) →
        (∀ e, p.insert b = .error (.blockNotFound p.id e) ↔
          b.enumerator = some e ∧ ∀ c ∈ p.blocks, c.id = e → c.isEnumerator = false) ∧
        (HasEnumeratorOf p.blocks b → ∃ q, p.insert b = .ok q ∧ Appended p b q))) ∧
    ∀ (details : Details) (l : List Block), DistinctIds l → EnumeratorsFirst l →
      ∃ q, l.foldlM Program.insert (Draft.build { details }) = .ok q ∧ q.details = details ∧
        q.blocks = canonicalOrder l := by
  constructor
  · intro events p hp hdefects b
    have ht := live_truthful events p hp
    have hf := Program.formed_of_defects hdefects
    exact ⟨ht.insert_duplicate_iff hf, fun hnew => ⟨fun e => ht.insert_missing_iff hf hnew, ht.insert_appended hf hnew⟩⟩
  · intro details l hd he
    have hempty : Arranges [] [] := ⟨.nil, .nil, fun _ => rfl⟩
    obtain ⟨q, hq, hdetails, ha⟩ := (Program.Truthful.build { details }).insertAll hempty hd he
    exact ⟨q, hq, hdetails, ha.eq_canonicalOrder hd⟩

/-- The household form, stored with its repeated blocks in front: schools go behind the jobs and all that repeats under
them; a second summary and a block under the summary are refused. Block by block, with the summary before the jobs,
the form is made from nothing. -/
theorem insertion_is_appending_household :
    let start : Program :=
      Draft.build { blocks := [household[3], household[2], household[0], household[1], household[4]] }
    let schools : Block := { id := 6, name := "schools", enumerator := some 2 }
    let drafted : List Block := [household[1], household[0], household[4], household[2], household[3]]
    start.defects = [] ∧
      (∃ q, start.insert schools = .ok q ∧ q.blocks = canonicalOrder (start.blocks ++ [schools]) ∧
        (group q.blocks (some 2)).getLast? = some schools ∧
        q.blocks.filter (·.id != 6) = canonicalOrder start.blocks) ∧
      start.insert { schools with id := 5 } = .error (.duplicateBlockId 0 5) ∧
      start.insert { schools with enumerator := some 5 } = .error (.blockNotFound 0 5) ∧
      ∃ q, drafted.foldlM Program.insert (Draft.build {}) = .ok q ∧ q.blocks = canonicalOrder drafted ∧
        q.blocks.map (·.id) = [2, 3, 4, 1, 5] := by
  intro start schools drafted
  have hp : start ∈ live [.build start.toDraft] := List.mem_singleton.2 rfl
  have hdefects : start.defects = [] := by decide +kernel
  have hnew : ∀ c ∈ start.blocks, c.id ≠ schools.id := by decide
  obtain ⟨hedits, hruns⟩ := insertion_is_appending
  have hinsert := hedits _ start hp hdefects
  obtain ⟨q, hq, ha⟩ := ((hinsert schools).2 hnew).2 (by decide)
  obtain ⟨r, hr, -, hordered⟩ := hruns {} drafted (by decide) (by decide)
  refine ⟨hdefects, ⟨q, hq, ha.blocks, ha.last, ha.rest⟩, ?_, ?_, r, hr, hordered, ?_⟩
  · exact (hinsert { schools with id := 5 }).1.2 (by decide)
  · exact (((hinsert { schools with enumerator := some 5 }).2 hnew).1 5).2 (by decide)
  · rw [hordered]
    decide +kernel

end FormProgram
