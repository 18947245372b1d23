/-
Exchanging two slices of a list, whatever the blocks in them.

Two slices that hold a block each can be exchanged where they adjoin: one ends where the other starts, and the later
one ends inside the list (`Adjoining`). They divide the list into four parts, of which the two in the middle change
places, so nothing is lost or repeated, and the same exchange at the new places undoes it.
-/
import FormProgram.Proofs.InRange
import FormProgram.Proofs.Moves

set_option autoImplicit false

namespace FormProgram

variable {l m : List Block} {p q first second : Slice}

/-- Slices that hold a block each, the first ending where the second starts, and the second inside of the list. -/
structure Adjoining (l : List Block) (first second : Slice) : Prop where
  firstHolds : first.start < first.stop
  secondHolds : second.start < second.stop
  touch : first.stop = second.start
  inside : second.stop ≤ l.length

/-- The list `m` is `l` with two adjoining slices exchanged: what stands where, and how to get `l` back. -/
structure Swaps (l : List Block) (first second : Slice) (m : List Block) : Prop where
  length : m.length = l.length
  perm : m.Perm l
  outside : ∀ i, i < first.start ∨ second.stop ≤ i → m[i]? = l[i]?
  front : ∀ k < second.size, m[first.start + k]? = l[second.start + k]?
  back : ∀ k < first.size, m[first.start + second.size + k]? = l[first.start + k]?
  undone : swapSlices m ⟨first.start, first.start + second.size⟩ ⟨first.start + second.size, second.stop⟩ = some l

theorem exists_split {α : Type} {l : List α} {n : Nat} (h : n ≤ l.length) : ∃ xs ys, l = xs ++ ys ∧ xs.length = n :=
  ⟨l.take n, l.drop n, (List.take_append_drop n l).symm, List.length_take_of_le h⟩

theorem Adjoining.exists_parts (h : Adjoining l first second) :
    ∃ xs one two ys, l = xs ++ one ++ two ++ ys ∧ one ≠ [] ∧ two ≠ [] ∧
      first = ⟨xs.length, xs.length + one.length⟩ ∧
      second = ⟨xs.length + one.length, xs.length + one.length + two.length⟩ := by
  obtain ⟨start, stop⟩ := first
  obtain ⟨start', stop'⟩ := second
  obtain ⟨hf, hs, ht, hl⟩ := h
  dsimp only at hf hs ht hl
  obtain ⟨front, ys, rfl, hfront⟩ := exists_split hl
  obtain ⟨front', two, rfl, hfront'⟩ := exists_split (show stop ≤ front.length by omega)
  obtain ⟨xs, one, rfl, hxs⟩ := exists_split (show start ≤ front'.length by omega)
  simp only [List.length_append] at hfront hfront'
  have hone : 0 < one.length := by omega
  have htwo : 0 < two.length := by omega
  refine ⟨xs, one, two, ys, rfl, List.length_pos_iff.1 hone, List.length_pos_iff.1 htwo, ?_, ?_⟩
  · rw [hxs, ← hfront', hxs]
  · rw [← hfront, ← ht, ← hfront']

theorem getElem?_middle {α : Type} (xs zs : List α) {ys : List α} {k : Nat} (hk : k < ys.length) :
    (xs ++ ys ++ zs)[xs.length + k]? = ys[k]? := by
  rw [List.append_assoc, List.getElem?_append_right (Nat.le_add_right _ _), Nat.add_sub_cancel_left,
    List.getElem?_append_left hk]

theorem swaps_append (xs one two ys : List Block) (htwo : two ≠ []) :
    Swaps (xs ++ one ++ two ++ ys) ⟨xs.length, xs.length + one.length⟩
      ⟨xs.length + one.length, xs.length + one.length + two.length⟩ (xs ++ two ++ one ++ ys) where
  length := (exchange_perm xs one two ys).length_eq
  perm := exchange_perm xs one two ys
  outside i hi := by
    rcases hi with hi | hi
    · simp only [List.append_assoc, List.getElem?_append_left hi]
    · have hback : ∀ front back : List Block, front.length + back.length = one.length + two.length →
          (xs ++ front ++ back ++ ys)[i]? = ys[i - (xs.length + one.length + two.length)]? := by
        intro front back hlen
        have hparts : (xs ++ front ++ back).length = xs.length + one.length + two.length := by
          simp only [List.length_append]
          omega
        rw [List.getElem?_append_right (by rw [hparts]; exact hi), hparts]
      rw [hback two one (Nat.add_comm _ _), hback one two rfl]
  front k hk := by
    have hk : k < two.length := by simpa [Slice.size] using hk
    have hsecond := getElem?_middle (xs ++ one) ys hk
    rw [List.length_append] at hsecond
    rw [hsecond, List.append_assoc]
    exact getElem?_middle xs (one ++ ys) hk
  back k hk := by
    have hk : k < one.length := by simpa [Slice.size] using hk
    have hsecond := getElem?_middle (xs ++ two) ys hk
    rw [List.length_append] at hsecond
    simp only [Slice.size, Nat.add_sub_cancel_left]
    rw [hsecond, List.append_assoc (xs ++ one)]
    exact (getElem?_middle xs (two ++ ys) hk).symm
  undone := by
    have hback := swapSlices_append xs two one ys htwo
    simp only [Slice.size, Nat.add_sub_cancel_left]
    rwa [Nat.add_right_comm] at hback

theorem Adjoining.swaps (h : Adjoining l first second) :
    ∃ m, swapSlices l first second = some m ∧ Swaps l first second m := by
  obtain ⟨xs, one, two, ys, rfl, hone, htwo, rfl, rfl⟩ := h.exists_parts
  exact ⟨_, swapSlices_append xs one two ys hone, swaps_append xs one two ys htwo⟩

theorem swapSlices_of_not_adjoining (hp : p.start < p.stop) (hq : q.start < q.stop)
    (hpq : ¬ Adjoining l p q) (hqp : ¬ Adjoining l q p) : swapSlices l p q = none := by
  by_cases hlt : p.start < q.start
  · simp only [swapSlices, if_pos hlt]
    exact if_neg fun h => hpq ⟨hp, hq, h.1, h.2⟩
  · simp only [swapSlices, if_neg hlt]
    exact if_neg fun h => hqp ⟨hq, hp, h.1, h.2⟩

theorem Adjoining.start_lt (h : Adjoining l first second) : first.start < second.start := h.touch ▸ h.firstHolds

/-- In which order the two are named makes no difference. -/
theorem swapSlices_comm_of_holds (hp : p.start < p.stop) (hq : q.start < q.stop) :
    swapSlices l p q = swapSlices l q p := by
  by_cases hs : p.start = q.start
  · have hpq : ¬ Adjoining l p q := fun h => absurd hs (Nat.ne_of_lt h.start_lt)
    have hqp : ¬ Adjoining l q p := fun h => absurd hs.symm (Nat.ne_of_lt h.start_lt)
    rw [swapSlices_of_not_adjoining hp hq hpq hqp, swapSlices_of_not_adjoining hq hp hqp hpq]
  · exact swapSlices_comm hs

theorem swapSlices_cases (l : List Block) (hp : p.start < p.stop) (hq : q.start < q.stop) :
    (Adjoining l p q ∧ ∃ m, swapSlices l p q = some m ∧ Swaps l p q m) ∨
      (Adjoining l q p ∧ ∃ m, swapSlices l p q = some m ∧ Swaps l q p m) ∨
      (¬ Adjoining l p q ∧ ¬ Adjoining l q p ∧ swapSlices l p q = none) := by
  by_cases hpq : Adjoining l p q
  · exact .inl ⟨hpq, hpq.swaps⟩
  by_cases hqp : Adjoining l q p
  · rw [swapSlices_comm_of_holds hp hq]
    exact .inr (.inl ⟨hqp, hqp.swaps⟩)
  · exact .inr (.inr ⟨hpq, hqp, swapSlices_of_not_adjoining hp hq hpq hqp⟩)

theorem adjoining_iff (hf : first.start < first.stop) (hs : second.start < second.stop) :
    Adjoining l first second ↔ first.stop = second.start ∧ second.stop ≤ l.length :=
  ⟨fun h => ⟨h.touch, h.inside⟩, fun h => ⟨hf, hs, h.1, h.2⟩⟩

/-- **An exchange of two slices is symmetric and can be undone.** There is a result exactly where one slice ends where
the other starts and the later one ends inside the list; nothing outside of the list is looked at then. The result is a
permutation of the list: outside of the two slices all is as it was, and the blocks of the later slice stand before
those of the earlier one, each in their own order. Exchanging the two at their new places gives the list back. -/
theorem swapSlices_reversible (l : List Block) (p q : Slice) (hp : p.start < p.stop) (hq : q.start < q.stop) :
    swapSlices l p q = swapSlices l q p ∧
    ((swapSlices l p q).isSome ↔
      (p.stop = q.start ∧ q.stop ≤ l.length) ∨ (q.stop = p.start ∧ p.stop ≤ l.length)) ∧
    Strict.swapSlices l p q = some (swapSlices l p q) ∧
    ∀ m, swapSlices l p q = some m →
      (p.stop = q.start ∧ Swaps l p q m) ∨ (q.stop = p.start ∧ Swaps l q p m) := by
  refine ⟨swapSlices_comm_of_holds hp hq, ?_, Strict.swapSlices_eq hp hq, ?_⟩
  · rw [← adjoining_iff hp hq, ← adjoining_iff hq hp]
    rcases swapSlices_cases l hp hq with ⟨h, m, hm, -⟩ | ⟨h, m, hm, -⟩ | ⟨hpq, hqp, hnone⟩
    · simp [h, hm]
    · simp [h, hm]
    · simp [hpq, hqp, hnone]
  · intro m hm
    rcases swapSlices_cases l hp hq with ⟨h, m', hm', hs⟩ | ⟨h, m', hm', hs⟩ | ⟨-, -, hnone⟩
    · rw [hm] at hm'
      cases hm'
      exact .inl ⟨h.touch, hs⟩
    · rw [hm] at hm'
      cases hm'
      exact .inr ⟨h.touch, hs⟩
    · rw [hm] at hnone
      cases hnone

/-- In the household form the two blocks that end it, named first, change places with the three that stand before them,
and back again. -/
theorem swapSlices_reversible_household :
    (3 < 5) ∧ (0 < 3) ∧ ∃ m, swapSlices household ⟨3, 5⟩ ⟨0, 3⟩ = some m ∧ m.map (·.id) = [4, 5, 1, 2, 3] ∧
      swapSlices household ⟨0, 3⟩ ⟨3, 5⟩ = some m ∧ m.Perm household ∧
      swapSlices m ⟨0, 2⟩ ⟨2, 5⟩ = some household := by
  obtain ⟨hcomm, hsome, -, hswaps⟩ := swapSlices_reversible household ⟨3, 5⟩ ⟨0, 3⟩ (by decide) (by decide)
  obtain ⟨m, hm⟩ := Option.isSome_iff_exists.1 (hsome.2 (.inr (by decide)))
  have hids : (swapSlices household ⟨3, 5⟩ ⟨0, 3⟩).map (·.map (·.id)) = some [4, 5, 1, 2, 3] := by decide
  rw [hm, Option.map_some, Option.some.injEq] at hids
  rcases hswaps m hm with ⟨h, -⟩ | ⟨-, hs⟩
  · cases h
  · exact ⟨by decide, by decide, m, hm, hids, hcomm.symm.trans hm, hs.perm, hs.undone⟩

end FormProgram
