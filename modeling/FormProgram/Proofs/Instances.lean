/-
The programs that are alive at some point: built from drafts, copied, edited, taken apart and rebuilt, and
asked for their order and their questions in between.

A program notes what it has been asked (`askOrdered`, `askQuestion`), and an edit asks for the order first;
other questions note nothing that these do not. Memos are never wrong (`live_truthful`), so it cannot be
seen from outside what a program has been asked before.
-/
import FormProgram.Proofs.Agreement
import FormProgram.Proofs.Inserts
import FormProgram.Proofs.Moves

set_option autoImplicit false

namespace FormProgram

/-- What happens to the program at a place in the row of live programs. New programs go to the end. -/
inductive Event where
  | build (d : Draft)
  | copy (i : Nat)
  /-- Takes a program apart and builds another one from its content, changed in any way. -/
  | rebuild (i : Nat) (change : Draft → Draft)
  | askOrdered (i : Nat)
  | askQuestion (i : Nat) (q : QuestionId)
  | edit (i : Nat) (e : Edit)

/-- The programs alive after an event. A place that is taken by no program gives nothing new. -/
def Event.run : Event → List Program → List Program
  | .build d, pool => pool ++ [d.build]
  | .copy i, pool => pool ++ pool[i]?.toList
  | .rebuild i change, pool => pool ++ (pool[i]?.map fun p => (change p.toDraft).build).toList
  | .askOrdered i, pool => pool.modify i Program.noteOrdered
  | .askQuestion i _, pool => pool.modify i Program.noteQuestions
  | .edit i e, pool => pool.modify i Program.noteOrdered ++ (pool[i]?.bind fun p => (p.edit e).toOption).toList

/-- The programs alive after a run of events. -/
def live (es : List Event) : List Program := es.foldl (fun pool e => e.run pool) []

namespace Program.Truthful

variable {p q : Program}

/-- What a successful move leads to: the ordered program, or two trees in it exchanged. -/
theorem move_ok (h : p.Truthful) {id : BlockId} {d : Direction} (hm : p.move id d = .ok q) :
    q = p.order ∨ ∃ blocks, Moved p.order.blocks id d (.moved blocks) ∧ FormProgram.readsInOrder blocks = true ∧
      q = p.withOrderedBlocks blocks := by
  rw [Program.move] at hm
  split at hm
  next => cases hm
  next =>
    cases hm
    exact .inl rfl
  next blocks hmoved =>
    split at hm
    next hreads =>
      cases hm
      have hd : DistinctIds p.order.blocks := by
        rw [← firstDuplicate_eq_none]
        cases hf : firstDuplicate p.order.blocks with
        | none => rfl
        | some twice => simp [moveBlock, hf] at hmoved
      exact .inr ⟨blocks, .of_moveBlock h.nested_order hd hmoved, hreads, rfl⟩
    next => cases hm

theorem move (h : p.Truthful) {id : BlockId} {d : Direction} (hm : p.move id d = .ok q) : q.Truthful := by
  rcases h.move_ok hm with rfl | ⟨blocks, hmoved, -, rfl⟩
  · exact h.order
  · exact withOrderedBlocks (isCanonical_iff_nested.2 hmoved.kept.2)

theorem insert {b : Block} (hi : p.insert b = .ok q) : q.Truthful := by
  rw [Program.insert] at hi
  split at hi
  · cases hi
    exact withBlocks _
  · cases hi

theorem edit (h : p.Truthful) {e : Edit} (he : p.edit e = .ok q) : q.Truthful := by
  cases e with
  | order =>
    cases he
    exact h.order
  | move id d => exact h.move he
  | insert b => exact insert he

end Program.Truthful

theorem ok_of_toOption {ε α : Type} {r : Except ε α} {a : α} (h : r.toOption = some a) : r = .ok a := by
  cases r with
  | error e => cases h
  | ok a' => rw [Option.some.inj h]

theorem mem_modify {α : Type} {f : α → α} {l : List α} {i : Nat} {x : α} (hx : x ∈ l.modify i f) :
    x ∈ l ∨ ∃ y ∈ l, x = f y := by
  obtain ⟨j, hj⟩ := List.mem_iff_getElem?.1 hx
  rw [List.getElem?_modify] at hj
  split at hj
  · obtain ⟨y, hy, rfl⟩ := Option.map_eq_some_iff.1 hj
    exact .inr ⟨y, List.mem_of_getElem? hy, rfl⟩
  · exact .inl (List.mem_of_getElem? (by simpa using hj))

theorem Event.run_truthful {pool : List Program} (h : ∀ p ∈ pool, p.Truthful) (e : Event) :
    ∀ p ∈ e.run pool, p.Truthful := by
  intro p hp
  cases e with
  | build d =>
    rcases List.mem_append.1 hp with hp | hp
    · exact h p hp
    · rw [List.mem_singleton.1 hp]
      exact .build d
  | copy i =>
    rcases List.mem_append.1 hp with hp | hp
    · exact h p hp
    · exact h p (List.mem_of_getElem? (Option.mem_toList.1 hp))
  | rebuild i change =>
    rcases List.mem_append.1 hp with hp | hp
    · exact h p hp
    · obtain ⟨q, -, rfl⟩ := Option.map_eq_some_iff.1 (Option.mem_toList.1 hp)
      exact .build _
  | askOrdered i =>
    rcases mem_modify hp with hp | ⟨q, hq, rfl⟩
    · exact h p hp
    · exact (h q hq).noteOrdered
  | askQuestion i q =>
    rcases mem_modify hp with hp | ⟨q, hq, rfl⟩
    · exact h p hp
    · exact (h q hq).noteQuestions
  | edit i e =>
    rcases List.mem_append.1 hp with hp | hp
    · rcases mem_modify hp with hp | ⟨q, hq, rfl⟩
      · exact h p hp
      · exact (h q hq).noteOrdered
    · obtain ⟨q, hq, he⟩ := Option.bind_eq_some_iff.1 (Option.mem_toList.1 hp)
      have hq := h q (List.mem_of_getElem? hq)
      exact hq.edit (ok_of_toOption he)

theorem live_truthful (es : List Event) : ∀ p ∈ live es, p.Truthful := by
  suffices h : ∀ pool : List Program, (∀ p ∈ pool, p.Truthful) →
      ∀ p ∈ es.foldl (fun pool e => e.run pool) pool, p.Truthful from h [] nofun
  induction es with
  | nil => exact fun _ h => h
  | cons e es ih => exact fun pool h => ih (e.run pool) (e.run_truthful h)

/-- **Memos never lie.** Whatever has been done to it and whatever it has been asked, a program knows of its
own blocks whether they are in canonical order and which questions they use; so two equal programs answer
every question and every edit alike, each with its own history. -/
theorem memos_never_lie (es : List Event) (p : Program) (hp : p ∈ live es) :
    p.isOrdered = isCanonical p.blocks ∧ (∀ q, p.hasQuestion q = true ↔ q ∈ p.questionIds) ∧
      ∀ (es' : List Event) (q : Program), q ∈ live es' → (p == q) = true → p.Agree q := by
  have htrue := live_truthful es p hp
  refine ⟨htrue.isOrdered, htrue.hasQuestion, fun es' q hq heq => ?_⟩
  obtain ⟨hd, hb⟩ := Program.beq_iff.1 heq
  exact htrue.agree (live_truthful es' q hq) hd hb

/-- The jobs twice with one id, a block that repeats under itself, and the contact last: the program made by
ordering has its memo set, the one rebuilt from it has none. -/
theorem memos_never_lie_household :
    let astray : Block := { id := 9, name := "astray", enumerator := some 9 }
    let events : List Event :=
      [.build { blocks := [household[3], household[2], astray, household[2], household[1], household[0]] },
        .askQuestion 0 7, .edit 0 .order, .rebuild 1 id]
    ∃ p q, p ∈ live events ∧ q ∈ live events ∧ p.memo.ordered = some true ∧ q.memo.ordered = none ∧
      p.blocks.map (·.id) = [2, 3, 4, 3, 1] ∧ p.isOrdered = isCanonical p.blocks ∧ p.Agree q := by
  intro astray events
  have hp : (live events)[1]? = some _ := rfl
  have hq : (live events)[2]? = some _ := rfl
  have hordered := memos_never_lie events _ (List.mem_of_getElem? hp)
  refine ⟨_, _, List.mem_of_getElem? hp, List.mem_of_getElem? hq, by decide +kernel, rfl, by decide +kernel,
    hordered.1, ?_⟩
  exact hordered.2.2 events _ (List.mem_of_getElem? hq) (Program.beq_iff.2 ⟨rfl, Alike.refl _⟩)

end FormProgram
