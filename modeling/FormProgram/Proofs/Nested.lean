/-
Canonical order as a grammar: a list of blocks is nested under an enumerator id when it is a row of
blocks that repeat under that id, each followed at once by a list nested under its own id.

`isCanonical_iff_nested`: the one-pass check accepts exactly the lists nested under no enumerator.
It holds for lists with repeated ids too; the check may then close a list at another block of the
same id than the one that opened it.
-/
import FormProgram.Order

set_option autoImplicit false

namespace FormProgram

/-- Where an element stands in two lists put together. -/
theorem split_append {α : Type} {as bs xs ys : List α} {a : α} (h : as ++ bs = xs ++ a :: ys) :
    (∃ ys', ys = ys' ++ bs ∧ as = xs ++ a :: ys') ∨ ∃ xs', xs = as ++ xs' ∧ bs = xs' ++ a :: ys := by
  rcases List.append_eq_append_iff.1 h with ⟨mid, rfl, hb⟩ | ⟨mid, ha, hb⟩
  · exact .inr ⟨mid, rfl, hb⟩
  · cases mid with
    | nil => exact .inr ⟨[], by simpa using ha.symm, by simpa using hb.symm⟩
    | cons a' mid =>
      simp only [List.cons_append, List.cons.injEq] at hb
      obtain ⟨rfl, hb⟩ := hb
      exact .inl ⟨mid, hb, ha⟩

/-- `Nested k l`: the top-level blocks of `l` repeat under `k`, and each is followed at once by all that
repeats under it. -/
inductive Nested : Option BlockId → List Block → Prop
  | nil {k : Option BlockId} : Nested k []
  | cons {k : Option BlockId} {b : Block} {below rest : List Block} (enumerator : b.enumerator = k)
      (leaf : b.isEnumerator = false → below = []) (inner : Nested (some b.id) below)
      (later : Nested k rest) : Nested k (b :: (below ++ rest))

namespace Nested

variable {k : Option BlockId} {b : Block} {l m below : List Block}

theorem tree (leaf : b.isEnumerator = false → below = []) (inner : Nested (some b.id) below) :
    Nested b.enumerator (b :: below) := by
  have h := Nested.cons (k := b.enumerator) rfl leaf inner .nil
  rwa [List.append_nil] at h

theorem append (hl : Nested k l) (hm : Nested k m) : Nested k (l ++ m) := by
  induction hl with
  | nil => exact hm
  | cons he leaf inner _ _ ih =>
    rw [List.cons_append, List.append_assoc]
    exact .cons he leaf inner (ih hm)

theorem flatMap {α : Type} {f : α → List Block} {as : List α} (h : ∀ a ∈ as, Nested k (f a)) :
    Nested k (as.flatMap f) := by
  induction as with
  | nil => exact .nil
  | cons a as ih =>
    rw [List.flatMap_cons]
    exact (h a (by simp)).append (ih fun a' ha => h a' (by simp [ha]))

/-- Whatever a block of the list repeats under is `k` or stands before it. -/
theorem enumerator_of_split (h : Nested k l) {before after : List Block} (hl : l = before ++ b :: after) :
    b.enumerator = k ∨ ∃ c ∈ before, c.isEnumerator = true ∧ b.enumerator = some c.id := by
  induction h generalizing before after with
  | nil => simp at hl
  | @cons k a below rest he leaf inner later ih₁ ih₂ =>
    cases before with
    | nil =>
      simp only [List.nil_append, List.cons.injEq] at hl
      exact .inl (hl.1 ▸ he)
    | cons a' before =>
      simp only [List.cons_append, List.cons.injEq] at hl
      obtain ⟨rfl, hl⟩ := hl
      rcases split_append hl with ⟨after', -, hb⟩ | ⟨before', rfl, hr⟩
      · rcases ih₁ hb with h | ⟨c, hc, h⟩
        · refine .inr ⟨a, by simp, ?_, h⟩
          cases hae : a.isEnumerator with
          | false => simp [leaf hae] at hb
          | true => rfl
        · exact .inr ⟨c, by simp [hc], h⟩
      · rcases ih₂ hr with h | ⟨c, hc, h⟩
        · exact .inl h
        · exact .inr ⟨c, by simp [hc], h⟩

theorem enumerator_of_mem (h : Nested k l) (hb : b ∈ l) :
    b.enumerator = k ∨ ∃ c ∈ l, b.enumerator = some c.id := by
  obtain ⟨before, after, hl⟩ := List.append_of_mem hb
  rcases h.enumerator_of_split hl with he | ⟨c, hc, _, he⟩
  · exact .inl he
  · exact .inr ⟨c, by simp [hl, hc], he⟩

end Nested

/-- Closing down to an enumerator that is open leaves it innermost, with all that was open outside
of it. -/
theorem closeDownTo_append {k : Option BlockId} {outer : List BlockId} (h : outer.head? = k)
    (opened : List BlockId) : ∃ inner,
      closeDownTo k (opened ++ outer) = inner ++ outer ∧ (inner ++ outer).head? = k := by
  induction opened with
  | cons e opened ih =>
    rw [List.cons_append, closeDownTo]
    split
    next hk => exact ⟨e :: opened, rfl, hk.symm⟩
    next => exact ih
  | nil =>
    cases outer with
    | nil => exact ⟨[], rfl, h⟩
    | cons e outer =>
      have hk : k = some e := h.symm
      rw [List.nil_append, closeDownTo, if_pos hk]
      exact ⟨[], rfl, h⟩

/-- The check passes over a nested list: afterwards all is open that was open around it, with perhaps
some enumerators of the list itself. -/
theorem isCanonicalFrom_append {k : Option BlockId} {l : List Block} (h : Nested k l) :
    ∀ (outer : List BlockId), outer.head? = k → ∀ {rest : List Block},
      (∀ opened, isCanonicalFrom (opened ++ outer) rest = true) →
      ∀ opened, isCanonicalFrom (opened ++ outer) (l ++ rest) = true := by
  induction h with
  | nil => exact fun _ _ _ hrest => hrest
  | @cons k b below later he leaf inner _ ih₁ ih₂ =>
    intro outer ho r hrest opened
    obtain ⟨closed, hc, hhead⟩ := closeDownTo_append ho opened
    rw [List.cons_append, isCanonicalFrom, he, hc, hhead, List.append_assoc]
    simp only [beq_self_eq_true, Bool.true_and]
    cases hb : b.isEnumerator with
    | false =>
      rw [leaf hb]
      exact ih₂ outer ho hrest closed
    | true =>
      -- While the list below is passed, the block's own id stays open under whatever it opens.
      refine ih₁ (b.id :: (closed ++ outer)) rfl (fun opened' => ?_) []
      have h := ih₂ outer ho hrest (opened' ++ b.id :: closed)
      simpa [List.append_assoc] using h

/-- A list falls apart into one that is nested under each open enumerator, the innermost first, and
one that is nested under none. -/
def NestedUnder : List BlockId → List Block → Prop
  | [], l => Nested none l
  | e :: outer, l => ∃ inner rest, l = inner ++ rest ∧ Nested (some e) inner ∧ NestedUnder outer rest

/-- Under enumerators that need nothing more, the list may begin further out. -/
theorem NestedUnder.of_closeDownTo {k : Option BlockId} {opened : List BlockId} {l : List Block}
    (h : NestedUnder (closeDownTo k opened) l) : NestedUnder opened l := by
  induction opened with
  | nil => exact h
  | cons e opened ih =>
    rw [closeDownTo] at h
    split at h
    next => exact h
    next => exact ⟨[], l, rfl, .nil, ih h⟩

/-- A block with what is nested under it, in front of a list that goes on under the block's enumerator. -/
theorem NestedUnder.cons {b : Block} {below rest : List Block} {opened : List BlockId}
    (he : b.enumerator = opened.head?) (leaf : b.isEnumerator = false → below = [])
    (hb : Nested (some b.id) below) (h : NestedUnder opened rest) :
    NestedUnder opened (b :: (below ++ rest)) := by
  cases opened with
  | nil => exact Nested.cons he leaf hb h
  | cons e opened =>
    obtain ⟨inner, rest, rfl, hi, hr⟩ := h
    exact ⟨b :: (below ++ inner), rest, by simp, Nested.cons he leaf hb hi, hr⟩

theorem nestedUnder_of_isCanonicalFrom {l : List Block} :
    ∀ {opened : List BlockId}, isCanonicalFrom opened l = true → NestedUnder opened l := by
  induction l with
  | nil =>
    intro opened h
    induction opened with
    | nil => exact .nil
    | cons e opened ih => exact ⟨[], [], rfl, .nil, ih rfl⟩
  | cons b l ih =>
    intro opened h
    rw [isCanonicalFrom, Bool.and_eq_true, beq_iff_eq] at h
    obtain ⟨he, h⟩ := h
    refine NestedUnder.of_closeDownTo (k := b.enumerator) ?_
    cases hb : b.isEnumerator with
    | false =>
      rw [hb, if_neg (by simp)] at h
      exact NestedUnder.cons he (fun _ => rfl) Nested.nil (ih h)
    | true =>
      rw [hb, if_pos rfl] at h
      obtain ⟨below, rest, rfl, hbelow, hrest⟩ := ih h
      exact NestedUnder.cons he (by simp [hb]) hbelow hrest

/-- **The check is the grammar.** The one-pass check accepts a list exactly when it is nested under no
enumerator, whatever its ids are. -/
theorem isCanonical_iff_nested {l : List Block} : isCanonical l = true ↔ Nested none l := by
  constructor
  · exact fun h => nestedUnder_of_isCanonicalFrom h
  · intro h
    have hend : ∀ opened, isCanonicalFrom (opened ++ []) [] = true := fun _ => rfl
    have hl := isCanonicalFrom_append h [] rfl hend []
    rwa [List.append_nil l] at hl

/-- A form on a household: its members repeat, and so do the jobs of each member. -/
def household : List Block :=
  [{ id := 1, name := "contact" },
    { id := 2, name := "members", isEnumerator := true },
    { id := 3, name := "jobs", enumerator := some 2, isEnumerator := true },
    { id := 4, name := "employer", enumerator := some 3 },
    { id := 5, name := "summary" }]

example : isCanonical household = true := by decide

end FormProgram
