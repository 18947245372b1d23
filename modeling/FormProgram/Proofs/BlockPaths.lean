/-
Paths to blocks, such as `3-1`: the id of a block, and behind a dash whatever may follow.

What stands before the first dash is read as an id if it spells a number below `2^64` (`Spells`): digits, with one
plus sign before them at most. A number is spelled by the digits written for it, and by these behind zeros and a plus
sign, and in no other way (`spells_iff`).
-/
import FormProgram.Program.Lookup
import FormProgram.Proofs.Digits
import FormProgram.Proofs.Nested
import Mathlib.Data.Nat.Digits.Defs

set_option autoImplicit false

namespace FormProgram

namespace Decimal

variable {s ds : List Char} {n : Nat} {w : UInt64}

/-- A text for a number: ASCII digits, one at least, the last counting units, the one before it tens and so on, and
before them a plus sign or nothing. -/
def Spells (s : List Char) (n : Nat) : Prop :=
  ∃ ds, (s = ds ∨ s = '+' :: ds) ∧ ds ≠ [] ∧ (∀ c ∈ ds, c.isDigit = true) ∧
    Nat.ofDigits 10 (ds.reverse.map fun c => c.toNat - '0'.toNat) = n

theorem ofDigits_eq_value : Nat.ofDigits 10 (ds.reverse.map fun c => c.toNat - '0'.toNat) = value ds := by
  induction ds using List.reverseRecOn with
  | nil => rfl
  | append_singleton ds c ih =>
    rw [List.reverse_append, List.reverse_singleton, List.singleton_append, List.map_cons, Nat.ofDigits_cons, ih,
      value_append, Nat.add_comm]
    rfl

/-- **The spellings of a number**: its digits, zeros before them and a plus sign before these. -/
theorem spells_iff : Spells s n ↔ ∃ zeros,
    s = List.replicate zeros '0' ++ chars n ∨ s = '+' :: (List.replicate zeros '0' ++ chars n) := by
  constructor
  · rintro ⟨ds, hs, hne, hd, rfl⟩
    obtain ⟨zeros, hzeros⟩ := exists_zeros hne hd
    rw [ofDigits_eq_value]
    exact ⟨zeros, hs.imp (fun h => h.trans hzeros) fun h => h.trans (congrArg _ hzeros)⟩
  · rintro ⟨zeros, hs⟩
    refine ⟨_, hs, List.append_ne_nil_of_right_ne_nil _ (chars_ne_nil n), ?_, ?_⟩
    · exact List.forall_mem_append.2 ⟨isDigit_zeros zeros, isDigit_of_mem_chars n⟩
    · rw [ofDigits_eq_value, value_zeros, value_chars]

/-- The digits of a number spell it. -/
theorem spells_chars (n : Nat) : Spells (chars n) n := spells_iff.2 ⟨0, .inl rfl⟩

theorem digitsWord?_eq_some :
    digitsWord? ds = some w ↔ ds ≠ [] ∧ (∀ c ∈ ds, c.isDigit = true) ∧ value ds = w.toNat := by
  rw [digitsWord?]
  split
  next h =>
    simp only [Bool.or_eq_true, List.isEmpty_iff, Bool.not_eq_true', List.all_eq_false] at h
    simp only [reduceCtorEq, false_iff]
    rintro ⟨hne, hd, -⟩
    obtain ⟨c, hc, hno⟩ := h.resolve_left hne
    exact hno (hd c hc)
  next h =>
    simp only [Bool.or_eq_true, List.isEmpty_iff, Bool.not_eq_true', not_or, Bool.not_eq_false,
      List.all_eq_true] at h
    have hdigits : ds ≠ [] ∧ ∀ c ∈ ds, c.isDigit = true := h
    rw [← and_assoc, and_iff_right hdigits]
    split
    next hlt => rw [Option.some.injEq, ← UInt64.toNat_inj, UInt64.toNat_ofNat_of_lt' hlt]
    next hge =>
      simp only [reduceCtorEq, false_iff]
      exact fun hv => hge (hv ▸ UInt64.toNat_lt_size w)

/-- **Words are read by their spelling.** -/
theorem word?_eq_some : word? s = some w ↔ Spells s w.toNat := by
  have hspells : Spells s w.toNat ↔ ∃ ds, (s = ds ∨ s = '+' :: ds) ∧ digitsWord? ds = some w := by
    simp only [Spells, ofDigits_eq_value, digitsWord?_eq_some]
  rw [hspells, word?.eq_def]
  split
  next ds =>
    constructor
    · exact fun h => ⟨ds, .inr rfl, h⟩
    · rintro ⟨ds', rfl | hds, h⟩
      · exact absurd ((digitsWord?_eq_some.1 h).2.1 '+' (by simp)) (by decide)
      · cases hds
        exact h
  next hplus =>
    constructor
    · exact fun h => ⟨s, .inl rfl, h⟩
    · rintro ⟨ds, rfl | hds, h⟩
      · exact h
      · exact absurd hds (hplus ds)

theorem word?_eq_none : word? s = none ↔ ¬ ∃ n < 2 ^ 64, Spells s n := by
  rw [Option.eq_none_iff_forall_ne_some]
  constructor
  · rintro h ⟨n, hn, hs⟩
    refine h (UInt64.ofNat n) (word?_eq_some.2 ?_)
    rwa [UInt64.toNat_ofNat_of_lt' hn]
  · exact fun h w hw => h ⟨w.toNat, w.toNat_lt, word?_eq_some.1 hw⟩

end Decimal

/-- What stands before the first dash, or everything if there is none. -/
def BeforeDash (path s : List Char) : Prop := '-' ∉ s ∧ (path = s ∨ ∃ rest, path = s ++ '-' :: rest)

theorem BeforeDash.takeWhile_eq {path s : List Char} (h : BeforeDash path s) : path.takeWhile (· != '-') = s := by
  obtain ⟨hs, hpath⟩ := h
  have hall : ∀ c ∈ s, (c != '-') = true := fun c hc => bne_iff_ne.2 fun he => hs (he ▸ hc)
  rcases hpath with rfl | ⟨rest, rfl⟩
  · rw [← List.append_nil path, List.takeWhile_append_of_pos hall, List.takeWhile_nil]
  · rw [List.takeWhile_append_of_pos hall, List.takeWhile_cons_of_neg (by decide), List.append_nil]

theorem existsUnique_beforeDash (path : List Char) : ∃! s, BeforeDash path s := by
  have hunique : ∀ s s', BeforeDash path s → BeforeDash path s' → s' = s :=
    fun s s' h h' => h'.takeWhile_eq.symm.trans h.takeWhile_eq
  by_cases hdash : '-' ∈ path
  · obtain ⟨s, rest, hpath, hs⟩ := List.eq_append_cons_of_mem hdash
    have h : BeforeDash path s := ⟨hs, .inr ⟨rest, hpath⟩⟩
    exact ⟨s, h, fun s' h' => hunique s s' h h'⟩
  · have h : BeforeDash path path := ⟨hdash, .inl rfl⟩
    exact ⟨path, h, fun s' h' => hunique path s' h h'⟩

section Program

variable {p : Program} {path : String} {s : List Char} (h : BeforeDash path.toList s)
include h

theorem blockByPath_of_word {id : BlockId} (hw : Decimal.word? s = some id) : p.blockByPath path = p.block id := by
  rw [Program.blockByPath, h.takeWhile_eq, hw]

theorem blockByPath_of_no_word (hw : Decimal.word? s = none) :
    p.blockByPath path = .error (.malformedBlockId path) := by
  rw [Program.blockByPath, h.takeWhile_eq, hw]

omit h in
theorem block_ne_malformed (id : BlockId) : p.block id ≠ .error (.malformedBlockId path) := by
  rw [Program.block]
  split <;> simp

end Program

/-- The text of a number holds no dash. -/
theorem beforeDash_chars (n : Nat) (segments : List String) :
    BeforeDash ("-".intercalate (Decimal.text n :: segments)).toList (Decimal.chars n) := by
  refine ⟨fun h => absurd (Decimal.isDigit_of_mem_chars n '-' h) (by decide), ?_⟩
  have htext : (Decimal.text n).toList = Decimal.chars n := String.toList_ofList
  rw [String.toList_intercalate, List.map_cons, htext]
  cases segments with
  | nil => exact .inl List.intercalate_singleton
  | cons segment segments =>
    refine .inr ⟨['-'].intercalate ((segment :: segments).map String.toList), ?_⟩
    rw [List.map_cons, List.intercalate_cons_cons, List.append_assoc]
    rfl

/-- **Block paths have one grammar.** Every path has one part before its first dash, or is that part. If the part spells a
number below `2^64` the path names the block with that id, whatever follows; if not, the path is malformed. So the id
of a block in decimal, with any segments behind it, names the block. -/
theorem block_paths (p : Program) :
    (∀ path : String, ∃! s, BeforeDash path.toList s) ∧
    (∀ (path : String) (s : List Char), BeforeDash path.toList s →
      (p.blockByPath path = .error (.malformedBlockId path) ↔ ¬ ∃ n < 2 ^ 64, Decimal.Spells s n) ∧
      ∀ n < 2 ^ 64, Decimal.Spells s n → p.blockByPath path = p.block (UInt64.ofNat n)) ∧
    ∀ (id : BlockId) (segments : List String),
      p.blockByPath ("-".intercalate (Decimal.text id.toNat :: segments)) = p.block id := by
  refine ⟨fun path => existsUnique_beforeDash path.toList, fun path s h => ⟨?_, fun n hn hs => ?_⟩, fun id segments => ?_⟩
  · rw [← Decimal.word?_eq_none]
    cases hw : Decimal.word? s with
    | none => exact iff_of_true (blockByPath_of_no_word h hw) rfl
    | some id =>
      rw [blockByPath_of_word h hw]
      exact iff_of_false (block_ne_malformed id) (by simp)
  · refine blockByPath_of_word h (Decimal.word?_eq_some.2 ?_)
    rwa [UInt64.toNat_ofNat_of_lt' hn]
  · exact blockByPath_of_word (beforeDash_chars id.toNat segments)
      (Decimal.word?_eq_some.2 (Decimal.spells_chars id.toNat))

/-- In the household form the jobs are found by their id with a plus sign, a zero and segments; the least number that
is no id is malformed. -/
theorem block_paths_household :
    let p := Draft.build { blocks := household }
    let past := "18446744073709551616"
    BeforeDash "+03-1--x".toList "+03".toList ∧ 3 < 2 ^ 64 ∧ Decimal.Spells "+03".toList 3 ∧
      p.blockByPath "+03-1--x" = p.block 3 ∧ (p.block 3).toOption.map (·.name) = some "jobs" ∧
      BeforeDash past.toList past.toList ∧ (¬ ∃ n < 2 ^ 64, Decimal.Spells past.toList n) ∧
      p.blockByPath past = .error (.malformedBlockId past) := by
  intro p past
  have hjobs : BeforeDash "+03-1--x".toList "+03".toList := ⟨by decide +kernel, .inr ⟨"1--x".toList, by decide +kernel⟩⟩
  have hthree : Decimal.Spells "+03".toList 3 := Decimal.spells_iff.2 ⟨1, .inr (by rw [Decimal.chars_of_lt] <;> decide)⟩
  have hpast : BeforeDash past.toList past.toList := ⟨by decide +kernel, .inl rfl⟩
  have hnone : ¬ ∃ n < 2 ^ 64, Decimal.Spells past.toList n := Decimal.word?_eq_none.1 (by decide +kernel)
  obtain ⟨-, hpaths, -⟩ := block_paths p
  exact ⟨hjobs, by decide, hthree, (hpaths _ _ hjobs).2 3 (by decide) hthree, by decide +kernel, hpast, hnone,
    (hpaths _ _ hpast).1.2 hnone⟩

end FormProgram
