/-
The locales that a program supports: those in which it has a name and a description, and into which every question
that it uses is translated (`Program.mem_supportedLocales`).

The set depends on the blocks only through the questions in use, so an edit that reorders the blocks keeps it, and
one that adds blocks takes away what their questions do not support (`Follows.mem_supportedLocales`).
-/
import FormProgram.Proofs.Session

set_option autoImplicit false

namespace FormProgram

theorem SortedMap.mem_keys {κ ν : Type} [Ord κ] {m : SortedMap κ ν} {k : κ} :
    k ∈ m.keys ↔ ∃ v, (k, v) ∈ m.entries := by
  rw [← SortedSet.mem_toList, keys]
  simp

/-- Every question that the block uses is translated into the locale. -/
def Block.Speaks (b : Block) (locale : String) : Prop := ∀ u ∈ b.questions, locale ∈ u.question.locales

theorem mem_foldl_locales {questions : List Question} {s : SortedSet String} {locale : String} :
    locale ∈ questions.foldl (fun s q => s.filter (· ∈ q.locales)) s ↔
      locale ∈ s ∧ ∀ q ∈ questions, locale ∈ q.locales := by
  induction questions generalizing s with
  | nil => simp
  | cons q questions ih => simp [ih, and_assoc]

variable {p q : Program} {added : List Block} {locale : String}

theorem Program.mem_supportedLocales : locale ∈ p.supportedLocales ↔
    locale ∈ p.details.localizedName.keys ∧ locale ∈ p.details.localizedDescription.keys ∧
      ∀ b ∈ p.blocks, b.Speaks locale := by
  have hquestions : (∀ q ∈ p.questions, locale ∈ q.locales) ↔ ∀ b ∈ p.blocks, b.Speaks locale := by
    simp only [Draft.questions, List.forall_mem_flatMap, List.forall_mem_map, Block.Speaks]
  rw [supportedLocales, mem_foldl_locales, hquestions, SortedSet.mem_filter, decide_eq_true_iff, and_assoc]

/-- **More blocks, fewer locales**: in what order the blocks stand makes no difference. -/
theorem Program.mem_supportedLocales_of_perm (hd : q.details = p.details) (hb : q.blocks.Perm (added ++ p.blocks)) :
    locale ∈ q.supportedLocales ↔ locale ∈ p.supportedLocales ∧ ∀ b ∈ added, b.Speaks locale := by
  have hblocks : (∀ b ∈ q.blocks, b.Speaks locale) ↔
      (∀ b ∈ added, b.Speaks locale) ∧ ∀ b ∈ p.blocks, b.Speaks locale := by
    rw [← List.forall_mem_append]
    exact forall_congr' fun b => imp_congr_left hb.mem_iff
  rw [mem_supportedLocales, mem_supportedLocales, hd, hblocks]
  tauto

theorem Follows.mem_supportedLocales (h : Follows p q added) :
    locale ∈ q.supportedLocales ↔ locale ∈ p.supportedLocales ∧ ∀ b ∈ added, b.Speaks locale :=
  Program.mem_supportedLocales_of_perm h.details h.blocks

theorem Follows.supportedLocales_eq (h : Follows p q []) : q.supportedLocales = p.supportedLocales :=
  SortedSet.ext fun locale => by simp [h.mem_supportedLocales]

/-- **Supported locales are an exact intersection**: of the locales of the name, of the description, and of every
question that some block uses. In a program without defects, ordering and moving leave them as they are, and an
insertion leaves those that the questions of the new block support as well. -/
theorem supported_locales_exact (events : List Event) (p : Program) (hp : p ∈ live events) :
    (∀ locale, locale ∈ p.supportedLocales ↔
      (∃ text, (locale, text) ∈ p.details.localizedName.entries) ∧
      (∃ text, (locale, text) ∈ p.details.localizedDescription.entries) ∧
      ∀ b ∈ p.blocks, ∀ u ∈ b.questions, locale ∈ u.question.locales) ∧
    (p.defects = [] →
      p.order.supportedLocales = p.supportedLocales ∧
      (∀ id d q, p.move id d = .ok q → q.supportedLocales = p.supportedLocales) ∧
      ∀ b q, p.insert b = .ok q → ∀ locale, locale ∈ q.supportedLocales ↔
        locale ∈ p.supportedLocales ∧ ∀ u ∈ b.questions, locale ∈ u.question.locales) := by
  have ht := live_truthful events p hp
  refine ⟨fun locale => ?_, fun h => ?_⟩
  · rw [Program.mem_supportedLocales, SortedMap.mem_keys, SortedMap.mem_keys]
    rfl
  · have hf := Program.formed_of_defects h
    refine ⟨(ht.order_follows hf).supportedLocales_eq, fun id d q hm => ?_, fun b q hi locale => ?_⟩
    · exact (ht.move_follows hf hm).supportedLocales_eq
    · rw [(ht.insert_follows hf hi).mem_supportedLocales, List.forall_mem_singleton]
      rfl

/-- A question that is translated into two locales, and a new one that is not: the move keeps both locales, the
insertion one of them. The program has a name in a third locale, in which it is not described. -/
theorem supported_locales_exact_food :
    let question : Question := { id := 10, name := "phone", type := .text, locales := .ofList ["es-US", "en-US"] }
    let english : Question := { id := 20, name := "plan", type := .text, locales := .ofList ["en-US", "fr-FR"] }
    let p := Draft.build {
      details := {
        localizedName := .ofList [("en-US", "Food"), ("es-US", "Comida"), ("fr-FR", "Aide")]
        localizedDescription := .ofList [("es-US", "Ayuda"), ("en-US", "Food help")] }
      blocks := [{ id := 2, name := "summary" }, { id := 1, name := "contact", questions := [{ question }] }] }
    let b : Block := { id := 3, name := "plan", questions := [{ question := english }] }
    p ∈ live [.build p.toDraft] ∧ p.defects = [] ∧ p.supportedLocales.toList = ["en-US", "es-US"] ∧
      (∃ q, p.move 1 .up = .ok q ∧ q.blocks.map (·.id) = [1, 2] ∧ q.supportedLocales = p.supportedLocales) ∧
      ∃ q, p.insert b = .ok q ∧ "en-US" ∈ q.supportedLocales ∧ ¬ "es-US" ∈ q.supportedLocales ∧
        ¬ "fr-FR" ∈ q.supportedLocales := by
  intro question english p b
  have hp : p ∈ live [.build p.toDraft] := List.mem_singleton.2 rfl
  have hdefects : p.defects = [] := by decide +kernel
  obtain ⟨-, hedits⟩ := supported_locales_exact _ p hp
  obtain ⟨-, hmoves, hinserts⟩ := hedits hdefects
  have hids : (p.move 1 .up).toOption.map (fun q => q.blocks.map (·.id)) = some [1, 2] := by decide +kernel
  obtain ⟨q, hq, hids⟩ := Option.map_eq_some_iff.1 hids
  have hmoved := ok_of_toOption hq
  have hinserted : p.insert b = .ok (p.order.withBlocks (p.blocks ++ [b])) := rfl
  have hlocales := hinserts b _ hinserted
  have hkept : p.supportedLocales.toList = ["en-US", "es-US"] := by decide +kernel
  refine ⟨hp, hdefects, hkept, ⟨q, hmoved, hids, hmoves 1 .up q hmoved⟩, _, hinserted, ?_, ?_, ?_⟩
  · exact (hlocales _).2 (by decide +kernel)
  · intro h
    exact absurd ((hlocales _).1 h).2 (by decide +kernel)
  · intro h
    exact absurd ((hlocales _).1 h).1 (by decide +kernel)

/-- After any run of edits the program supports what it has supported before and all inserted questions do. -/
theorem Session.mem_supportedLocales_run (ht : p.Truthful) (h : p.defects = []) (es : List Edit) :
    locale ∈ (Session.run p es).program.supportedLocales ↔
      locale ∈ p.supportedLocales ∧ ∀ b ∈ (Session.run p es).inserted, b.Speaks locale := by
  have k := Session.Kept.run ht ((Program.defects_eq_nil_iff ht).1 h) es
  exact Program.mem_supportedLocales_of_perm k.details k.blocks

end FormProgram
