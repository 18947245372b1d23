/-
What a document settles to when it is written and read back.

The result is always a value (`canonical_settle`), and a value without doubles settles to itself
(`settle_eq_self`). An object whose names are distinct keeps its members, in another order
(`settleMembers_perm`); what is looked up by name in it does not depend on the order.
-/
import FormProgram.Json.Reader
import FormProgram.Proofs.JsonText
import Mathlib.Data.List.Perm.Basic

set_option autoImplicit false

namespace FormProgram

namespace Entries

variable {κ ν : Type} [Ord κ] {k : κ} {v : ν} {l : List (κ × ν)}

theorem add_of_lt (h : ∀ e ∈ l, compare k e.1 = .lt) : add k v l = (k, v) :: l := by
  cases l with
  | nil => rfl
  | cons e l => rw [add, h e (List.mem_cons_self ..)]

theorem add_perm [Std.LawfulEqOrd κ] (h : ∀ e ∈ l, e.1 ≠ k) : (add k v l).Perm ((k, v) :: l) := by
  induction l with
  | nil => exact .refl _
  | cons e l ih =>
    rw [add]
    split
    next => exact .refl _
    next heq => exact absurd (Std.LawfulEqCmp.eq_of_compare heq).symm (h e (List.mem_cons_self ..))
    next => exact ((ih fun e' he' => h e' (List.mem_cons_of_mem e he')).cons e).trans (.swap ..)

/-- An entry that goes behind all others is put at the end. -/
theorem insert_of_gt (h : ∀ e ∈ l, compare k e.1 = .gt) : insert k v l = l ++ [(k, v)] := by
  induction l with
  | nil => rfl
  | cons e l ih =>
    rw [insert, h e (List.mem_cons_self ..), ih fun e' he' => h e' (List.mem_cons_of_mem e he')]
    rfl

end Entries

namespace SortedMap

variable {κ ν : Type} [Ord κ] [Std.TransOrd κ] [Std.LawfulEqOrd κ]

theorem entries_foldl_insert (rest : List (κ × ν)) :
    ∀ m : SortedMap κ ν, Entries.Ascending (m.entries ++ rest) →
    (rest.foldl (fun m e => m.insert e.1 e.2) m).entries = m.entries ++ rest := by
  induction rest with
  | nil => exact fun m _ => (List.append_nil _).symm
  | cons e rest ih =>
    intro m h
    have hlast : (m.insert e.1 e.2).entries = m.entries ++ [e] :=
      Entries.insert_of_gt fun e' he' =>
        Std.OrientedCmp.gt_of_lt ((List.pairwise_append.1 h).2.2 e' he' e (List.mem_cons_self ..))
    have happend : (m.insert e.1 e.2).entries ++ rest = m.entries ++ e :: rest := by
      rw [hlast, List.append_assoc, List.singleton_append]
    rw [List.foldl_cons, ih _ (by rwa [happend]), happend]

/-- The map of its own entries. -/
theorem ofList_entries (m : SortedMap κ ν) : ofList m.entries = m := by
  have hext : ∀ m m' : SortedMap κ ν, m.entries = m'.entries → m = m' := by
    rintro ⟨entries, _⟩ ⟨entries', _⟩ rfl
    rfl
  exact hext _ _ (entries_foldl_insert m.entries ∅ m.ascending)

end SortedMap

namespace Json

/-! ## Values -/

mutual

theorem canonical_settle : ∀ j : Json, j.settle.Canonical
  | .null | .bool _ | .number _ | .string _ => trivial
  | .array items => canonical_settleItems items
  | .object members => canonical_settleMembers members

theorem canonical_settleItems : ∀ js : List Json, AllCanonical (settleItems js)
  | [] => trivial
  | j :: js => ⟨canonical_settle j, canonical_settleItems js⟩

theorem canonical_settleMembers : ∀ ms : List (String × Json),
    Entries.Ascending (settleMembers ms) ∧ MembersCanonical (settleMembers ms)
  | [] => ⟨List.Pairwise.nil, trivial⟩
  | (name, j) :: ms =>
    have h := canonical_settleMembers ms
    ⟨h.1.add name j.settle, membersCanonical_add (canonical_settle j) h.2⟩

end

mutual

/-- No double stands in the document. -/
def floatFree : Json → Bool
  | .number (.float _) => false
  | .array items => floatFreeItems items
  | .object members => floatFreeMembers members
  | _ => true

def floatFreeItems : List Json → Bool
  | [] => true
  | j :: rest => floatFree j && floatFreeItems rest

def floatFreeMembers : List (String × Json) → Bool
  | [] => true
  | (_, j) :: rest => floatFree j && floatFreeMembers rest

end

@[simp] theorem Number.reread_natural (n : UInt64) : (Number.natural n).reread = .natural n := by
  rw [reread, value?_natural, Option.getD_some]

@[simp] theorem Number.reread_negative (m : Fin 0x8000000000000000) :
    (Number.negative m).reread = .negative m := by
  rw [reread, value?_negative, Option.getD_some]

mutual

/-- **A value without doubles settles to itself.** -/
theorem settle_eq_self : ∀ {j : Json}, j.Canonical → j.floatFree = true → j.settle = j
  | .null, _, _ | .bool _, _, _ | .string _, _, _ => rfl
  | .number n, _, h => by
    cases n with
    | natural n => rw [settle, Number.reread_natural]
    | negative m => rw [settle, Number.reread_negative]
    | float x => cases h
  | .array items, hc, h => by rw [settle, settleItems_eq_self hc h]
  | .object members, hc, h => by rw [settle, settleMembers_eq_self hc.1 hc.2 h]

theorem settleItems_eq_self :
    ∀ {js : List Json}, AllCanonical js → floatFreeItems js = true → settleItems js = js
  | [], _, _ => rfl
  | j :: js, hc, h => by
    rw [floatFreeItems, Bool.and_eq_true] at h
    rw [settleItems, settle_eq_self hc.1 h.1, settleItems_eq_self hc.2 h.2]

theorem settleMembers_eq_self : ∀ {ms : List (String × Json)}, Entries.Ascending ms → MembersCanonical ms →
    floatFreeMembers ms = true → settleMembers ms = ms
  | [], _, _, _ => rfl
  | (name, j) :: ms, ha, hc, h => by
    rw [floatFreeMembers, Bool.and_eq_true] at h
    have ha := List.pairwise_cons.1 ha
    rw [settleMembers, settle_eq_self hc.1 h.1, settleMembers_eq_self ha.2 hc.2 h.2, Entries.add_of_lt ha.1]

end

mutual

/-- The tree of a value has that value. -/
theorem Tree.value?_ofJson : ∀ {j : Json}, j.Canonical → (Tree.ofJson j).value? = some j
  | .null, _ | .bool _, _ | .number _, _ | .string _, _ => rfl
  | .array items, h => by rw [ofJson, value?, values?_ofItems h, Option.map_some]
  | .object members, h => by rw [ofJson, value?, memberValues?_ofNamed h.1 h.2, Option.map_some]

theorem Tree.values?_ofItems : ∀ {js : List Json}, AllCanonical js → values? (ofItems js) = some js
  | [], _ => rfl
  | j :: js, h => by rw [ofItems, values?, value?_ofJson h.1, values?_ofItems h.2]

theorem Tree.memberValues?_ofNamed : ∀ {ms : List (String × Json)}, Entries.Ascending ms → MembersCanonical ms →
    memberValues? (ofNamed ms) = some ms
  | [], _, _ => rfl
  | (name, j) :: ms, ha, hc => by
    have ha := List.pairwise_cons.1 ha
    rw [ofNamed, memberValues?, value?_ofJson hc.1, memberValues?_ofNamed ha.2 hc.2]
    exact congrArg some (Entries.add_of_lt ha.1)

end

/-! ## Members by name -/

section Names

variable {α : Type} {name : String} {ms ms' : List (String × α)}

abbrev DistinctNames (ms : List (String × α)) : Prop := (ms.map (·.1)).Nodup

theorem distinct_of_ascending (h : Entries.Ascending ms) : DistinctNames ms := by
  refine List.pairwise_map.2 (h.imp ?_)
  intro m m' hlt hname
  have hself : compare m'.1 m'.1 = .eq := Std.ReflCmp.compare_self
  rw [hname, hself] at hlt
  cases hlt

theorem length_filter_le_one (hd : DistinctNames ms) : (ms.filter (·.1 == name)).length ≤ 1 := by
  have hcount := List.nodup_iff_count_le_one.1 hd name
  rwa [List.count, List.countP_map, List.countP_eq_length_filter] at hcount

/-- Where a name stands at most once, looking it up finds all that there is. -/
theorem filter_eq_lookup_of_le (h : (ms.filter (·.1 == name)).length ≤ 1) :
    ms.filter (·.1 == name) = (ms.lookup name).toList.map (name, ·) := by
  induction ms with
  | nil => rfl
  | cons m ms ih =>
    obtain ⟨n, a⟩ := m
    rw [List.filter_cons] at h
    rw [List.filter_cons, List.lookup_cons]
    by_cases hn : n = name
    · subst hn
      have hnil : ms.filter (·.1 == n) = [] := by simpa using h
      simp [hnil]
    · have hne : (n == name) = false := beq_eq_false_iff_ne.2 hn
      have hne' : (name == n) = false := beq_eq_false_iff_ne.2 (Ne.symm hn)
      rw [hne] at h
      simp only [hne, hne']
      exact ih h

theorem filter_eq_lookup (hd : DistinctNames ms) :
    ms.filter (·.1 == name) = (ms.lookup name).toList.map (name, ·) :=
  filter_eq_lookup_of_le (length_filter_le_one hd)

/-- What stands under a name does not depend on the order of the members. -/
theorem lookup_perm (hd : DistinctNames ms) (hp : ms.Perm ms') : ms.lookup name = ms'.lookup name := by
  have hfilter := hp.filter (·.1 == name)
  rw [filter_eq_lookup hd, filter_eq_lookup ((hp.map _).nodup_iff.1 hd)] at hfilter
  cases h : ms.lookup name <;> cases h' : ms'.lookup name <;> simp_all

theorem member?_eq_lookup {members : List (String × Tree)} (hd : DistinctNames members) :
    Tree.member? name members = some (members.lookup name) := by
  rw [Tree.member?, filter_eq_lookup hd]
  cases members.lookup name <;> rfl

theorem lookup_map {β : Type} (f : α → β) :
    (ms.map fun (n, a) => (n, f a)).lookup name = (ms.lookup name).map f := by
  induction ms with
  | nil => rfl
  | cons m ms ih =>
    obtain ⟨n, a⟩ := m
    rw [List.map_cons, List.lookup_cons, List.lookup_cons]
    cases name == n with
    | true => rfl
    | false => exact ih

end Names

/-- The members of an object keep their names. -/
theorem settleMembers_perm {ms : List (String × Json)} (hd : DistinctNames ms) :
    (settleMembers ms).Perm (ms.map fun (name, j) => (name, j.settle)) := by
  induction ms with
  | nil => exact .refl _
  | cons m ms ih =>
    obtain ⟨name, j⟩ := m
    rw [DistinctNames, List.map_cons, List.nodup_cons] at hd
    have ih := ih hd.2
    have hnew : ∀ e ∈ settleMembers ms, e.1 ≠ name := by
      intro e he hname
      obtain ⟨⟨name', j'⟩, hm, rfl⟩ := List.mem_map.1 (ih.mem_iff.1 he)
      exact hd.1 (List.mem_map.2 ⟨_, hm, hname⟩)
    exact (Entries.add_perm hnew).trans (ih.cons _)

theorem ofNamed_eq_map (ms : List (String × Json)) :
    Tree.ofNamed ms = ms.map fun (name, j) => (name, Tree.ofJson j) := by
  induction ms with
  | nil => rfl
  | cons m ms ih => rw [Tree.ofNamed, ih, List.map_cons]

theorem ofItems_eq_map (js : List Json) : Tree.ofItems js = js.map Tree.ofJson := by
  induction js with
  | nil => rfl
  | cons j js ih => rw [Tree.ofItems, ih, List.map_cons]

theorem settleItems_eq_map (js : List Json) : settleItems js = js.map settle := by
  induction js with
  | nil => rfl
  | cons j js ih => rw [settleItems, ih, List.map_cons]

/-! ## What readers find -/

variable {ms : List (String × Json)} {name : String}

theorem distinct_ofNamed (hd : DistinctNames ms) : DistinctNames (Tree.ofNamed ms) := by
  rw [ofNamed_eq_map, DistinctNames, List.map_map]
  exact hd

theorem lookup_ofNamed : (Tree.ofNamed ms).lookup name = (ms.lookup name).map Tree.ofJson := by
  rw [ofNamed_eq_map, lookup_map]

theorem member?_ofNamed (hd : DistinctNames ms) :
    Tree.member? name (Tree.ofNamed ms) = some ((ms.lookup name).map Tree.ofJson) := by
  rw [member?_eq_lookup (distinct_ofNamed hd), lookup_ofNamed]

/-- The fields that are read off an object. -/
theorem fields?_ofJson (hd : DistinctNames ms) (names : List String) :
    (Tree.ofJson (.object ms)).fields? names = some (names.map fun name => (ms.lookup name).map Tree.ofJson) := by
  rw [Tree.ofJson, Tree.fields?]
  induction names with
  | nil => rfl
  | cons name names ih =>
    rw [List.mapM_cons, member?_ofNamed hd, ih]
    rfl

/-- The tree that a reader is given where this document has been written. -/
def back (j : Json) : Tree := Tree.ofJson j.settle

/-- The members that a reader is given. -/
def backMembers (ms : List (String × Json)) : List (String × Tree) := Tree.ofNamed (settleMembers ms)

theorem back_object : back (.object ms) = .object (backMembers ms) := rfl

theorem back_array (js : List Json) : back (.array js) = .array (js.map back) := by
  rw [back, settle, Tree.ofJson, settleItems_eq_map, ofItems_eq_map, List.map_map]
  rfl

theorem distinct_settleMembers (hd : DistinctNames ms) : DistinctNames (settleMembers ms) := by
  have hp := (settleMembers_perm hd).map Prod.fst
  rw [List.map_map] at hp
  exact hp.nodup_iff.2 hd

theorem lookup_settleMembers (hd : DistinctNames ms) :
    (settleMembers ms).lookup name = (ms.lookup name).map settle := by
  rw [lookup_perm (distinct_settleMembers hd) (settleMembers_perm hd), lookup_map]

theorem distinct_backMembers (hd : DistinctNames ms) : DistinctNames (backMembers ms) :=
  distinct_ofNamed (distinct_settleMembers hd)

theorem lookup_backMembers (hd : DistinctNames ms) :
    (backMembers ms).lookup name = (ms.lookup name).map back := by
  rw [backMembers, lookup_ofNamed, lookup_settleMembers hd, Option.map_map]
  rfl

theorem member?_backMembers (hd : DistinctNames ms) :
    Tree.member? name (backMembers ms) = some ((ms.lookup name).map back) := by
  rw [member?_eq_lookup (distinct_backMembers hd), lookup_backMembers hd]

/-- A record is found with its fields. -/
theorem fields?_back (hd : DistinctNames ms) (names : List String) :
    (back (.object ms)).fields? names = some (names.map fun name => (ms.lookup name).map back) := by
  rw [back, settle, fields?_ofJson (distinct_settleMembers hd)]
  refine congrArg some (List.map_congr_left fun name _ => ?_)
  rw [lookup_settleMembers hd, Option.map_map]
  rfl

theorem list?_back {α : Type} (read : Tree → Option α) (js : List Json) :
    (back (.array js)).list? read = js.mapM fun j => read j.back := by
  rw [back_array, Tree.list?, List.mapM_map]
  rfl

theorem word?_back (n : UInt64) : (word n).back.word? = some n := by
  rw [back, word, settle, Number.reread_natural]
  rfl

theorem string?_back (s : String) : (back (.string s)).string? = some s := rfl

theorem flag?_back (b : Bool) : (back (.bool b)).flag? = some b := rfl

theorem value?_back (j : Json) : j.back.value? = some j.settle := Tree.value?_ofJson (canonical_settle j)

end Json

end FormProgram
