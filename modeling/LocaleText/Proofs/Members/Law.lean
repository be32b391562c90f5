import LocaleText.Proofs.Layout.Reading

/-!
# Keys that are written more than once

A keyed list that is built up from what is written, one pair after another, has each key once, in the
order in which the keys came first, with the value that was written last under it.

* `Keyed.Collects` is that law, and `Keyed.collects_ofList` says that insertions follow it
* `bareMembers_entries` and `Attributes.bare_attributesOf` build the members of an object and
  attributes up to spans
* `Member.default?_eq_some_iff` and `Member.exists_defaultMember?` are about the default of an object
-/

namespace LocaleText

namespace Keyed

variable {α β : Type}

/-- The keyed list that is built up from what is written. -/
def ofList (written : List (String × α)) : Keyed α :=
  written.foldl (fun entries e => entries.insert e.1 e.2) []

/-- The value that is written last under a key. -/
def last? (written : List (String × α)) (key : String) : Option α := get? written.reverse key

/-- A keyed list holds what is written: each key once, in the order of the first occurrences, with the
value of its last occurrence. -/
structure Collects (written : List (String × α)) (entries : Keyed α) : Prop where
  keys : entries.keys = (written.map Prod.fst).eraseDups
  value : ∀ key, entries.get? key = last? written key

section Insertions

variable {entries : Keyed α} {written : List (String × α)} {key name : String} {value : α}

/-- The first pair of a key is found. -/
theorem get?_cons (entry : String × α) (key : String) :
    get? (entry :: entries) key = if entry.1 = key then some entry.2 else entries.get? key := by
  rw [get?, List.find?_cons]
  by_cases h : entry.1 = key
  · simp [h]
  · simp [h, get?]

theorem get?_insert_of_ne (h : name ≠ key) :
    (entries.insert name value).get? key = entries.get? key := by
  induction entries with
  | nil => simp [insert, get?, h]
  | cons entry rest ih =>
    obtain ⟨other, old⟩ := entry
    by_cases hother : other = name
    · have hkey : other ≠ key := hother ▸ h
      rw [insert, if_pos hother, get?_cons, get?_cons, if_neg hkey, if_neg hkey]
    · rw [insert, if_neg hother, get?_cons, get?_cons, ih]

theorem find?_of_get? (h : entries.get? key = some value) :
    entries.find? (fun entry => entry.1 = key) = some (key, value) := by
  obtain ⟨⟨name, item⟩, hfind, hvalue⟩ := Option.map_eq_some_iff.mp h
  have hname : name = key := by simpa using List.find?_some hfind
  rw [hfind, hname, ← hvalue]

/-- What is written last under a key hides what is before it. -/
theorem last?_concat (entry : String × α) (key : String) : last? (written ++ [entry]) key =
    if entry.1 = key then some entry.2 else last? written key := by
  rw [last?, List.reverse_append, List.reverse_singleton, List.singleton_append, get?_cons, last?]

theorem eraseDups_concat (keys : List String) (key : String) : (keys ++ [key]).eraseDups =
    if key ∈ keys then keys.eraseDups else keys.eraseDups ++ [key] := by
  rw [List.eraseDups_append]
  by_cases h : key ∈ keys
  · simp [List.removeAll, h]
  · simp [List.removeAll, h, List.eraseDups_cons]

/-- One more insertion follows the law. -/
theorem Collects.insert (h : Collects written entries) (key : String) (value : α) :
    Collects (written ++ [(key, value)]) (entries.insert key value) := by
  constructor
  · simp only [keys_insert, h.keys, List.mem_eraseDups, List.map_append, List.map_cons, List.map_nil,
      eraseDups_concat]
  · intro name
    rw [last?_concat]
    by_cases hkey : key = name
    · rw [if_pos hkey, ← hkey, get?_insert_self]
    · rw [if_neg hkey, get?_insert_of_ne hkey, h.value]

/-- One pair after another, by induction on those that follow. -/
theorem Collects.foldl_insert (h : Collects written entries) (more : List (String × α)) :
    Collects (written ++ more) (more.foldl (fun entries e => entries.insert e.1 e.2) entries) := by
  induction more generalizing written entries with
  | nil => rwa [List.append_nil]
  | cons entry more ih =>
    rw [List.append_cons]
    exact ih (h.insert entry.1 entry.2)

/-- Insertions one after another hold what is written. -/
theorem collects_ofList (written : List (String × α)) : Collects written (ofList written) := by
  have hnil : Collects ([] : List (String × α)) [] := ⟨rfl, fun _ => rfl⟩
  exact hnil.foldl_insert written

/-- A key that is written has a value. -/
theorem Collects.exists_value (h : Collects written entries) (hkey : key ∈ written.map Prod.fst) :
    ∃ value, last? written key = some value ∧
      entries.find? (fun entry => entry.1 = key) = some (key, value) := by
  have hmem : key ∈ entries.keys := by
    rw [h.keys]
    exact List.mem_eraseDups.mpr hkey
  obtain ⟨entry, hentry, hname⟩ := List.mem_map.mp hmem
  cases hget : entries.get? key with
  | none =>
    have hnone := List.find?_eq_none.mp (Option.map_eq_none_iff.mp hget) entry hentry
    exact absurd (decide_eq_true hname) hnone
  | some value => exact ⟨value, (h.value key).symm.trans hget, find?_of_get? hget⟩

/-! ### Other values -/

/-- What is made of the values does not touch the keys. -/
theorem map_insert (f : α → β) (key : String) (value : α) (entries : Keyed α) :
    (entries.insert key value).map (fun e => (e.1, f e.2)) =
      Keyed.insert key (f value) (entries.map fun e => (e.1, f e.2)) := by
  induction entries with
  | nil => rfl
  | cons entry rest ih =>
    obtain ⟨name, old⟩ := entry
    by_cases hname : name = key
    · simp only [Keyed.insert, if_pos hname, List.map_cons]
    · simp only [Keyed.insert, if_neg hname, List.map_cons, ih]

theorem map_foldl_insert (f : α → β) (written : List (String × α)) (entries : Keyed α) :
    (written.foldl (fun entries e => entries.insert e.1 e.2) entries).map (fun e => (e.1, f e.2)) =
      (written.map fun e => (e.1, f e.2)).foldl (fun entries e => Keyed.insert e.1 e.2 entries)
        (entries.map fun e => (e.1, f e.2)) := by
  induction written generalizing entries with
  | nil => rfl
  | cons entry written ih => rw [List.foldl_cons, ih, map_insert, List.map_cons, List.foldl_cons]

/-- It makes no difference whether values are changed before or after they are inserted. -/
theorem map_ofList (f : α → β) (written : List (String × α)) :
    (ofList written).map (fun e => (e.1, f e.2)) = ofList (written.map fun e => (e.1, f e.2)) :=
  map_foldl_insert f written []

end Insertions

end Keyed

/-! ### Members and attributes -/

theorem Attributes.bare_attributesOf (written : List (String × Value)) :
    (attributesOf written).bare = Keyed.ofList (Attributes.bare written) :=
  Keyed.map_ofList Value.bare written

variable {ms : List Member} {key : String}

theorem bareMembers_entries (ms : List Member) :
    bareMembers (Member.entries ms) = Keyed.ofList (bareMembers (ms.map Member.entry)) := by
  have hentries : Member.entries ms = Keyed.ofList (ms.map Member.entry) := by
    rw [Keyed.ofList, List.foldl_map]
    rfl
  rw [hentries, bareMembers_eq_map, bareMembers_eq_map, Keyed.map_ofList]

theorem Value.defaultMember?_bare (v : Value) :
    v.bare.defaultMember? = v.defaultMember?.map fun member => (member.1, member.2.bare) := by
  obtain _ | _ | ⟨members, _ | key, s⟩ := v
  · rfl
  · rfl
  · rfl
  · rw [Value.bare, bareMembers_eq_map, Value.defaultMember?, List.find?_map]
    rfl

namespace Member

/-- The default is the key that is marked, if no second one is. -/
theorem default?_eq_some_iff (hc : ms.countP marked ≤ 1) :
    default? ms = some key ↔ ∃ m ∈ ms, m.marked = true ∧ m.key = key := by
  induction ms with
  | nil => simp [default?]
  | cons m ms ih =>
    cases hmark : m.marked with
    | true =>
      rw [List.countP_cons_of_pos hmark] at hc
      have hnone : ∀ m' ∈ ms, ¬ m'.marked = true := List.countP_eq_zero.mp (by omega)
      rw [default?, List.find?_cons_of_pos hmark, Option.map_some, Option.some.injEq]
      constructor
      · intro h
        exact ⟨m, List.mem_cons_self .., hmark, h⟩
      · intro h
        obtain ⟨m', hm', hmark', h⟩ := h
        rcases List.mem_cons.mp hm' with rfl | hm'
        · exact h
        · exact absurd hmark' (hnone m' hm')
    | false =>
      have hneg : ¬ m.marked = true := by simp [hmark]
      rw [List.countP_cons_of_neg hneg] at hc
      rw [default?, List.find?_cons_of_neg hneg, ← default?, ih hc]
      simp [hmark]

/-- The default member is the one under the default key, with the value that is written last. -/
theorem exists_defaultMember? {s : Span} (h : default? ms = some key) :
    ∃ item, (Value.object (entries ms) (some key) s).defaultMember? = some (key, item) ∧
      Keyed.last? (bareMembers (ms.map entry)) key = some item.bare := by
  have hc : Keyed.Collects (bareMembers (ms.map entry)) (bareMembers (entries ms)) := by
    rw [bareMembers_entries]
    exact Keyed.collects_ofList _
  obtain ⟨m, hfind, hkey⟩ := Option.map_eq_some_iff.mp h
  have hwritten : key ∈ (bareMembers (ms.map entry)).map Prod.fst := by
    rw [bareMembers_map_entry, ← hkey]
    exact List.mem_map_of_mem (List.mem_of_find?_eq_some hfind)
  obtain ⟨item, hlast, hfind⟩ := hc.exists_value hwritten
  have hbare := Value.defaultMember?_bare (.object (entries ms) (some key) s)
  rw [Value.bare, Value.defaultMember?, hfind] at hbare
  obtain ⟨⟨name, e⟩, hmember, heq⟩ := Option.map_eq_some_iff.mp hbare.symm
  obtain ⟨rfl, rfl⟩ := Prod.mk.inj heq
  exact ⟨e, hmember, hlast⟩

end Member

end LocaleText
