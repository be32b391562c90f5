import LocaleText.Proofs.Grammar.Basic

/-!
# Keyed lists as they are built

A keyed list that is built up by insertions holds nothing but what was inserted, under the keys that
were inserted, each of them once.

* `Keyed.mem_insert`, `Keyed.mem_keys_insert` and `Keyed.nodup_insert` are about one insertion
* `Keyed.mem_foldl_insert`, `Keyed.mem_keys_foldl_insert` and `Keyed.nodup_foldl_insert` are the
  facts about insertions one after another
* `Member.mem_entries` and `mem_attributesOf` are those about the members of an object and about
  attributes
-/

namespace LocaleText

namespace Keyed

section Insertions

variable {α β : Type} {entries : Keyed α} {entry : String × α} {key : String} {value : α}
  {k : β → String} {f : β → α} {written : List β}

/-- A member is the new one, or was there before. -/
theorem mem_insert (h : entry ∈ entries.insert key value) :
    entry = (key, value) ∨ entry ∈ entries := by
  induction entries with
  | nil => exact .inl (List.mem_singleton.mp h)
  | cons other rest ih =>
    obtain ⟨name, old⟩ := other
    rw [insert] at h
    split at h
    · rename_i hname
      rcases List.mem_cons.mp h with rfl | h
      · exact .inl (by rw [hname])
      · exact .inr (List.mem_cons_of_mem _ h)
    · rcases List.mem_cons.mp h with rfl | h
      · exact .inr (List.mem_cons_self ..)
      · exact (ih h).imp_right (List.mem_cons_of_mem _)

theorem mem_keys_insert {name : String} :
    name ∈ (entries.insert key value).keys ↔ name ∈ entries.keys ∨ name = key := by
  rw [keys_insert]
  split
  · rename_i hkey
    exact (or_iff_left_of_imp fun h => h ▸ hkey).symm
  · rw [List.mem_append, List.mem_singleton]

/-- No key comes twice. -/
theorem nodup_insert (h : entries.keys.Nodup) : (entries.insert key value).keys.Nodup := by
  rw [keys_insert]
  split
  · exact h
  · rename_i hkey
    refine List.nodup_append.mpr ⟨h, by simp, ?_⟩
    intro name hname other hother he
    rw [he, List.mem_singleton.mp hother] at hname
    exact hkey hname

/-- What is there after some insertions was there before, or has been inserted. -/
theorem mem_foldl_insert
    (h : entry ∈ written.foldl (fun entries b => entries.insert (k b) (f b)) entries) :
    entry ∈ entries ∨ ∃ b ∈ written, entry = (k b, f b) := by
  induction written generalizing entries with
  | nil => exact .inl h
  | cons b written ih =>
    rcases ih h with h | ⟨c, hc, he⟩
    · rcases mem_insert h with he | h
      · exact .inr ⟨b, List.mem_cons_self .., he⟩
      · exact .inl h
    · exact .inr ⟨c, List.mem_cons_of_mem _ hc, he⟩

theorem mem_keys_foldl_insert {name : String} :
    name ∈ (written.foldl (fun entries b => entries.insert (k b) (f b)) entries).keys ↔
      name ∈ entries.keys ∨ ∃ b ∈ written, k b = name := by
  induction written generalizing entries with
  | nil => simp
  | cons b written ih =>
    rw [List.foldl_cons, ih, mem_keys_insert, or_assoc]
    simp [eq_comm]

theorem nodup_foldl_insert (h : entries.keys.Nodup) :
    (written.foldl (fun entries b => entries.insert (k b) (f b)) entries).keys.Nodup := by
  induction written generalizing entries with
  | nil => exact h
  | cons b written ih => exact ih (nodup_insert h)

end Insertions

end Keyed

/-! ### Members and attributes -/

theorem Member.mem_entries {ms : List Member} {entry : String × Expr} (h : entry ∈ entries ms) :
    ∃ m ∈ ms, entry = (m.key, m.value) :=
  (Keyed.mem_foldl_insert h).resolve_left List.not_mem_nil

theorem mem_attributesOf {attributes : List (String × Value)} {a : String × Value}
    (h : a ∈ attributesOf attributes) : a ∈ attributes := by
  obtain ⟨b, hb, rfl⟩ := (Keyed.mem_foldl_insert h).resolve_left List.not_mem_nil
  exact hb

end LocaleText
