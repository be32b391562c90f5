/-!
# Keyed lists

A keyed list holds values under string keys in the order in which the keys first came.

* `Keyed.insert` puts a new key last; for a key that is there it replaces the value in its place
* `Keyed.get?` finds the value of a key, `Keyed.keys` lists the keys
-/

namespace LocaleText

/-- Values under string keys, in the order of the keys' first insertion. -/
abbrev Keyed (α : Type) := List (String × α)

namespace Keyed

variable {α : Type}

/-- Gives `key` the value `value`: in place if the key is there already, else at the end. -/
def insert (key : String) (value : α) : Keyed α → Keyed α
  | [] => [(key, value)]
  | (k, v) :: rest => if k = key then (k, value) :: rest else (k, v) :: insert key value rest

def get? (entries : Keyed α) (key : String) : Option α :=
  (entries.find? fun entry => entry.1 = key).map Prod.snd

def keys (entries : Keyed α) : List String := entries.map Prod.fst

/-- A new key comes last, one that is there keeps its place. -/
theorem keys_insert (key : String) (value : α) (entries : Keyed α) :
    (entries.insert key value).keys =
      if key ∈ entries.keys then entries.keys else entries.keys ++ [key] := by
  induction entries with
  | nil => simp [insert, keys]
  | cons entry rest ih =>
    obtain ⟨k, v⟩ := entry
    by_cases h : k = key
    · simp [insert, keys, h]
    · have h' : ¬ key = k := fun e => h e.symm
      simp only [keys] at ih
      by_cases hm : key ∈ rest.map Prod.fst <;> simp [insert, keys, h, h', hm, ih]

theorem get?_insert_self (key : String) (value : α) (entries : Keyed α) :
    (entries.insert key value).get? key = some value := by
  induction entries with
  | nil => simp [insert, get?]
  | cons entry rest ih =>
    obtain ⟨k, v⟩ := entry
    by_cases h : k = key
    · simp [insert, get?, h]
    · simpa [insert, get?, h] using ih

end Keyed

end LocaleText
