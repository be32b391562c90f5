import LocaleText.Proofs.Members.Source

/-!
# Repeated keys and marks

Keys of an object and of attributes may be repeated, the mark of an object may not. A repeated key
keeps the place of its first occurrence and gets the value of its last one.

* `HoldsMembers` is what an object makes of the members that are written
* `SpellsEntry.with_attributes` puts attributes behind an entry that has none
* `read_attributes` is the law for the attributes of entities and of macros
* `read_repeated_keys` is the law, for objects wherever they stand and for the attributes of every
  entry: one mark at most is read, and the second mark is a fault whatever follows it
* `read_repeated_keys_overwritten` is an object and an entry with keys that are written twice
-/

namespace LocaleText

/-- An object with the members that are written: each key once, in the order of the first occurrences,
with the value of its last occurrence. Its default is the marked key, and its default member is that
key with the value that the object has under it. -/
def HoldsMembers (ms : List Member) (v : Value) : Prop :=
  ∃ entries default s, v = .object entries default s ∧
    Keyed.Collects (bareMembers (ms.map Member.entry)) (bareMembers entries) ∧
    (∀ key, default = some key ↔ ∃ m ∈ ms, m.marked = true ∧ m.key = key) ∧
    ∀ key, default = some key → ∃ item, v.defaultMember? = some (key, item) ∧
      Keyed.last? (bareMembers (ms.map Member.entry)) key = some item.bare

def Entry.attributes? : Entry → Option Attributes
  | .entity e => e.attributes
  | .macroDef m => m.attributes

section Objects

variable {text : List Char} {ms ms' : List Member}

/-- What is built up from members holds what is written, also where the values have other spans. -/
theorem holdsMembers (hbares : ms'.map Member.bare = ms.map Member.bare)
    (hc : ms.countP Member.marked ≤ 1) (s : Span) :
    HoldsMembers ms (.object (Member.entries ms') (Member.default? ms') s) := by
  have hwritten := Member.bareMembers_map_entry_congr hbares
  refine ⟨_, _, s, rfl, ?_, fun key => ?_, fun key hkey => ?_⟩
  · rw [bareMembers_entries, hwritten]
    exact Keyed.collects_ofList _
  · rw [Member.default?_congr hbares]
    exact Member.default?_eq_some_iff hc
  · rw [hkey, ← hwritten]
    exact Member.exists_defaultMember? hkey

theorem ObjectText.head? (h : ObjectText text ms) : text.head? = some '\x7b' := by
  cases h
  rfl

theorem ObjectText.readsAs (h : ObjectText text ms) (hc : ms.countP Member.marked ≤ 1) :
    ReadsAs text (HoldsMembers ms) := by
  refine .of_spells h.head? fun depth o => ?_
  obtain ⟨ms', hbares, hspells⟩ := h.spells hc depth o
  exact ⟨_, holdsMembers hbares hc _, hspells⟩

/-- The second mark is reported, with the first one. -/
theorem SecondMark.refusedAs {first second : Nat} (h : SecondMark text ms first second) :
    RefusedAs text ⟨.duplicateDefault, extent second ['*'], none,
      some (.firstDefault, extent first ['*'])⟩ := by
  refine .of_value (by cases h; rfl) fun bound bound' depth o rest hlen hle => ?_
  obtain ⟨l, hvalue⟩ := Reader.value_eq_error_of_secondMark depth h
    (rfl : Input.rest ⟨o, text ++ rest⟩ = text ++ rest) hlen hle
  exact ⟨l, by rw [hvalue]; simp only [Fault.shift, Option.map_some, extent_shift]⟩

end Objects

section Entries

variable {n : Nesting} {o : Nat} {head text : List Char} {attributes : List (String × Value)}

/-- An entry without attributes goes on in front of its closer. -/
theorem SpellsEntry.with_attributes {e : Entry} (h : SpellsEntry n o (head ++ ['>']) e)
    (he : e.attributes? = none) (ht : SpellsAttributes n (o + byteLength head) text attributes) :
    ∃ e', e'.attributes? = some (attributesOf attributes) ∧ SpellsEntry n o (head ++ text ++ ['>']) e' := by
  cases h with
  | entity hname hindex hbefore hnext hvalue hbehind htail htext =>
    cases htail with
    | attributes _ => cases he
    | bare =>
      obtain rfl := List.append_cancel_right htext
      exact ⟨_, rfl, .entity hname hindex hbefore hnext hvalue hbehind (.attributes ht)
        (List.append_assoc ..)⟩
  | macroDef hname hg₁ hparams hg₂ hg₃ hbody hg₄ hg₅ htail htext =>
    cases htail with
    | attributes _ => cases he
    | bare =>
      obtain rfl := List.append_cancel_right htext
      exact ⟨_, rfl, .macroDef hname hg₁ hparams hg₂ hg₃ hbody hg₄ hg₅ (.attributes ht)
        (List.append_assoc ..)⟩

/-- Attributes that are written behind an entry are read with it. -/
theorem read_attributes {e : Entry} {written : Attributes}
    (h : SpellsEntry (.outermost none) 0 (head ++ ['>']) e) (he : e.attributes? = none)
    (ht : CommaSeparated AttributeText text written) :
    ∃ r e' attributes, Resource.read none (String.ofList (head ++ text ++ ['>'])) = .ok r ∧
      r.entries = [e'] ∧ e'.attributes? = some attributes ∧
      Keyed.Collects written.bare attributes.bare := by
  obtain ⟨written', hbares, hspells⟩ := ht.spells_attributes 0 (0 + byteLength head)
  obtain ⟨e', hattributes, hentry⟩ := h.with_attributes he hspells
  obtain ⟨r, hread, hentries⟩ := read_of_spellsEntry hentry
  refine ⟨r, e', _, hread, hentries, hattributes, ?_⟩
  rw [Attributes.bare_attributesOf, hbares]
  exact Keyed.collects_ofList _

end Entries

/-- Without a limit, an object with at most one mark holds each key once, in the order of the first
occurrences, with the value of its last occurrence, and the marked key is its default. One with more
marks is refused at the second of them with a note at the first one, whatever follows behind the
comma or the brace that ends the second marked member. Attributes follow the law of keys too. -/
theorem read_repeated_keys :
    (∀ text ms, ObjectText text ms → ms.countP Member.marked ≤ 1 → ReadsAs text (HoldsMembers ms)) ∧
    (∀ text ms, ObjectText text ms → 2 ≤ ms.countP Member.marked →
      ∃ front rest seen first second, text = front ++ rest ∧ seen <+: ms ∧
        SecondMark front seen first second) ∧
    (∀ front seen first second, SecondMark front seen first second →
      RefusedAs front ⟨.duplicateDefault, extent second ['*'], none,
        some (.firstDefault, extent first ['*'])⟩) ∧
    ∀ head e text (written : Attributes), SpellsEntry (.outermost none) 0 (head ++ ['>']) e →
      e.attributes? = none → CommaSeparated AttributeText text written →
      ∃ r e' attributes, Resource.read none (String.ofList (head ++ text ++ ['>'])) = .ok r ∧
        r.entries = [e'] ∧ e'.attributes? = some attributes ∧
        Keyed.Collects written.bare attributes.bare :=
  ⟨fun _ _ h hc => h.readsAs hc, fun _ _ h hc => h.exists_secondMark hc, fun _ _ _ _ h => h.refusedAs,
    fun _ _ _ _ h he ht => read_attributes h he ht⟩

theorem Expr.asInteger?_bare (e : Expr) : e.bare.asInteger? = e.asInteger? := by
  cases e <;> rfl

/-- An attribute that is a string of one character. -/
theorem attributeText_char {key : String} {c : Char} (hk : IsName key.toList)
    (hc : isWordChar c = true) : AttributeText ((key.toList ++ [] ++ [':'] ++ [' ']) ++ ['\'', c, '\''])
      (key, .string (String.ofList [c]) '\'' default) := by
  have hname : NameText key.toList key .word := by
    simpa using NameText.bare hk
  have hvalue : ValueLayout (['\''] ++ (String.ofList [c]).toList ++ ['\''])
      (.string (String.ofList [c]) '\'' default) := .string
  rw [String.toList_ofList] at hvalue
  refine .mk (.mk hname (by decide) (by decide)) (hvalue.valueText ⟨rfl, ?_⟩)
  rw [String.toList_ofList]
  exact stringContent_of_isWordChar rfl (by simpa using hc)

/-- The marked key is overwritten by a member without a mark; two marks on one key are too many; of two
attributes of one key the last one stays. -/
theorem read_repeated_keys_overwritten :
    (∃ r e item, Resource.read none "<x \x7b*a: 1, b: 2, a: 3\x7d>" = .ok r ∧
      r.entries = [.entity e] ∧ e.value.members?.map Keyed.keys = some ["a", "b"] ∧
      e.value.defaultMember? = some ("a", item) ∧ item.asInteger? = some 3) ∧
    Resource.read none "<x \x7b*a: 1, *a: 2, ]" = .error ⟨.duplicateDefault, ⟨11, 12⟩, ⟨1, 12⟩,
      "object has more than one default member", some ⟨⟨4, 5⟩, "first default here"⟩⟩ ∧
    ∃ r e attributes, Resource.read none "<x 'v' k: 'a', k: 'b'>" = .ok r ∧ r.entries = [e] ∧
      e.attributes? = some attributes ∧ attributes.map Prod.fst = ["k"] := by
  have ha : IsName "a".toList := by decide +kernel
  have hb : IsName "b".toList := by decide +kernel
  have hone := fun marked => memberText_digit '1' marked ha (by decide) (by decide)
  have htwo := fun marked (key : String) (hk : IsName key.toList) =>
    memberText_digit '2' marked hk (by decide) (by decide)
  have hthree := memberText_digit '3' false ha (by decide) (by decide)
  have hx : IsName ['x'] := by decide +kernel
  have hfront : EntityFront ['<', 'x', ' '] := .mk (.bare hx) .none blanks_space
  obtain ⟨hreads, -, hrefused, hattributes⟩ := read_repeated_keys
  refine ⟨?_, ?_, ?_⟩
  · have hobject := ObjectText.mk blanks_nil (.inr (.mk (.cons (hone true) blanks_nil blanks_space (.cons
      (htwo false "b" hb) blanks_nil blanks_space .nil)) hthree blanks_nil))
    obtain ⟨r, e, hread, hentries, members, marked, s, hvalue, hcollects, hdefault, hmember⟩ :=
      (hreads _ _ hobject (by decide)).entity _ hfront
    have hkeys := hcollects.keys
    rw [Keyed.keys, map_fst_bareMembers] at hkeys
    have hmarked := (hdefault "a").mpr ⟨_, List.mem_cons_self .., rfl, rfl⟩
    obtain ⟨item, hitem, hlast⟩ := hmember "a" hmarked
    have hinteger : item.bare = .integer 3 default := (Option.some.inj hlast).symm
    refine ⟨r, e, item, hread, hentries, ?_, hitem, ?_⟩
    · rw [hvalue]
      exact congrArg some hkeys
    · rw [← Expr.asInteger?_bare, hinteger]
      rfl
  · have hmark := SecondMark.mk blanks_nil .nil (by simp) (.cons (hone true) blanks_nil blanks_space .nil) rfl (by simp)
      (htwo true "a" ha) rfl blanks_nil (.inl rfl)
    have hread := (hrefused _ _ _ _ hmark).entity _ [' ', ']'] hfront
    exact hread.trans (congrArg Except.error (by decide +kernel))
  · have hk : IsName "k".toList := by decide +kernel
    have hword : isWordChar 'v' = true := by decide
    have hcontent : StringContent '\'' 0 ['v'] := stringContent_of_isWordChar rfl (by simpa using hword)
    have hentry : SpellsEntry (.outermost none) 0
        (['<'] ++ ['x'] ++ [] ++ [' '] ++ ['\'', 'v', '\''] ++ [' '] ++ ['>']) _ :=
      .entity (.bare hx) .none blanks_space (fun _ h => absurd h (by decide))
        (.string rfl rfl hcontent rfl) blanks_space .bare rfl
    have htext := CommaSeparated.mk (.cons
      (attributeText_char hk (c := 'a') (by decide)) blanks_nil blanks_space .nil)
      (attributeText_char hk (c := 'b') (by decide)) blanks_nil
    obtain ⟨r, e, attributes, hread, hentries, hsome, hcollects⟩ := hattributes _ _ _ _ hentry rfl htext
    have hkeys := hcollects.keys
    rw [Keyed.keys, Attributes.map_fst_bare] at hkeys
    exact ⟨r, e, attributes, hread, hentries, hsome, hkeys⟩

end LocaleText
