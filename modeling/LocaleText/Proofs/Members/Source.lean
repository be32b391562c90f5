import LocaleText.Proofs.Members.Reading

/-!
# Objects in sources

What becomes of a text without a limit, wherever a value is read and whatever follows, and what becomes
of a source in which it is the value of an entity.

* `ReadsAs` and `RefusedAs` are the two outcomes
* `ReadsAs.of_spells` and `RefusedAs.of_value` lead to them from the grammar and from the reader of
  values
-/

namespace LocaleText

/-- The text of a source in front of the value of its first entity. -/
inductive EntityFront : List Char → Prop
  | mk {id index before : List Char} {name : String} {ending : Ending} {es : Option (List Expr)} :
      NameText id name ending →
      SpellsIndex (.outermost none) (0 + byteLength (['<'] ++ id)) index es → Blanks before →
      EntityFront (['<'] ++ id ++ index ++ before)

/-- Without a limit a value with a property is read from a text, wherever a value is read and whatever
follows. -/
structure ReadsAs (text : List Char) (P : Value → Prop) : Prop where
  value : ∀ bound bound' depth o rest, (text ++ rest).length ≤ bound → bound ≤ bound' →
    ∃ v, P v ∧ Reader.value (Reader.expression bound') (bound + 1) ⟨none, depth⟩ ⟨o, text ++ rest⟩ =
      .ok v ⟨o + byteLength text, rest⟩
  entity : ∀ front, EntityFront front → ∃ r e,
    Resource.read none (String.ofList (front ++ text ++ ['>'])) = .ok r ∧ r.entries = [.entity e] ∧
      P e.value

/-- Without a limit a text has a fault, wherever a value is read and whatever follows. -/
structure RefusedAs (text : List Char) (fault : Fault) : Prop where
  value : ∀ bound bound' depth o rest, (text ++ rest).length ≤ bound → bound ≤ bound' →
    ∃ l, Reader.value (Reader.expression bound') (bound + 1) ⟨none, depth⟩ ⟨o, text ++ rest⟩ =
      .error (fault.shift o) l
  entity : ∀ front rest, EntityFront front →
    Resource.read none (String.ofList (front ++ text ++ rest)) =
      .error ((fault.shift (byteLength front)).toError (String.ofList (front ++ text ++ rest)))

theorem extent_shift (o k : Nat) (text : List Char) :
    (extent k text).shift o = extent (o + k) text := by
  simp only [extent, Span.shift, Nat.add_comm o k, Nat.add_right_comm]

/-! ### What is read -/

section Reads

variable {text : List Char} {P : Value → Prop}

/-- A source that is an entry. -/
theorem read_of_spellsEntry {e : Entry} (h : SpellsEntry (.outermost none) 0 text e) :
    ∃ r, Resource.read none (String.ofList text) = .ok r ∧ r.entries = [e] := by
  have hbody : SpellsBody (.outermost none) 0 text [.entry e] :=
    .entry blanks_nil h (.done blanks_nil) (List.append_nil text).symm
  refine ⟨⟨[.entry e], extent 0 text⟩, (Resource.read_eq_ok_iff_spells ..).mpr ?_, rfl⟩
  rw [String.toList_ofList]
  exact ⟨hbody, rfl⟩

/-- An object ends the name of an entity. -/
theorem nextNot_of_brace (ending : Ending) (rest : List Char) :
    NextNot (fun c => ending.continues c || c == '[') ('\x7b' :: rest) := by
  rw [nextNot_cons, Ending.continues_eq_false (by decide) (by decide) (by decide) (by decide)]
  rfl

/-- What the grammar says of a text in braces is what a reader makes of it. -/
theorem ReadsAs.of_spells (hb : text.head? = some '\x7b')
    (h : ∀ depth o, ∃ v, P v ∧ SpellsValue ⟨none, depth⟩ o text v) : ReadsAs text P := by
  constructor
  · intro bound bound' depth o rest hlen hle
    obtain ⟨v, hv, hspells⟩ := h depth o
    have hexact : Exact bound (Reader.expression bound') := (Reader.exact_expression bound').mono hle
    exact ⟨v, hv, (Reader.value_iff hexact (Nat.lt_succ_of_le hlen)).mpr
      ⟨text, Input.takes_after rfl, hspells⟩⟩
  · intro front hfront
    obtain @⟨id, index, before, name, ending, es, hname, hindex, hbefore⟩ := hfront
    obtain ⟨v, hv, hspells⟩ := h 0 (0 + byteLength (['<'] ++ id ++ index ++ before))
    obtain ⟨cs, rfl⟩ := List.head?_eq_some_iff.mp hb
    obtain ⟨r, hread, hentries⟩ := read_of_spellsEntry (.entity hname hindex hbefore
      (fun _ _ => nextNot_of_brace ending cs) hspells blanks_nil .bare rfl)
    rw [List.append_nil] at hread
    exact ⟨r, _, hread, hentries, hv⟩

/-- A property that says less holds as well. -/
theorem ReadsAs.mono {Q : Value → Prop} (h : ReadsAs text P) (hpq : ∀ v, P v → Q v) :
    ReadsAs text Q := by
  constructor
  · intro bound bound' depth o rest hlen hle
    obtain ⟨v, hv, hread⟩ := h.value bound bound' depth o rest hlen hle
    exact ⟨v, hpq v hv, hread⟩
  · intro front hfront
    obtain ⟨r, e, hread, hentries, hv⟩ := h.entity front hfront
    exact ⟨r, e, hread, hentries, hpq _ hv⟩

end Reads

/-! ### What is refused -/

namespace Reader

variable {bound : Nat} {i k l : Input} {n : Nesting} {e : Fault}

/-- A fault of the value is a fault of the entry. -/
theorem entry_eq_error {front rest : List Char} (hf : EntityFront front) (ho : i.offset = 0)
    (ht : i.Takes front k) (hk : k.rest = '\x7b' :: rest) (hlen : i.rest.length ≤ bound)
    (h : entryValue (bound + 1) (.outermost none) k = .error e l) :
    entry (bound + 1) (.outermost none) i = .error e l := by
  obtain @⟨id, index, before, name, ending, es, hname, hindex, hbefore⟩ := hf
  obtain ⟨m, hm, hskip⟩ := Input.takes_append.mp ht
  have hbehind : m.Skips before k := ⟨hskip, hbefore, by rw [hk]; exact nextNot_cons.mpr (by decide)⟩
  rw [← ho] at hindex
  refine entry_eq_error_of_entity (Nat.lt_succ_of_le hlen) hname hindex hm (fun _ => ?_)
    fun _ => entity_eq_error hbehind h
  rw [hskip.rest]
  refine before_front hbefore (fun _ => ?_) (by simp [hk])
  rw [hk]
  exact nextNot_of_brace ending rest

/-- A fault of the first entry is a fault of the source. -/
theorem ofChars_eq_error {limit : Option Nat} {source : List Char} (hs : source.head? = some '<')
    (h : entry (source.length + 1) (.outermost limit) (.ofText source) = .error e l) :
    Resource.ofChars limit source = .error e := by
  have hfresh : NextNot isBlank (Input.ofText source).rest := nextNot_of_head? hs (by decide)
  refine Resource.ofChars_eq_error_iff.mpr ⟨l, ?_⟩
  rw [items, repeatUpTo]
  refine bind_eq_error.mpr (.inl ?_)
  rw [itemRound_of_skips (Input.Skips.refl hfresh), if_neg (by simp [Input.ofText, hs])]
  exact bind_eq_error.mpr (.inl h)

end Reader

/-- What the reader of values says of a text that begins as an object goes for the value of an entity. -/
theorem RefusedAs.of_value {text : List Char} {fault : Fault} (hb : text.head? = some '\x7b')
    (h : ∀ bound bound' depth o rest, (text ++ rest).length ≤ bound → bound ≤ bound' →
      ∃ l, Reader.value (Reader.expression bound') (bound + 1) ⟨none, depth⟩ ⟨o, text ++ rest⟩ =
        .error (fault.shift o) l) : RefusedAs text fault := by
  refine ⟨h, fun front rest hfront => ?_⟩
  rw [List.append_assoc, Resource.read_eq_error_iff, String.toList_ofList]
  refine ⟨_, ?_, rfl⟩
  have hlen : (text ++ rest).length ≤ (front ++ (text ++ rest)).length := by
    simp
  obtain ⟨l, hvalue⟩ := h _ _ 0 (byteLength front) rest hlen (Nat.le_succ _)
  obtain ⟨cs, rfl⟩ := List.head?_eq_some_iff.mp hb
  have ht : (Input.ofText (front ++ ('\x7b' :: cs ++ rest))).Takes front
      ⟨byteLength front, '\x7b' :: cs ++ rest⟩ := ⟨rfl, (Nat.zero_add _).symm⟩
  have hangle : (front ++ ('\x7b' :: cs ++ rest)).head? = some '<' := by
    obtain ⟨_, _, _⟩ := hfront
    rfl
  exact Reader.ofChars_eq_error hangle (Reader.entry_eq_error hfront rfl ht rfl (Nat.le_refl _) hvalue)

/-- Whatever follows. -/
theorem RefusedAs.append {text : List Char} {fault : Fault} (h : RefusedAs text fault)
    (more : List Char) : RefusedAs (text ++ more) fault := by
  constructor
  · intro bound bound' depth o rest hlen hle
    rw [List.append_assoc] at hlen ⊢
    exact h.value bound bound' depth o (more ++ rest) hlen hle
  · intro front rest hfront
    rw [← List.append_assoc, List.append_assoc _ more]
    exact h.entity front (more ++ rest) hfront

end LocaleText
