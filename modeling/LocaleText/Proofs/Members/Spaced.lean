import LocaleText.Proofs.Members.Product
import LocaleText.Proofs.Members.Source
import Mathlib.Data.List.Forall2

/-!
# Members side by side

Members stand one behind the other with a separator between any two: a comma and a blank, or a blank
alone. Where a member ends without a comma is told by what comes next. A key is told apart from the
expression before it, but a mark is read as a multiplication.

* `bracedWith` is the text of such an object, and `objectOf` what its members come to
* `readsAs_comma` and `readsAs_spaced` are the members that are read as they are written
* `readsAs_begun` is a mark in front of an integer with a name behind it
-/

namespace LocaleText

/-- An object whose members stand one behind the other with a separator between any two. -/
def bracedWith (separator : List Char) (members : List (List Char)) : List Char :=
  ['\x7b'] ++ separator.intercalate members ++ ['\x7d']

def objectOf (ms : List Member) : Value :=
  .object (Keyed.ofList (bareMembers (ms.map Member.entry))) (Member.default? ms) default

/-! ### Texts with separators -/

section Texts

variable {separator text : List Char} {texts : List (List Char)} {m : Member} {ms : List Member}

theorem exists_intercalate_cons (separator text : List Char) (texts : List (List Char)) :
    ∃ more, separator.intercalate (text :: texts) = text ++ more := by
  cases texts with
  | nil => exact ⟨[], by rw [List.intercalate_singleton, List.append_nil]⟩
  | cons next texts => exact ⟨_, by rw [List.intercalate_cons_cons, List.append_assoc]⟩

theorem intercalate_cons_append (separator text : List Char) (texts : List (List Char))
    (next : List Char) (more : List (List Char)) :
    separator.intercalate (text :: texts ++ next :: more) =
      separator.intercalate (text :: texts) ++ separator ++ separator.intercalate (next :: more) := by
  induction texts generalizing text with
  | nil => rw [List.singleton_append, List.intercalate_cons_cons, List.intercalate_singleton]
  | cons text' texts ih =>
    rw [List.cons_append, List.cons_append, List.intercalate_cons_cons, ← List.cons_append, ih,
      List.intercalate_cons_cons]
    simp only [List.append_assoc]

theorem intercalate_append_cons (separator front text : List Char) (texts : List (List Char)) :
    separator.intercalate ((front ++ text) :: texts) = front ++ separator.intercalate (text :: texts) := by
  induction front with
  | nil => rfl
  | cons c front ih => rw [List.cons_append, List.intercalate_cons_cons_left, ih, List.cons_append]

/-- A key goes on with no operation, and it is no comma. -/
theorem stops_of_unmarked (h : MemberText text m) (hm : m.marked = false) (rest : List Char) :
    Stops 0 (text ++ rest) ∧ (text ++ rest).head? ≠ some ',' := by
  obtain ⟨c, cs, rfl, ⟨hmark, _⟩ | ⟨_, hc⟩⟩ := h.exists_cons
  · rw [hm] at hmark
    cases hmark
  · obtain ⟨_, hops, hq, hcomma, _⟩ := key_head hc
    exact ⟨.cons hops hq, by simpa using hcomma⟩

/-- A list that begins with a key. -/
theorem nextNot_isSign_of_unmarked (h : List.Forall₂ MemberText (text :: texts) (m :: ms))
    (hm : m.marked = false) : NextNot isSign ([' '].intercalate (text :: texts)) := by
  obtain ⟨htext, _⟩ := List.forall₂_cons.mp h
  obtain ⟨more, hmore⟩ := exists_intercalate_cons [' '] text texts
  rw [hmore]
  exact nextNot_isSign_of_stops (stops_of_unmarked htext hm more).1

end Texts

/-! ### Members that are accepted -/

section Accepted

variable {texts : List (List Char)} {text rest : List Char} {ms ms' : List Member} {m : Member}
  {depth o : Nat}

/-- Up to spans an object is what its members are up to spans. -/
theorem bare_object {s : Span} (h : ms'.map Member.bare = ms.map Member.bare) :
    (Value.object (Member.entries ms') (Member.default? ms') s).bare = objectOf ms := by
  rw [Value.bare, bareMembers_entries, Member.bareMembers_map_entry_congr h, Member.default?_congr h,
    objectOf]

/-- A comma and a blank between any two members make a list with commas. -/
theorem commaSeparated_intercalate (h : List.Forall₂ MemberText (text :: texts) (m :: ms)) :
    CommaSeparated MemberText ([',', ' '].intercalate (text :: texts)) (m :: ms) := by
  induction texts generalizing text m ms with
  | nil =>
    obtain _ | ⟨hm, _ | _⟩ := h
    have hlast := CommaSeparated.mk .nil hm blanks_nil
    simpa using hlast
  | cons next texts ih =>
    obtain _ | ⟨hm, hrest⟩ := h
    obtain _ | ⟨hnext, hmore⟩ := hrest
    have hcons := CommaSeparated.cons hm blanks_nil blanks_space (ih (.cons hnext hmore))
    rw [List.intercalate_cons_cons]
    simpa using hcons

/-- With commas the members are an object as it is written. -/
theorem objectText_bracedWith_comma (h : List.Forall₂ MemberText texts ms) :
    ObjectText (bracedWith [',', ' '] texts) ms := by
  cases h with
  | nil => exact .mk blanks_nil (.inl .nil)
  | cons hm hms => exact .mk blanks_nil (.inr (commaSeparated_intercalate (.cons hm hms)))

/-- A member with a blank behind it in front of others. -/
theorem MemberText.spells_blank (h : MemberText text m) (hsign : NextNot isSign rest)
    (hrest : SpellsMembers ⟨none, depth⟩ (o + byteLength (text ++ [' '])) rest ms) :
    ∃ m', m'.bare = m.bare ∧ SpellsMembers ⟨none, depth⟩ o (text ++ [' '] ++ rest) (m' :: ms) := by
  have hseparator : ∀ ending : Ending, Separator ending [' '] rest [] :=
    fun _ => .omitted ⟨fun h => absurd h (by decide), hsign⟩
  rw [← List.append_nil (text ++ [' '])] at hrest ⊢
  exact h.spells_cons blanks_space hseparator hrest

/-- By induction on the members: with blanks between them they are spelled, if only the first one has a
mark. -/
theorem spells_spaced (h : List.Forall₂ MemberText texts ms)
    (hnone : ∀ m ∈ ms.tail, m.marked = false) (depth o : Nat) :
    ∃ ms', ms'.map Member.bare = ms.map Member.bare ∧
      SpellsMembers ⟨none, depth⟩ o ([' '].intercalate texts) ms' := by
  induction h generalizing o with
  | nil => exact ⟨[], rfl, .nil⟩
  | @cons text m texts ms hm hms ih =>
    cases hms with
    | nil =>
      have hend : ∀ ending : Ending, Separator ending [] [] [] :=
        fun _ => .omitted ⟨fun _ => nextNot_nil _, nextNot_nil _⟩
      obtain ⟨m', hbare, hspells⟩ := hm.spells_cons blanks_nil hend .nil
      rw [List.append_nil, List.append_nil, List.append_nil] at hspells
      rw [List.intercalate_singleton]
      exact ⟨[m'], by rw [List.map_singleton, hbare]; rfl, hspells⟩
    | @cons next m₁ texts ms hm₁ hms =>
      obtain ⟨ms', hbares, hrest⟩ := ih (fun m hm => hnone m (List.mem_cons_of_mem _ hm))
        (o + byteLength (text ++ [' ']))
      have hsign := nextNot_isSign_of_unmarked (.cons hm₁ hms) (hnone m₁ (List.mem_cons_self ..))
      obtain ⟨m', hbare, hspells⟩ := hm.spells_blank hsign hrest
      rw [List.intercalate_cons_cons]
      exact ⟨m' :: ms', by rw [List.map_cons, List.map_cons, hbare, hbares], hspells⟩

/-- A mark on the first member only is one mark at most. -/
theorem countP_marked_le_one (hnone : ∀ m ∈ ms.tail, m.marked = false) :
    ms.countP Member.marked ≤ 1 := by
  cases ms with
  | nil => simp
  | cons m ms =>
    have hzero : ms.countP Member.marked = 0 := Member.countP_marked_eq_zero_iff.mpr hnone
    rw [List.countP_cons, hzero]
    split <;> simp

/-- With commas the members are read as they are written, -/
theorem readsAs_comma (h : List.Forall₂ MemberText texts ms) (hc : ms.countP Member.marked ≤ 1) :
    ReadsAs (bracedWith [',', ' '] texts) (fun v => v.bare = objectOf ms) := by
  refine .of_spells rfl fun depth o => ?_
  obtain ⟨ms', hbares, hspells⟩ := (objectText_bracedWith_comma h).spells hc depth o
  exact ⟨_, bare_object hbares, hspells⟩

/-- and so they are without commas, if only the first one has a mark. -/
theorem readsAs_spaced (h : List.Forall₂ MemberText texts ms)
    (hnone : ∀ m ∈ ms.tail, m.marked = false) :
    ReadsAs (bracedWith [' '] texts) (fun v => v.bare = objectOf ms) := by
  refine .of_spells rfl fun depth o => ?_
  obtain ⟨ms', hbares, hspells⟩ :=
    spells_spaced h hnone (depth + 1) (o + byteLength (['\x7b'] ++ []))
  have hc := countP_marked_le_one hnone
  rw [← Member.countP_marked_congr hbares] at hc
  exact ⟨_, bare_object hbares, .object rfl (by decide) hspells hc rfl⟩

end Accepted

/-! ### Marks that are read as multiplications -/

section Begun

variable {text digits rest : List Char} {texts : List (List Char)} {m : Member} {ms : List Member}

/-- By induction on the members: an integer behind a mark is a factor of the last one, and what follows
are more members. -/
theorem spells_begun (h : List.Forall₂ MemberText (text :: texts) (m :: ms))
    (hnone : ∀ m' ∈ m :: ms, m'.marked = false) (hf : FactorText digits .digits)
    (hrest : NextNot Char.isDigit rest) (hsign : NextNot isSign rest) (depth o : Nat)
    (hspells : ∀ o, ∃ ms', ms'.countP Member.marked = 0 ∧ SpellsMembers ⟨none, depth⟩ o rest ms') :
    ∃ ms', ms'.countP Member.marked = 0 ∧ SpellsMembers ⟨none, depth⟩ o
      ([' '].intercalate (text :: texts) ++ [' ', '*'] ++ digits ++ rest) ms' := by
  obtain ⟨hmark, hnone'⟩ := List.forall_mem_cons.mp hnone
  induction texts generalizing text m ms o with
  | nil =>
    obtain _ | ⟨hm, _ | _⟩ := h
    obtain @⟨m, key, item, ending, hkey, hitem⟩ := hm
    obtain ⟨e, _, hexpr⟩ := hitem depth (o + byteLength (m.mark ++ key))
    obtain ⟨e', hproduct⟩ := hexpr.times rfl blanks_space hf
    obtain ⟨ms', hzero, hmembers⟩ :=
      hspells (o + byteLength (m.mark ++ key ++ (item ++ [' '] ++ ['*'] ++ digits) ++ [] ++ []))
    refine ⟨⟨m.marked, m.key, e'⟩ :: ms', ?_, .cons hkey hproduct blanks_nil
      (.omitted ⟨fun _ => hrest, hsign⟩) hmembers ?_⟩
    · rw [List.countP_cons_of_neg (by simp [hmark]), hzero]
    · rw [List.intercalate_singleton]
      simp [Member.mark]
  | cons next texts ih =>
    obtain _ | ⟨hm, hms⟩ := h
    obtain _ | @⟨_, m₁, _, ms, hm₁, hms⟩ := hms
    obtain ⟨hmark₁, hnone₁⟩ := List.forall_mem_cons.mp hnone'
    obtain ⟨ms', hzero, hmembers⟩ :=
      ih (.cons hm₁ hms) hnone' (o + byteLength (text ++ [' '])) hmark₁ hnone₁
    obtain ⟨more, hmore⟩ := exists_intercalate_cons [' '] next texts
    have hbegins : NextNot isSign
        ([' '].intercalate (next :: texts) ++ [' ', '*'] ++ digits ++ rest) := by
      rw [hmore]
      simp only [List.append_assoc]
      exact nextNot_isSign_of_stops (stops_of_unmarked hm₁ hmark₁ _).1
    obtain ⟨m', hbare, hcons⟩ := hm.spells_blank hbegins hmembers
    have hmark' : m'.marked = false := (congrArg Member.marked hbare).trans hmark
    refine ⟨m' :: ms', by rw [List.countP_cons_of_neg (by simp [hmark']), hzero], ?_⟩
    rw [List.intercalate_cons_cons]
    simpa using hcons

/-- Where the key behind a mark begins with an integer, the rest of the member is one of its own, and
the object has no default. -/
theorem readsAs_begun {text' : List Char} {texts' : List (List Char)} {m' : Member} {ms' : List Member}
    (h : List.Forall₂ MemberText (text :: texts) (m :: ms)) (hnone : ∀ m' ∈ m :: ms, m'.marked = false)
    (hf : FactorText digits .digits) (h' : List.Forall₂ MemberText (text' :: texts') (m' :: ms'))
    (hnone' : ∀ m ∈ m' :: ms', m.marked = false) (hdigit : NextNot Char.isDigit text') :
    ReadsAs (bracedWith [' '] (text :: texts ++ (['*'] ++ digits ++ text') :: texts'))
      (fun v => ∃ entries s, v = .object entries none s) := by
  have hrest : NextNot Char.isDigit ([' '].intercalate (text' :: texts')) := by
    obtain ⟨more, hmore⟩ := exists_intercalate_cons [' '] text' texts'
    obtain ⟨c, cs, rfl, _⟩ := (List.forall₂_cons.mp h').1.exists_cons
    rw [hmore]
    exact nextNot_cons.mpr (nextNot_cons.mp hdigit)
  have hsign := nextNot_isSign_of_unmarked h' (hnone' m' (List.mem_cons_self ..))
  have hlater : ∀ depth o, ∃ ms'', ms''.countP Member.marked = 0 ∧
      SpellsMembers ⟨none, depth⟩ o ([' '].intercalate (text' :: texts')) ms'' := by
    intro depth o
    obtain ⟨ms'', hbares, hspells⟩ :=
      spells_spaced h' (fun m hm => hnone' m (List.mem_cons_of_mem _ hm)) depth o
    exact ⟨ms'', (Member.countP_marked_congr hbares).trans (Member.countP_marked_eq_zero_iff.mpr hnone'), hspells⟩
  refine .of_spells rfl fun depth o => ?_
  obtain ⟨ms'', hzero, hspells⟩ := spells_begun h hnone hf hrest hsign (depth + 1)
    (o + byteLength (['\x7b'] ++ [])) (hlater (depth + 1))
  refine ⟨_, ⟨_, _, congrArg (Value.object _ · _) (Member.default?_eq_none_iff.mpr hzero)⟩,
    .object rfl (by decide) hspells (by omega) ?_⟩
  rw [bracedWith, intercalate_cons_append, intercalate_append_cons]
  simp

end Begun

end LocaleText
