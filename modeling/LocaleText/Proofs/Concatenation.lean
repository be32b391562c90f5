import LocaleText.Proofs.Locality

/-!
# Sources in a row

Of two sources in a row, of which the first one is read, the second one is read as if it stood
alone, only further on. Where the first ends with blanks and the second begins with some, the two
runs are one in the whole.

* `Resource.append` puts the bodies of two resources in a row, with one gap where two meet
* `SpellsEntry.shift` and `SpellsBody.shift` move entries and bodies to another place
* `SpellsBody.append` and `Reader.items_error_of_blanks` are the joint between the sources, for a
  second source that is read and for one that has a fault
* `Resource.read_append` is the composition, for resources and for errors
* `Resource.read_append_blanks` is a case in which two runs of blanks become one
-/

namespace LocaleText

/-! ### Joining -/

/-- Two gaps that meet as one. -/
def Gap.merge (first second : Gap) : Gap :=
  ⟨first.text ++ second.text, first.span.cover second.span⟩

/-- Two bodies in a row. The gap that ends the first one and the gap that begins the second one
become one. -/
def joinBodies : List Item → List Item → List Item
  | [.gap first], .gap second :: items => .gap (first.merge second) :: items
  | [], items => items
  | item :: body, items => item :: joinBodies body items

def Resource.append (first second : Resource) : Resource :=
  ⟨joinBodies first.body second.body, first.span.cover second.span⟩

/-- An error `k` bytes further on, in another source. -/
def SyntaxError.shift (k : Nat) (source : String) (error : SyntaxError) : SyntaxError :=
  ⟨error.kind, error.span.shift k, Place.of source.toList (error.span.start + k), error.message,
    error.related.map fun related => ⟨related.span.shift k, related.message⟩⟩

/-- A fault further on is told as one of the whole source, at its place there. -/
theorem Fault.toError_shift (k : Nat) (s source : String) (e : Fault) :
    (e.shift k).toError source = (e.toError s).shift k source := by
  obtain ⟨kind, span, detail, note⟩ := e
  cases note <;> rfl

theorem joinBodies_nil (items : List Item) : joinBodies [] items = items := by
  rw [joinBodies]

theorem joinBodies_entry (e : Entry) (body items : List Item) :
    joinBodies (.entry e :: body) items = .entry e :: joinBodies body items := by
  rw [joinBodies]
  intro _ _ _ _ h
  cases h

section Bodies

variable {n : Nesting} {o k : Nat} {gap text rest : List Char} {body items : List Item}

/-- Two runs of blanks that meet are one run. -/
theorem joinBodies_gapItems (gap' : List Char) (hitems : ∀ g rest, items ≠ .gap g :: rest) :
    joinBodies (gapItems o gap) (gapItems (o + byteLength gap) gap' ++ items) =
      gapItems o (gap ++ gap') ++ items := by
  by_cases hgap : gap = []
  · subst hgap
    rw [gapItems, if_pos rfl, joinBodies_nil]
    rfl
  have hall : gap ++ gap' ≠ [] := fun h => hgap (List.append_eq_nil_iff.mp h).1
  rw [gapItems, if_neg hgap, show gapItems o (gap ++ gap') = _ from if_neg hall]
  by_cases hgap' : gap' = []
  · subst hgap'
    rw [gapItems, if_pos rfl, List.nil_append, List.append_nil, joinBodies, joinBodies_nil]
    · rfl
    · intro _ second rest h _ _
      exact hitems second rest h
  · rw [gapItems, if_neg hgap', List.singleton_append, joinBodies]
    simp [Gap.merge, gapAt, extent, Span.cover, String.ofList_append, Nat.add_assoc]

theorem joinBodies_gapItems_entry (e : Entry) :
    joinBodies (gapItems o gap ++ .entry e :: body) items =
      gapItems o gap ++ .entry e :: joinBodies body items := by
  by_cases hgap : gap = []
  · rw [gapItems, if_pos hgap, List.nil_append, List.nil_append, joinBodies_entry]
  · rw [gapItems, if_neg hgap, List.singleton_append, List.singleton_append, joinBodies,
      joinBodies_entry]
    intro _ _ _ _ _ h
    cases h

/-! ### Bodies further on -/

/-- What is read from all of a text is read from it further on. -/
theorem Reader.Carries.whole {α β : Type} {x : Reader α} {y : Reader β} {f : α → β} {b : Nat} {a : α}
    {l : Input} (h : Reader.Carries b k f x y ⟨o, text⟩) (hlen : text.length < b)
    (hx : x ⟨o, text⟩ = .ok a l) (hl : l.rest = []) :
    y ⟨o + k, text⟩ = .ok (f a) ⟨l.offset + k, []⟩ := by
  obtain ⟨front, ht, hsame⟩ := h.ok hx
  have hsplit : text = front := by simpa [hl] using ht.rest
  subst hsplit
  have hthere := hsame [] (by rw [hl]; exact .refl _) (by rwa [List.append_nil])
  rwa [List.append_nil] at hthere

/-- An entry is read from its own text, -/
theorem SpellsEntry.run {e : Entry} (h : SpellsEntry n o text e) :
    Reader.entry (text.length + 1) n ⟨o, text⟩ = .ok e ⟨o + byteLength text, []⟩ := by
  have hlen : (⟨o, text⟩ : Input).rest.length < text.length + 1 := Nat.lt_succ_self _
  have hall : (⟨o, text⟩ : Input).Takes text ⟨o + byteLength text, []⟩ :=
    ⟨(List.append_nil text).symm, rfl⟩
  exact (Reader.entry_iff hlen).mpr ⟨text, hall, h⟩

/-- and what is read from all of a text is spelled by it. -/
theorem SpellsEntry.of_run {e : Entry} {l : Input}
    (h : Reader.entry (text.length + 1) n ⟨o, text⟩ = .ok e l) (hl : l.rest = []) :
    SpellsEntry n o text e := by
  have hlen : (⟨o, text⟩ : Input).rest.length < text.length + 1 := Nat.lt_succ_self _
  obtain ⟨part, ht, hspells⟩ := (Reader.entry_iff hlen).mp h
  have hsplit : text = part := by simpa [hl] using ht.rest
  rwa [← hsplit] at hspells

/-- An entry is spelled where it is read, and it is read elsewhere as here. -/
theorem SpellsEntry.shift {e : Entry} (k : Nat) (h : SpellsEntry n o text e) :
    SpellsEntry n (o + k) text (e.shift k) := by
  have hcarries : Reader.Carries (text.length + 1) k (Entry.shift k)
      (Reader.entry (text.length + 1) n) (Reader.entry (text.length + 1) n) ⟨o, text⟩ :=
    .entry (Nat.lt_succ_self _)
  exact .of_run (hcarries.whole (Nat.lt_succ_self _) h.run rfl) rfl

theorem gapItems_shift : (gapItems o gap).map (Item.shift k) = gapItems (o + k) gap := by
  by_cases hgap : gap = []
  · rw [gapItems, gapItems, if_pos hgap, if_pos hgap, List.map_nil]
  · rw [gapItems, gapItems, if_neg hgap, if_neg hgap]
    simp only [List.map_cons, List.map_nil, Item.shift, Gap.shift, gapAt, extent, Span.shift,
      Nat.add_right_comm]

/-- By induction on the body: blanks and entries are further on. -/
theorem SpellsBody.shift (k : Nat) (h : SpellsBody n o text body) :
    SpellsBody n (o + k) text (body.map (Item.shift k)) := by
  induction h with
  | done hb =>
    rw [gapItems_shift]
    exact .done hb
  | entry hb he _ htext ih =>
    rw [List.map_append, List.map_cons, gapItems_shift]
    rw [Nat.add_right_comm] at ih
    exact .entry hb (by rw [Nat.add_right_comm]; exact he.shift k) ih htext

/-- By induction on the first body. Where it ends with a gap, the gap goes on into the second one. -/
theorem SpellsBody.append (h : SpellsBody n o text body)
    (h' : SpellsBody n (o + byteLength text) rest items) :
    SpellsBody n o (text ++ rest) (joinBodies body items) := by
  induction h with
  | @done o gap hb =>
    have hblanks : ∀ {gap' : List Char}, Blanks gap' → Blanks (gap ++ gap') := by
      intro gap' hb' c hc
      rcases List.mem_append.mp hc with hc | hc
      · exact hb c hc
      · exact hb' c hc
    cases h' with
    | done hb' =>
      have hjoin : joinBodies (gapItems o gap) (gapItems (o + byteLength gap) rest ++ []) =
          gapItems o (gap ++ rest) ++ [] := joinBodies_gapItems rest (by simp)
      rw [List.append_nil, List.append_nil] at hjoin
      rw [hjoin]
      exact .done (hblanks hb')
    | @entry _ gap' _ _ _ _ _ hb' he hrest htext =>
      rw [joinBodies_gapItems gap' (by simp), htext, List.append_assoc gap', ← List.append_assoc]
      refine .entry (hblanks hb') ?_ ?_ (List.append_assoc ..).symm
      · simpa [Nat.add_assoc] using he
      · simpa [Nat.add_assoc] using hrest
  | entry hb he _ htext ih =>
    rw [joinBodies_gapItems_entry, htext, List.append_assoc]
    refine .entry hb he (ih ?_) rfl
    rw [htext] at h'
    simpa [Nat.add_assoc] using h'

end Bodies

/-! ### Errors behind entries -/

namespace Reader

variable {n : Nesting} {b rounds : Nat} {gap : List Char} {i m l : Input} {e : Fault}
  {read read' : Array Item}

/-- A round reads the blanks that come next and goes on behind them. -/
theorem itemRound_of_skips (h : i.Skips gap m) : itemRound b n read i =
    (if m.rest.head?.isNone then pure (.done (pushGap read (gapAt i.offset gap)).toList)
      else entry b n >>= fun e =>
        pure (.again ((pushGap read (gapAt i.offset gap)).push (.entry e)))) m := by
  have hgap : Reader.gap i = .ok (gapAt i.offset gap) m := gap_eq_ok.mpr ⟨gap, h, rfl⟩
  have hbind : ∀ u : Gap → Reader (Round (Array Item) (List Item)),
      (Reader.gap >>= u) i = u (gapAt i.offset gap) m := by
    intro u
    show EStateM.bind Reader.gap u i = _
    rw [EStateM.bind, hgap]
  rw [itemRound, hbind, peek?_bind]
  rfl

/-- By induction on the rounds: blanks before a body, and the items read before it, make no difference
to a fault in it. -/
theorem items_error_of_blanks (ht : i.Takes gap m) (hb : Blanks gap) (hm : m.rest.length < b + 1)
    (hr : m.rest.length < rounds)
    (h : repeatUpTo rounds read (itemRound (b + 1) n) m = .error e l) :
    repeatUpTo rounds read' (itemRound (b + 1) n) i = .error e l := by
  induction rounds generalizing i m gap read read' with
  | zero => exact absurd hr (Nat.not_lt_zero _)
  | succ rounds ih =>
    obtain ⟨gap', k, hk⟩ := exists_skips m
    have hik : i.Skips (gap ++ gap') k := by
      refine ⟨ht.trans hk.takes, fun c hc => ?_, hk.stop⟩
      rcases List.mem_append.mp hc with hc | hc
      · exact hb c hc
      · exact hk.blank c hc
    rw [repeatUpTo] at h ⊢
    rcases bind_eq_error.mp h with h | ⟨r, k', hround, h⟩
    · refine bind_eq_error.mpr (.inl ?_)
      rw [itemRound_of_skips hk] at h
      rw [itemRound_of_skips hik]
      split at h
      · exact absurd h (by simp [pure, EStateM.pure])
      · rename_i hnone
        rw [if_neg hnone]
        rcases bind_eq_error.mp h with h | ⟨_, _, _, h⟩
        · exact bind_eq_error.mpr (.inl h)
        · exact absurd h (by simp [pure, EStateM.pure])
    · cases r with
      | done items => exact absurd h (by simp [pure, EStateM.pure])
      | again read =>
        have hlt := shortens_itemRound _ _ _ _ hm hround
        rw [itemRound_of_skips hk] at hround
        split at hround
        · exact absurd (pure_eq_ok.mp hround).1 (by simp)
        · rename_i hnone
          obtain ⟨entry, k'', hentry, hround⟩ := bind_eq_ok.mp hround
          obtain ⟨_, rfl⟩ := pure_eq_ok.mp hround
          have hround' : itemRound (b + 1) n read' i = .ok (.again
              ((pushGap read' (gapAt i.offset (gap ++ gap'))).push (.entry entry))) k'' := by
            rw [itemRound_of_skips hik, if_neg hnone]
            exact bind_eq_ok.mpr ⟨entry, k'', hentry, rfl⟩
          exact bind_eq_error.mpr (.inr ⟨_, k'', hround',
            ih (.refl k'') (by simp [Blanks]) (by omega) (by omega) h⟩)

/-- By induction on the body before: its entries are read again, and its last gap goes on into what
follows. -/
theorem items_error_of_body {o : Nat} {text : List Char} {body : List Item}
    (hbody : SpellsBody n o text body) (ho : i.offset = o) (ht : i.Takes text m)
    (hi : i.rest.length < b + 1) (hr : i.rest.length < rounds)
    (h : ∀ rounds, m.rest.length < rounds →
      ∃ l, repeatUpTo rounds #[] (itemRound (b + 1) n) m = .error e l) :
    ∃ l, repeatUpTo rounds read (itemRound (b + 1) n) i = .error e l := by
  induction hbody generalizing i read rounds with
  | done hb =>
    have hlen := ht.length
    obtain ⟨l, hl⟩ := h rounds (by omega)
    exact ⟨l, items_error_of_blanks ht hb (by omega) (by omega) hl⟩
  | @entry o gap text' rest text e' items hb he _ htext ih =>
    cases rounds with
    | zero => exact absurd hr (Nat.not_lt_zero _)
    | succ rounds =>
      rw [htext] at ht
      obtain ⟨k, hk, hrest⟩ := Input.takes_append.mp ht
      obtain ⟨cs, hcs⟩ := entry_front he
      have hlen := hk.length
      rw [hcs, List.length_append, List.length_cons] at hlen
      have hround : itemRound (b + 1) n read i = _ := (itemRound_iff hi).mpr
        (.inr ⟨gap, text', e', hk, hb, by rw [ho]; exact he, rfl⟩)
      have hlater : ∀ read, ∃ l, repeatUpTo rounds read (itemRound (b + 1) n) k = .error e l :=
        fun read => ih (by rw [hk.offset, ho]) hrest (by omega) (by omega)
      obtain ⟨l, hl⟩ := hlater _
      exact ⟨l, bind_eq_error.mpr (.inr ⟨_, k, hround, hl⟩)⟩

end Reader

namespace Resource

variable {limit : Option Nat} {s₁ s₂ : String}

/-- The error of the second source is that of both, further on. -/
theorem ofChars_append_error {s₁ s₂ : List Char} {r₁ : Resource} {e : Fault}
    (h₁ : ofChars limit s₁ = .ok r₁) (h₂ : ofChars limit s₂ = .error e) :
    ofChars limit (s₁ ++ s₂) = .error (e.shift (byteLength s₁)) := by
  obtain ⟨hbody, _⟩ := ofChars_eq_ok_iff.mp h₁
  obtain ⟨m, hitems⟩ := ofChars_eq_error_iff.mp h₂
  have hlen : (s₁ ++ s₂).length = s₁.length + s₂.length := List.length_append
  -- the second source alone, at its place in the two sources
  have hthere : ∀ rounds, s₂.length < rounds → ∃ l, Reader.repeatUpTo rounds #[]
      (Reader.itemRound ((s₁ ++ s₂).length + 1) (.outermost limit)) ⟨0 + byteLength s₁, s₂⟩ =
        .error (e.shift (byteLength s₁)) l := by
    intro rounds hr
    have hcarries : Reader.Carries (s₂.length + 1) (byteLength s₁)
        (List.map (Item.shift (byteLength s₁)))
        (Reader.items (s₂.length + 1) (.outermost limit))
        (Reader.repeatUpTo rounds #[]
          (Reader.itemRound ((s₁ ++ s₂).length + 1) (.outermost limit))) (.ofText s₂) :=
      .itemRounds (Nat.lt_succ_self _) hr (by omega)
    obtain ⟨text, rest, harises, hsame, -⟩ := hcarries.error hitems
    have hsplit : s₂ = text ++ rest := harises.split
    obtain ⟨l, hl, -⟩ := hsame rest rfl (by rw [← hsplit]; exact Nat.lt_succ_self _)
    rw [← hsplit] at hl
    exact ⟨l, hl⟩
  have htakes : (Input.ofText (s₁ ++ s₂)).Takes s₁ ⟨0 + byteLength s₁, s₂⟩ := ⟨rfl, rfl⟩
  exact ofChars_eq_error_iff.mpr (Reader.items_error_of_body hbody rfl htakes
    (Nat.lt_succ_self _) (Nat.lt_succ_self _) hthere)

theorem exists_of_isOk {s : String} (h : (read limit s).isOk = true) : ∃ r, read limit s = .ok r := by
  cases hr : read limit s with
  | ok r => exact ⟨r, rfl⟩
  | error error =>
    rw [hr] at h
    cases h

/-- Reading is compositional: behind a source that is read, another source has the resource or the
error that it has alone, moved by the length of the first source. -/
theorem read_append {r₁ : Resource} (h : read limit s₁ = .ok r₁) :
    (∀ r₂, read limit s₂ = .ok r₂ →
      read limit (s₁ ++ s₂) = .ok (r₁.append (r₂.shift (byteLength s₁.toList)))) ∧
    (∀ error, read limit s₂ = .error error →
      read limit (s₁ ++ s₂) = .error (error.shift (byteLength s₁.toList) (s₁ ++ s₂))) := by
  rw [read_eq_ok_iff_ofChars] at h
  constructor
  · intro r₂ h₂
    rw [read_eq_ok_iff_ofChars, ofChars_eq_ok_iff] at h₂
    obtain ⟨hbody₁, hspan₁⟩ := ofChars_eq_ok_iff.mp h
    obtain ⟨hbody₂, hspan₂⟩ := h₂
    rw [read_eq_ok_iff_ofChars, ofChars_eq_ok_iff, String.toList_append]
    refine ⟨hbody₁.append (hbody₂.shift _), ?_⟩
    simp only [append, shift, hspan₁, hspan₂, extent, Span.cover, Span.shift, byteLength_append,
      Nat.zero_add, Nat.add_comm]
  · intro error h₂
    obtain ⟨e, he, rfl⟩ := read_eq_error_iff.mp h₂
    rw [read_eq_error_iff, String.toList_append]
    exact ⟨_, ofChars_append_error h he, e.toError_shift _ s₂ _⟩

/-- Two blanks meet as one gap, and the end of the second source is missed behind the first. -/
theorem read_append_blanks : ∃ r₁ r₂, read none "<a 'b'> " = .ok r₁ ∧ read none " <c 'd'>" = .ok r₂ ∧
    read none ("<a 'b'> " ++ " <c 'd'>") = .ok (r₁.append (r₂.shift 8)) ∧
    read none ("<a 'b'> " ++ " <c") =
      .error ⟨.endOfInput, ⟨11, 11⟩, ⟨1, 12⟩, "unexpected end of input", none⟩ := by
  obtain ⟨r₁, h₁⟩ : ∃ r, read none "<a 'b'> " = .ok r := exists_of_isOk (by decide +kernel)
  obtain ⟨r₂, h₂⟩ : ∃ r, read none " <c 'd'>" = .ok r := exists_of_isOk (by decide +kernel)
  refine ⟨r₁, r₂, h₁, h₂, ?_, ?_⟩
  · exact (read_append h₁).1 r₂ h₂
  · exact (read_append h₁).2 ⟨.endOfInput, ⟨3, 3⟩, ⟨1, 4⟩, "unexpected end of input", none⟩
      (read_eq_error_iff_error?.mpr (by decide +kernel))

end Resource

end LocaleText
