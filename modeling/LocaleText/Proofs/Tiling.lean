import LocaleText.Proofs.Reading.Entry

/-!
# Tilings of sources

Every byte of a source that is read belongs to one item of the resource, and in an entity to one of
the pieces that the entity records. A source can be put together again from the spans of its items.

* `Tiles` are spans that follow one another without gaps or overlaps, none of them empty
* `slice_extent` cuts a piece out of a text that it is known to be in
* `Entity.Pieces` says how the pieces of an entity meet
* `SpellsBody.tiles`, `SpellsBody.fragments` and `SpellsBody.recorded` are the parts of the property
* `Resource.Lossless` is the whole property, `Resource.lossless_of_read` holds it of what is read
-/

namespace LocaleText

/-! ### Slices -/

theorem dropBytes_append (s t : List Char) : dropBytes (byteLength s) (s ++ t) = t := by
  induction s with
  | nil =>
    cases t with
    | nil => rfl
    | cons c cs =>
      have hpos := c.utf8Size_pos
      rw [byteLength_nil, List.nil_append, dropBytes, if_neg (by omega)]
  | cons c cs ih =>
    rw [byteLength_cons, List.cons_append, dropBytes, if_pos (Nat.le_add_right ..),
      Nat.add_sub_cancel_left, ih]

theorem takeBytes_append (s t : List Char) : takeBytes (byteLength s) (s ++ t) = s := by
  induction s with
  | nil =>
    cases t with
    | nil => rfl
    | cons c cs =>
      have hpos := c.utf8Size_pos
      rw [byteLength_nil, List.nil_append, takeBytes, if_neg (by omega)]
  | cons c cs ih =>
    rw [byteLength_cons, List.cons_append, takeBytes, if_pos (Nat.le_add_right ..),
      Nat.add_sub_cancel_left, ih]

/-- The extent of a text cuts the text out of its source. -/
theorem slice_extent {source text : List Char} {o : Nat} (before behind : List Char)
    (hs : source = before ++ text ++ behind) (ho : o = byteLength before) :
    (extent o text).slice source = text := by
  rw [Span.slice, Span.size, extent, Nat.add_sub_cancel_left, hs, ho, List.append_assoc,
    dropBytes_append, takeBytes_append]

theorem byteLength_pos {text : List Char} (h : text ≠ []) : 0 < byteLength text := by
  cases text with
  | nil => exact absurd rfl h
  | cons c cs =>
    have hpos := c.utf8Size_pos
    rw [byteLength_cons]
    omega

theorem length_le_byteLength (text : List Char) : text.length ≤ byteLength text := by
  induction text with
  | nil => exact Nat.le_refl 0
  | cons c cs ih =>
    have hpos := c.utf8Size_pos
    rw [List.length_cons, byteLength_cons]
    omega

/-! ### Tilings -/

/-- Spans that follow one another from one offset to another, none of them empty. -/
def Tiles : Nat → List Span → Nat → Prop
  | start, [], stop => start = stop
  | start, s :: spans, stop => s.start = start ∧ start < s.stop ∧ Tiles s.stop spans stop

/-- Two rows of spans, the second from where the first ends. -/
theorem tiles_append {start mid stop : Nat} {spans spans' : List Span} (h : Tiles start spans mid)
    (h' : Tiles mid spans' stop) : Tiles start (spans ++ spans') stop := by
  induction spans generalizing start with
  | nil =>
    rw [Tiles] at h
    rw [h]
    exact h'
  | cons s spans ih =>
    obtain ⟨hs, hlt, h⟩ := h
    exact ⟨hs, hlt, ih h⟩

/-- A gap records the text that its span cuts out, and the text is blank. -/
structure Gap.Recorded (source : List Char) (g : Gap) : Prop where
  text : g.text.toList = g.span.slice source
  blank : Blanks g.text.toList

/-- How the pieces of an entity meet: the name behind `<`, the gap before the value up to the value,
and the gap behind the value from there on. An index stands between the name and the first gap, and
without attributes the entity ends behind the second one. -/
structure Entity.Pieces (source : List Char) (e : Entity) : Prop where
  id : e.id.span.start = e.span.start + 1
  before : e.before.span.stop = e.value.span.start
  behind : e.behind.span.start = e.value.span.stop
  before_recorded : e.before.Recorded source
  behind_recorded : e.behind.Recorded source
  unindexed : e.index = none → e.before.span.start = e.id.span.stop
  index : e.index ≠ none → ∃ items,
    (⟨e.id.span.stop, e.before.span.start⟩ : Span).slice source = '[' :: (items ++ [']'])
  unattributed : e.attributes = none → e.span.stop = e.behind.span.stop + 1

/-- A resource accounts for every byte of a source. -/
structure Resource.Lossless (source : String) (r : Resource) : Prop where
  tiles : Tiles 0 (r.body.map Item.span) (byteLength source.toList)
  fragments : String.join (r.fragments source) = source
  apart : ∀ g g', ¬ [Item.gap g, Item.gap g'] <:+: r.body
  gap : ∀ g, .gap g ∈ r.body → g.Recorded source.toList
  entry : ∀ e, .entry e ∈ r.body → ∃ inner,
    e.span.slice source.toList = '<' :: (inner ++ ['>'])
  entity : ∀ e, .entry (.entity e) ∈ r.body → e.Pieces source.toList

/-! ### Entries -/

section Entries

variable {n : Nesting} {o : Nat} {text : List Char} {e : Entry}

theorem SpellsEntry.span (h : SpellsEntry n o text e) : e.span = extent o text := by
  cases h with
  | entity => rfl
  | macroDef => rfl

theorem SpellsTail.ends {attrs : Option Attributes} (h : SpellsTail n o text attrs) :
    ∃ inner, text = inner ++ ['>'] := by
  cases h with
  | bare => exact ⟨[], rfl⟩
  | attributes _ => exact ⟨_, rfl⟩

/-- An entry stands between `<` and `>`. -/
theorem SpellsEntry.ends (h : SpellsEntry n o text e) :
    ∃ inner, text = '<' :: (inner ++ ['>']) := by
  cases h with
  | entity _ _ _ _ _ _ htail ht =>
    obtain ⟨inner, rfl⟩ := htail.ends
    exact ⟨_, by rw [ht, ← List.append_assoc]; rfl⟩
  | macroDef _ _ _ _ _ _ _ _ htail ht =>
    obtain ⟨inner, rfl⟩ := htail.ends
    exact ⟨_, by rw [ht, ← List.append_assoc]; rfl⟩

/-- A run of blanks is recorded as it stands. -/
theorem gapAt_recorded {source before blanks : List Char} (behind : List Char) (hb : Blanks blanks)
    (hs : source = before ++ blanks ++ behind) (ho : o = byteLength before) :
    (gapAt o blanks).Recorded source := by
  constructor
  · rw [gapAt, slice_extent before behind hs ho, String.toList_ofList]
  · rw [gapAt, String.toList_ofList]
    exact hb

theorem SpellsIndex.of_none (h : SpellsIndex n o text .none) : text = [] := by
  cases h
  rfl

theorem SpellsIndex.of_some {es : List Expr} (h : SpellsIndex n o text (.some es)) :
    ∃ items, text = '[' :: (items ++ [']']) := by
  cases h with
  | some _ _ ht => exact ⟨_, ht⟩

theorem SpellsTail.of_none (h : SpellsTail n o text none) : text = ['>'] := by
  cases h
  rfl

/-- The pieces of an entity meet in its text, wherever the text stands in a source. -/
theorem SpellsEntry.pieces {d : Entity} {source before behind : List Char}
    (h : SpellsEntry n o text (.entity d)) (hs : source = before ++ text ++ behind)
    (ho : o = byteLength before) : d.Pieces source := by
  cases h with
  | @entity id index blanks value blanks' tail _ name ending es v attrs _ hindex hb _ hv hb' htail ht =>
    rw [ht] at hs
    have hoffset : ∀ front, o + byteLength front = byteLength (before ++ front) := by
      intro front
      rw [byteLength_append, ho]
    refine ⟨rfl, ?_, ?_, gapAt_recorded (value ++ blanks' ++ tail ++ behind) hb ?_ (hoffset _),
      gapAt_recorded (tail ++ behind) hb' ?_ (hoffset _), ?_, ?_, ?_⟩
    · simp [gapAt, hv.span, extent, Nat.add_assoc]
    · simp [gapAt, hv.span, extent, Nat.add_assoc]
    · simp [hs]
    · simp [hs]
    · intro hes
      obtain rfl : es = none := hes
      rw [hindex.of_none]
      simp [gapAt, extent, Nat.add_assoc]
    · intro hes
      obtain ⟨es, rfl⟩ := Option.ne_none_iff_exists'.mp hes
      obtain ⟨items, hitems⟩ := hindex.of_some
      have hslice : (extent (o + byteLength (['<'] ++ id)) index).slice source = index :=
        slice_extent _ (blanks ++ value ++ blanks' ++ tail ++ behind) (by simp [hs]) (hoffset _)
      refine ⟨items, Eq.trans ?_ (hslice.trans hitems)⟩
      simp [gapAt, extent, Nat.add_assoc]
    · intro hattrs
      obtain rfl : attrs = none := hattrs
      rw [ht, htail.of_none]
      simp [gapAt, extent, Nat.add_assoc]
      decide

end Entries

/-! ### Bodies -/

section Bodies

variable {n : Nesting} {o : Nat} {text : List Char} {items : List Item}

theorem tiles_gapItems (o : Nat) (blanks : List Char) :
    Tiles o ((gapItems o blanks).map Item.span) (o + byteLength blanks) := by
  by_cases h : blanks = []
  · simp [gapItems, h, Tiles]
  · have hpos := byteLength_pos h
    simp only [gapItems, h, if_false, List.map_cons, List.map_nil, Tiles]
    exact ⟨rfl, by simpa [Item.span, gapAt, extent] using hpos, rfl⟩

/-- The items of a body tile its text. -/
theorem SpellsBody.tiles (h : SpellsBody n o text items) :
    Tiles o (items.map Item.span) (o + byteLength text) := by
  induction h with
  | done _ => exact tiles_gapItems ..
  | @entry o gap entry rest text e items hb hentry _ ht ih =>
    obtain ⟨inner, hinner⟩ := hentry.ends
    have hne : entry ≠ [] := by simp [hinner]
    have hpos := byteLength_pos hne
    have hspan : (Item.entry e).span = extent (o + byteLength gap) entry := hentry.span
    rw [List.map_append, List.map_cons, hspan, ht]
    refine tiles_append (tiles_gapItems o gap) ⟨rfl, ?_, ?_⟩
    · show o + byteLength gap < o + byteLength gap + byteLength entry
      omega
    · simpa [extent, Nat.add_assoc] using ih

/-- The text of a gap is the run of blanks. -/
theorem flatMap_gapItems {source before blanks : List Char} (behind : List Char)
    (hs : source = before ++ blanks ++ behind) (ho : o = byteLength before) :
    (gapItems o blanks).flatMap (fun item => item.span.slice source) = blanks := by
  by_cases h : blanks = []
  · simp [gapItems, h]
  · simpa [gapItems, h, Item.span, gapAt] using slice_extent before behind hs ho

/-- The texts of the items of a body make up its text. -/
theorem SpellsBody.fragments {source : List Char} (h : SpellsBody n o text items) :
    ∀ before behind, source = before ++ text ++ behind → o = byteLength before →
      items.flatMap (fun item => item.span.slice source) = text := by
  induction h with
  | done _ =>
    intro before behind hs ho
    exact flatMap_gapItems behind hs ho
  | @entry o gap entry rest text e items hb hentry _ ht ih =>
    intro before behind hs ho
    rw [ht] at hs ⊢
    have hspan : (Item.entry e).span = extent (o + byteLength gap) entry := hentry.span
    have hslice : (Item.entry e).span.slice source = entry := by
      rw [hspan]
      exact slice_extent (before ++ gap) (rest ++ behind) (by simp [hs])
        (by rw [byteLength_append, ho])
    rw [List.flatMap_append, List.flatMap_cons, hslice,
      flatMap_gapItems (entry ++ rest ++ behind) (by simp [hs]) ho,
      ih (before ++ (gap ++ entry)) behind (by simp [hs])
        (by rw [byteLength_append _ (gap ++ entry), ho]), ← List.append_assoc]

/-- No two gaps stand side by side. -/
theorem SpellsBody.apart (h : SpellsBody n o text items) (g g' : Gap) :
    ¬ [Item.gap g, Item.gap g'] <:+: items := by
  induction h with
  | @done o gap _ =>
    intro hinfix
    have hlen := hinfix.length_le
    by_cases hg : gap = []
    · simp [gapItems, hg] at hlen
    · simp [gapItems, hg] at hlen
  | @entry o gap _ _ _ e items _ _ _ _ ih =>
    have htail : ¬ [Item.gap g, Item.gap g'] <:+: Item.entry e :: items := by
      rw [List.infix_cons_iff, List.cons_prefix_cons]
      intro hinfix
      rcases hinfix with ⟨he, _⟩ | hinfix
      · cases he
      · exact ih hinfix
    by_cases hg : gap = []
    · simpa [gapItems, hg] using htail
    · intro hinfix
      simp only [gapItems, hg, if_false, List.singleton_append] at hinfix
      rw [List.infix_cons_iff, List.cons_prefix_cons, List.cons_prefix_cons] at hinfix
      rcases hinfix with ⟨_, he, _⟩ | hinfix
      · cases he
      · exact htail hinfix

theorem mem_gapItems {item : Item} {blanks : List Char} (h : item ∈ gapItems o blanks) :
    item = .gap (gapAt o blanks) := by
  by_cases hg : blanks = []
  · simp [gapItems, hg] at h
  · simpa [gapItems, hg] using h

/-- The gaps of a body are recorded. -/
theorem SpellsBody.recorded {source : List Char} {g : Gap} (h : SpellsBody n o text items) :
    ∀ before behind, source = before ++ text ++ behind → o = byteLength before →
      .gap g ∈ items → g.Recorded source := by
  induction h with
  | done hb =>
    intro before behind hs ho hg
    cases mem_gapItems hg
    exact gapAt_recorded behind hb hs ho
  | @entry o gap entry rest text e items hb _ _ ht ih =>
    intro before behind hs ho hg
    rw [ht] at hs
    rw [List.mem_append, List.mem_cons] at hg
    rcases hg with hg | hg | hg
    · cases mem_gapItems hg
      exact gapAt_recorded (entry ++ rest ++ behind) hb (by simp [hs]) ho
    · cases hg
    · exact ih (before ++ (gap ++ entry)) behind (by simp [hs])
        (by rw [byteLength_append _ (gap ++ entry), ho]) hg

/-- The entries of a body are spelled within its text. -/
theorem SpellsBody.spells_of_mem {source : List Char} {e : Entry} (h : SpellsBody n o text items) :
    ∀ before behind, source = before ++ text ++ behind → o = byteLength before →
      .entry e ∈ items → ∃ front part back, source = front ++ part ++ back ∧
        SpellsEntry n (byteLength front) part e := by
  induction h with
  | done _ =>
    intro before behind _ _ he
    cases mem_gapItems he
  | @entry o gap entry rest text d items _ hentry _ ht ih =>
    intro before behind hs ho he
    rw [ht] at hs
    rw [List.mem_append, List.mem_cons] at he
    rcases he with he | he | he
    · cases mem_gapItems he
    · cases he
      refine ⟨before ++ gap, entry, rest ++ behind, by simp [hs], ?_⟩
      rw [byteLength_append, ← ho]
      exact hentry
    · exact ih (before ++ (gap ++ entry)) behind (by simp [hs])
        (by rw [byteLength_append _ (gap ++ entry), ho]) he

end Bodies

/-! ### Resources -/

theorem join_ofList {α : Type} (f : α → List Char) (xs : List α) :
    String.join (xs.map fun x => String.ofList (f x)) = String.ofList (xs.flatMap f) := by
  induction xs with
  | nil => simp
  | cons x xs ih => simp [ih, String.ofList_append]

/-- A resource that is read, under any limit, accounts for every byte of its source. -/
theorem Resource.lossless_of_read {limit : Option Nat} {source : String} {r : Resource}
    (h : Resource.read limit source = .ok r) : r.Lossless source := by
  obtain ⟨hbody, _⟩ := ofChars_eq_ok_iff.mp (read_eq_ok_iff_ofChars.mp h)
  have hs : source.toList = [] ++ source.toList ++ [] := by simp
  refine ⟨?_, ?_, hbody.apart, fun g hg => hbody.recorded _ _ hs rfl hg, fun e he => ?_, fun e he => ?_⟩
  · simpa using hbody.tiles
  · rw [fragments, join_ofList, hbody.fragments _ _ hs rfl, String.ofList_toList]
  · obtain ⟨front, part, back, hpart, hspells⟩ := hbody.spells_of_mem _ _ hs rfl he
    obtain ⟨inner, hinner⟩ := hspells.ends
    exact ⟨inner, by rw [hspells.span, slice_extent front back hpart rfl, hinner]⟩
  · obtain ⟨front, part, back, hpart, hspells⟩ := hbody.spells_of_mem _ _ hs rfl he
    exact hspells.pieces hpart rfl

/-- An index, a gap, characters of several bytes, and attributes. -/
theorem Resource.lossless_two_entries : ∃ r,
    Resource.read none "<a['b'] 'é'> \n<f($x) \x7b $x + 1 \x7d k: 'v'>" = .ok r ∧
      r.Lossless "<a['b'] 'é'> \n<f($x) \x7b $x + 1 \x7d k: 'v'>" := by
  have hok : (Resource.read none "<a['b'] 'é'> \n<f($x) \x7b $x + 1 \x7d k: 'v'>").isOk = true := by
    decide +kernel
  cases h : Resource.read none "<a['b'] 'é'> \n<f($x) \x7b $x + 1 \x7d k: 'v'>" with
  | ok r => exact ⟨r, rfl, Resource.lossless_of_read h⟩
  | error e =>
    rw [h] at hok
    cases hok

end LocaleText
