import LocaleText.Proofs.Grammar.Keyed
import LocaleText.Proofs.Layout.Reading
import LocaleText.Proofs.Reading.Limit
import LocaleText.Proofs.Tiling

/-!
# The limit counts levels

A source is read under a limit exactly when its tree needs no more levels than the limit allows. The
need of a tree does not depend on how it is written, so all its layouts are read under the same
limits.

* `SpellsOperation.allows` and its companions: what is spelled is allowed its levels
* `BodyLayout.spells_of_allows` is the converse, for the trees that a layout writes
* `Resource.need_le_of_read` and `Resource.read_of_allows` are the two directions for sources
* `Resource.read_eq_or_exceeds` says that the limit is the only other outcome
* `Resource.read_need` puts them together
-/

namespace LocaleText

/-- Where one more level is allowed, it can be entered. -/
theorem Nesting.HasRoom.allows_zero {n : Nesting} (h : n.HasRoom) : n.deeper.Allows 0 :=
  allows_deeper.mpr (hasRoom_iff.mp h)

/-! ### What is spelled is allowed -/

mutual

theorem SpellsValue.allows : ∀ {n o text v}, SpellsValue n o text v → n.Allows v.need
  | _, _, _, _, .string hroom _ _ _ => Nesting.hasRoom_iff.mp hroom
  | _, _, _, _, .array hroom _ hitems _ =>
    Nesting.allows_deeper.mp (hitems.allows hroom.allows_zero)
  | _, _, _, _, .object hroom _ hmembers _ _ => by
    refine Nesting.allows_deeper.mp (allows_needMembers hroom.allows_zero fun entry hentry => ?_)
    obtain ⟨m, hm, rfl⟩ := Member.mem_entries hentry
    exact hmembers.allows m hm

theorem SpellsOperand.allows : ∀ {n o text e ending}, SpellsOperand n o text e ending →
    n.Allows 0 → n.Allows e.inside
  | _, _, _, _, _, .integer _, hn => hn
  | _, _, _, _, _, .ident _ _, hn => hn
  | _, _, _, _, _, .reference _ _, hn => hn
  | _, _, _, _, _, .this, hn => hn
  | _, _, _, _, _, .value hv, _ => hv.allows
  | _, _, _, _, _, .parenthesis _ he _ _, _ => he.allows
  | _, _, _, _, _, .call _ _ _ hargs _, hn => hargs.allows hn
  | _, _, _, _, _, .select _ _ _ hkey _ _, _ => hkey.allows

/-- Operators do not take levels, and signs take one each. -/
theorem SpellsOperation.allows : ∀ {rank n o text e ending},
    SpellsOperation rank n o text e ending → n.Allows 0 → n.Allows e.inside
  | _, _, _, _, _, _, .operand h, hn => h.allows hn
  | _, _, _, _, _, _, .looser h, hn => h.allows hn
  | _, _, _, _, _, _, .unary hroom _ harg _, _ =>
    Nesting.allows_deeper.mp (harg.allows hroom.allows_zero)
  | _, _, _, _, _, _, .binary _ hleft _ _ hright _, hn =>
    Nesting.allows_max.mpr ⟨hleft.allows hn, hright.allows hn⟩
  | _, _, _, _, _, _, .choice ht _ _ hc _ _ ha _, hn =>
    Nesting.allows_max.mpr ⟨ht.allows hn, Nesting.allows_max.mpr ⟨hc.allows, ha.allows⟩⟩

theorem SpellsExpr.allows : ∀ {n o text e ending}, SpellsExpr n o text e ending → n.Allows e.need
  | _, _, _, _, _, .mk hroom h => Nesting.allows_deeper.mp (h.allows hroom.allows_zero)

theorem SpellsItems.allows : ∀ {n o text es}, SpellsItems n o text es → n.Allows 0 →
    n.Allows (needItems es)
  | _, _, _, _, .nil, hn => hn
  | _, _, _, _, .cons he _ _ hrest _, hn => Nesting.allows_max.mpr ⟨he.allows, hrest.allows hn⟩

theorem SpellsMembers.allows : ∀ {n o text ms}, SpellsMembers n o text ms →
    ∀ m ∈ ms, n.Allows m.value.need
  | _, _, _, _, .nil => by simp
  | _, _, _, _, .cons _ he _ _ hrest _ => List.forall_mem_cons.mpr ⟨he.allows, hrest.allows⟩

theorem SpellsArguments.allows : ∀ {n o text es}, SpellsArguments n o text es → n.Allows 0 →
    n.Allows (needItems es)
  | _, _, _, _, .none, hn => hn
  | _, _, _, _, .some h, hn => h.allows hn

theorem SpellsSequence.allows : ∀ {n o text es}, SpellsSequence n o text es → n.Allows 0 →
    n.Allows (needItems es)
  | _, _, _, _, .last he _ _, hn => Nesting.allows_max.mpr ⟨he.allows, hn⟩
  | _, _, _, _, .cons he _ _ hrest _, hn => Nesting.allows_max.mpr ⟨he.allows, hrest.allows hn⟩

end

section Entries

variable {n : Nesting} {o : Nat} {text : List Char}

theorem SpellsAttributes.allows {attributes : List (String × Value)}
    (h : SpellsAttributes n o text attributes) : ∀ a ∈ attributes, n.Allows a.2.need := by
  induction h with
  | last _ hv _ _ => simpa using hv.allows
  | cons _ hv _ _ _ _ ih => exact List.forall_mem_cons.mpr ⟨hv.allows, ih⟩

theorem SpellsTail.allows {attrs : Option Attributes} (h : SpellsTail n o text attrs)
    (hn : n.Allows 0) : n.Allows (Attributes.need (attrs.getD [])) := by
  cases h with
  | bare => exact hn
  | attributes h => exact allows_needAttributes hn fun a ha => h.allows a (mem_attributesOf ha)

theorem SpellsIndex.allows {es : Option (List Expr)} (h : SpellsIndex n o text es)
    (hn : n.Allows 0) : n.Allows (needItems (es.getD [])) := by
  cases h with
  | none => exact hn
  | some _ hitems _ => exact hitems.allows hn

/-- Each part of an entry is at the outermost level. -/
theorem SpellsEntry.allows {e : Entry} (h : SpellsEntry n o text e) (hn : n.Allows 0) :
    n.Allows e.need := by
  cases h with
  | entity _ hindex _ _ hv _ htail _ =>
    exact Nesting.allows_max.mpr
      ⟨hindex.allows hn, Nesting.allows_max.mpr ⟨hv.allows, htail.allows hn⟩⟩
  | macroDef _ _ _ _ _ hbody _ _ htail _ =>
    exact Nesting.allows_max.mpr ⟨hbody.allows, htail.allows hn⟩

theorem SpellsBody.allows {items : List Item} {s : Span} (h : SpellsBody n o text items)
    (hn : n.Allows 0) : n.Allows (Resource.need ⟨items, s⟩) := by
  rw [Resource.need]
  induction h with
  | done _ =>
    rw [← List.append_nil (gapItems _ _), entries_gapItems_append]
    exact hn
  | entry _ he _ _ ih =>
    rw [entries_gapItems_append]
    exact Nesting.allows_max.mpr ⟨he.allows hn, ih⟩

end Entries

namespace Resource

variable {limit : Option Nat} {source : String} {r r' : Resource} {n : Nat}

/-- A limit under which a source is read allows the levels of its tree. -/
theorem need_le_of_read (h : read (some n) source = .ok r) : r.need ≤ n := by
  obtain ⟨hbody, -⟩ := ofChars_eq_ok_iff.mp (read_eq_ok_iff_ofChars.mp h)
  exact Nesting.allows_outermost.mp (hbody.allows (Nesting.allows_outermost.mpr (Nat.zero_le n)))

/-- A limit that allows the levels of a well-formed resource is none to its layouts. -/
theorem read_of_allows (hw : r.WellFormed) (hl : BodyLayout source.toList r.entries)
    (hn : (Nesting.outermost limit).Allows r.need) :
    ∃ r', read limit source = .ok r' ∧ r'.entries.map Entry.bare = r.entries.map Entry.bare := by
  obtain ⟨items, hbare, hspells⟩ := hl.spells_of_allows (s := extent 0 source.toList) hw hn
  refine ⟨⟨items, extent 0 source.toList⟩, ?_, hbare⟩
  rw [read_eq_ok_iff_ofChars, ofChars_eq_ok_iff]
  exact ⟨hspells, rfl⟩

/-- Under a limit a source is read as without one, or the nesting is too deep. -/
theorem read_eq_or_exceeds (n : Nat) (source : String) : read (some n) source = read none source ∨
    ∃ error, read (some n) source = .error error ∧ error.kind = .recursionLimitExceeded := by
  obtain ⟨D, hsame, hstop⟩ := Reader.hasThreshold_resource (.ofText source.toList)
  by_cases hle : D ≤ n
  · exact .inl (by simp only [read, ofChars, hsame n hle])
  · obtain ⟨fault, left, he, hk⟩ := hstop n (Nat.not_le.mp hle)
    refine .inr ⟨fault.toError source, ?_, hk⟩
    simp only [read, ofChars, he]
    rfl

/-- Without a limit a layout is read as what it writes, and so it is under every limit under which it
is read. -/
theorem need_eq_of_layout (hw : r.WellFormed) (hl : BodyLayout source.toList r.entries)
    (h : read (some n) source = .ok r') : r'.need = r.need := by
  obtain ⟨r₀, hr₀, hbare⟩ := read_of_allows hw hl (Nesting.allows_of_none rfl)
  rcases read_eq_or_exceeds n source with hsame | ⟨error, herror, -⟩
  · rw [hsame, hr₀] at h
    cases h
    exact needEntries_congr hbare
  · rw [h] at herror
    cases herror

/-- The limit counts the levels of nesting: a source that is read needs no more than the limit, and a
layout of a well-formed resource is read exactly under the limits that allow what the resource needs.
Under all others the error is that the nesting is too deep. -/
theorem read_need (n : Nat) :
    (∀ source r, read (some n) source = .ok r → r.need ≤ n) ∧
    (∀ (r : Resource) (source : String), r.WellFormed → BodyLayout source.toList r.entries →
      ((∃ r', read (some n) source = .ok r') ↔ r.need ≤ n) ∧
      (¬ r.need ≤ n → ∃ error, read (some n) source = .error error ∧
        error.kind = .recursionLimitExceeded)) := by
  refine ⟨fun source r => need_le_of_read, fun r source hw hl => ?_⟩
  have hiff : (∃ r', read (some n) source = .ok r') ↔ r.need ≤ n := by
    constructor
    · intro ⟨r', hr'⟩
      rw [← need_eq_of_layout hw hl hr']
      exact need_le_of_read hr'
    · intro hle
      obtain ⟨r', hr', -⟩ := read_of_allows hw hl (Nesting.allows_outermost.mpr hle)
      exact ⟨r', hr'⟩
  refine ⟨hiff, fun hnot => ?_⟩
  rcases read_eq_or_exceeds n source with hsame | herror
  · obtain ⟨r₀, hr₀, -⟩ := read_of_allows hw hl (Nesting.allows_of_none rfl)
    exact absurd (hiff.mp ⟨r₀, hsame.trans hr₀⟩) hnot
  · exact herror

/-- The sample needs three levels, since its macro negates an alternative. -/
theorem read_need_sample :
    (∃ r', read (some 3) "<a'b'> <f($n)\x7b$n==1?~:-2\x7d>" = .ok r' ∧ r'.need ≤ 3) ∧
      ∃ error, read (some 2) "<a'b'> <f($n)\x7b$n==1?~:-2\x7d>" = .error error ∧
        error.kind = .recursionLimitExceeded := by
  have hneed : sample.need = 3 := by decide +kernel
  obtain ⟨hle, hlayout⟩ := read_need 3
  obtain ⟨hread, -⟩ := hlayout sample _ sample_wellFormed sample_layout
  obtain ⟨-, hexceeds⟩ := (read_need 2).2 sample _ sample_wellFormed sample_layout
  obtain ⟨r', hr'⟩ := hread.mpr (Nat.le_of_eq hneed)
  exact ⟨⟨r', hr', hle _ r' hr'⟩, hexceeds (by rw [hneed]; decide)⟩

end Resource

end LocaleText
