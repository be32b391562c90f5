import LocaleText.Proofs.Concatenation
import LocaleText.Proofs.Reading.Fault
import LocaleText.Proofs.Members.Text

/-!
# Objects read member by member

A run of the readers of an object is followed round by round, also where it ends with a fault. What
has been read by then are the members in front, and the place of the mark among them.

* `Reader.memberRound_eq_again` is a round that reads a member
* `Reader.passes_of_unmarked` and `Reader.passes_of_marked` are many of them, without a mark and
  with one
* `Reader.memberRound_eq_duplicateDefault` is a round that finds a second mark
* `Reader.value_eq_error_of_passes` is a fault behind some members
* `Reader.value_eq_error_of_secondMark` is the one of an object with two marks
-/

namespace LocaleText

namespace Reader

variable {bound : Nat} {i m l : Input} {e : Fault}

/-! ### Rounds of an object -/

section Rounds

variable {inner : Nesting → Reader Expr} (depth : Nat) (opener : Span) (read : Members)
  {text gap separator : List Char} {member : Member} {ms : List Member}

/-- A round reads a member that is told apart from what follows, unless it is the second one with a
mark. -/
theorem memberRound_eq_again (h : Exact bound inner) (hi : i.rest.length < bound)
    (hm : MemberText text member) (ht : i.Takes (text ++ gap ++ separator) l) (hg : Blanks gap)
    (hfresh : NextNot isBlank l.rest) (hs : ∀ ending, Parted ending gap l.rest separator)
    (hd : member.marked = true → read.2 = none) :
    ∃ entries, memberRound inner ⟨none, depth⟩ opener read i =
      .ok (.again (entries, nextDefault member.marked member.key i.here read.2)) l := by
  obtain @⟨member, key, item, ending, hkey, hitem⟩ := hm
  obtain ⟨e', _, hspells⟩ := hitem depth (i.offset + byteLength (member.mark ++ key))
  exact ⟨_, (memberRound_iff h hi).mpr (.inr ⟨⟨member.marked, member.key, e'⟩, key, item, gap, ending,
    separator, hkey, hspells, ht, hg, hfresh, hs ending, hd, rfl⟩)⟩

/-- A mark is the next character. -/
theorem here_of_marked {rest : List Char} (hm : MemberText text member) (hmark : member.marked = true)
    (hi : i.rest = text ++ rest) : i.here = extent i.offset ['*'] := by
  obtain ⟨c, cs, rfl, ⟨_, rfl⟩ | ⟨hnone, _⟩⟩ := hm.exists_cons
  · rw [Input.here, hi]
    rfl
  · rw [hmark] at hnone
    cases hnone

/-- Members without a mark leave the default as it is. -/
theorem passes_of_unmarked (h : Exact bound inner)
    (hms : CommaEnded MemberText text ms) (hnone : ∀ m ∈ ms, m.marked = false)
    (hi : i.rest.length < bound) (ht : i.Takes text l) (hfresh : NextNot isBlank l.rest) :
    ∃ entries, Passes (memberRound inner ⟨none, depth⟩ opener) read i (entries, read.2) l := by
  induction hms generalizing i read with
  | nil =>
    rw [Input.takes_nil.mp ht]
    exact ⟨read.1, .refl⟩
  | @cons text gap gap' rest m ms hm hg hg' hms ih =>
    have hmark := hnone m (List.mem_cons_self ..)
    obtain ⟨k, hk, hl⟩ := Input.takes_append.mp ht
    rw [List.append_assoc] at hk
    have hnext : NextNot isBlank k.rest := by
      rw [hl.rest]
      exact hms.fresh hfresh
    obtain ⟨entries, hround⟩ := memberRound_eq_again depth opener read h hi hm hk hg hnext
      (fun _ => .comma hg') (by simp [hmark])
    have hlen := hk.length
    obtain ⟨entries', hpasses⟩ := ih (entries, read.2)
      (fun m hm => hnone m (List.mem_cons_of_mem _ hm)) (by omega) hl
    rw [hmark] at hround
    exact ⟨entries', .again hround hpasses⟩

/-- Behind a mark its key is the default. -/
theorem passes_of_marked (entries : Keyed Expr) (h : Exact bound inner)
    (hms : CommaEnded MemberText text (member :: ms)) (hmark : member.marked = true)
    (hnone : ∀ m ∈ ms, m.marked = false) (hi : i.rest.length < bound) (ht : i.Takes text l)
    (hfresh : NextNot isBlank l.rest) :
    ∃ entries', Passes (memberRound inner ⟨none, depth⟩ opener) (entries, none) i
      (entries', some (member.key, extent i.offset ['*'])) l := by
  obtain _ | @⟨text, gap, gap', rest, _, _, hm, hg, hg', hrest⟩ := hms
  obtain ⟨k, hk, hl⟩ := Input.takes_append.mp ht
  rw [List.append_assoc] at hk
  have hnext : NextNot isBlank k.rest := by
    rw [hl.rest]
    exact hrest.fresh hfresh
  obtain ⟨entries₁, hround⟩ := memberRound_eq_again depth opener (entries, none) h hi hm hk hg hnext
    (fun _ => .comma hg') (fun _ => rfl)
  rw [hmark, here_of_marked hm hmark (by rw [hk.rest, List.append_assoc, List.append_assoc])] at hround
  have hlen := hk.length
  obtain ⟨entries₂, hpasses⟩ := passes_of_unmarked depth opener
    (entries₁, some (member.key, extent i.offset ['*'])) h hrest hnone (by omega) hl hfresh
  exact ⟨entries₂, .again hround hpasses⟩

/-- A second mark is found once its member has been read. -/
theorem memberRound_eq_duplicateDefault (entries : Keyed Expr) (key : String) (first : Span) {c : Char}
    (h : Exact bound inner) (hi : i.rest.length < bound) (hm : MemberText text member)
    (hmark : member.marked = true) (ht : i.Takes (text ++ gap ++ [c]) l) (hg : Blanks gap)
    (hc : c = ',' ∨ c = '\x7d') :
    ∃ k, memberRound inner ⟨none, depth⟩ opener (entries, some (key, first)) i =
      .error ⟨.duplicateDefault, extent i.offset ['*'], none, some (.firstDefault, first)⟩ k := by
  rw [← here_of_marked hm hmark (by rw [ht.rest, List.append_assoc, List.append_assoc])]
  obtain @⟨member, keyText, item, ending, hkey, hitem⟩ := hm
  have hd : c ∈ delimiters ∧ c ≠ '?' := by
    rcases hc with rfl | rfl <;> decide
  rw [Member.mark, if_pos hmark] at ht
  obtain ⟨k, hk, hdelimiter⟩ := Input.takes_append.mp ht
  rw [List.append_assoc, List.append_assoc ['*']] at hk
  obtain ⟨m₁, hm₁, hk⟩ := Input.takes_append.mp hk
  obtain ⟨m₂, hm₂, hk⟩ := Input.takes_append.mp hk
  have hlen := (hm₁.trans hm₂).length
  obtain ⟨e', _, hspells⟩ := hitem depth m₂.offset
  have hleaves : m₂.Leaves item gap ending 0 k :=
    .of_delimiter hk hg hdelimiter.head hd.1 (absurd · hd.2)
  have hfresh : NextNot isBlank m₂.rest := by
    rw [hk.rest, List.append_assoc]
    exact (hspells.starts.append _).nextNot_isBlank
  obtain ⟨span, hkeyed⟩ := keyed_iff.mpr ⟨keyText, m₂, hkey, hm₂, hfresh,
    (h ⟨none, depth⟩ m₂ e' k (by omega)).mpr ⟨item, gap, ending, hspells, hleaves⟩⟩
  have heat : eat '*' i = .ok true m₁ := eat_eq_ok.mpr (.inl ⟨hm₁, rfl⟩)
  refine ⟨k, ?_⟩
  rw [memberRound, peek?_bind, hm₁.head]
  show (here >>= _) i = _
  rw [here_bind]
  refine bind_eq_error.mpr (.inr ⟨true, m₁, heat, ?_⟩)
  exact bind_eq_error.mpr (.inr ⟨(⟨member.key, span⟩, e'), k, within_eq_ok.mpr hkeyed, rfl⟩)

/-- A fault behind some rounds of an object is a fault of the value. -/
theorem value_eq_error_of_passes {bound' : Nat} {read : Members} {k : Input}
    (hi : i.rest.length ≤ bound) (hle : bound ≤ bound') (ht : i.Takes (['\x7b'] ++ gap) m)
    (hg : Blanks gap) (hfresh : NextNot isBlank m.rest)
    (hp : Passes (memberRound (expression bound') ⟨none, depth + 1⟩ i.here) ([], none) m read k)
    (hr : memberRound (expression bound') ⟨none, depth + 1⟩ i.here read k = .error e l) :
    value (expression bound') (bound + 1) ⟨none, depth⟩ i = .error e l := by
  have hexact : Exact bound (expression bound') := (exact_expression bound').mono hle
  have hbrace : i.rest.head? = some '\x7b' := by
    rw [ht.rest]
    rfl
  have hmembers : members (expression bound') (bound + 1) ⟨none, depth + 1⟩ i = .error e l :=
    members_eq_error hexact (by omega) ht hg hfresh ⟨read, k, hp, hr⟩
  have hroom : Nesting.HasRoom ⟨none, depth⟩ := rfl
  rw [value_of_brace hroom hbrace]
  exact bind_eq_error.mpr (.inl hmembers)

/-- By the rounds before each mark: an object with two marks is refused at the second one, with a note
at the first one. -/
theorem value_eq_error_of_secondMark {bound' first second : Nat} {rest : List Char}
    (h : SecondMark text ms first second) (hi : i.rest = text ++ rest) (hlen : i.rest.length ≤ bound)
    (hle : bound ≤ bound') : ∃ l, value (expression bound') (bound + 1) ⟨none, depth⟩ i =
      .error ⟨.duplicateDefault, extent (i.offset + second) ['*'], none,
        some (.firstDefault, extent (i.offset + first) ['*'])⟩ l := by
  have hexact : Exact bound (expression bound') := (exact_expression bound').mono hle
  obtain @⟨gap, before, marked, last, gap', c, ms, ms', m, m', hg, hbefore, hnone, hmarked, hm, hnone',
    hlast, hm', hg', hc⟩ := h
  -- `k₁` is behind the opener, `k₂` and `k₃` are in front of the marks
  have ht : i.Takes (['\x7b'] ++ gap ++ before ++ marked ++ last ++ gap' ++ [c])
      (i.after _ rest) := Input.takes_after hi
  rw [List.append_assoc _ gap', List.append_assoc _ last] at ht
  obtain ⟨k₃, hk₃, hl⟩ := Input.takes_append.mp ht
  rw [← List.append_assoc] at hl
  obtain ⟨k₂, hk₂, hmarks⟩ := Input.takes_append.mp hk₃
  obtain ⟨k₁, hk₁, hbefores⟩ := Input.takes_append.mp hk₂
  have hlen₁ := hk₁.length_lt (by simp)
  have hlen₂ := hbefores.length
  have hlen₃ := hmarks.length
  have hfresh₃ : NextNot isBlank k₃.rest := by
    rw [hl.rest, List.append_assoc, List.append_assoc]
    exact hlast.fresh _
  have hfresh₂ : NextNot isBlank k₂.rest := by
    rw [hmarks.rest]
    exact hmarked.fresh hfresh₃
  have hfresh₁ : NextNot isBlank k₁.rest := by
    rw [hbefores.rest]
    exact hbefore.fresh hfresh₂
  obtain ⟨entries₁, hpasses₁⟩ := passes_of_unmarked (depth + 1) i.here ([], none) hexact hbefore hnone
    (by omega) hbefores hfresh₂
  obtain ⟨entries₂, hpasses₂⟩ := passes_of_marked (depth + 1) i.here entries₁ hexact hmarked hm hnone'
    (by omega) hmarks hfresh₃
  obtain ⟨l, hfault⟩ := memberRound_eq_duplicateDefault (depth + 1) i.here entries₂ m.key
    (extent k₂.offset ['*']) hexact (by omega) hlast hm' hl hg' hc
  rw [hk₂.offset, hk₃.offset] at hfault
  rw [hk₂.offset] at hpasses₂
  exact ⟨l, value_eq_error_of_passes depth hlen hle hk₁ hg hfresh₁ (hpasses₁.trans hpasses₂) hfault⟩

end Rounds

end Reader

end LocaleText
