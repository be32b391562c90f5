import LocaleText.Proofs.Members.Spaced

/-!
# Members without commas between them

Commas between members can be left out up to a mark behind the first member: without a comma it is
read as a multiplication by what follows. The member with the mark is then lost, as a factor of the
value before it or as a fault.

* `MarkedText` is a member with the mark
* `Reader.value_eq_error_of_last` is a fault behind such a mark; `refusedAs_operand` and
  `refusedAs_large` are the faults behind a key that is an operand and behind one that begins with
  an integer that is too large
* `misread_of_factored` says what becomes of the mark by the key behind it
* `read_without_commas` says when commas can be left out and what happens where they cannot
* `marked_member_needs_comma` is an object of two members that is not read without its comma
-/

namespace LocaleText

/-- A member with the mark. A quote before its key stands also behind it. -/
inductive MarkedText : List Char → Prop
  | mk {key gap gap' item : List Char} {name : String} {e : Expr} {ending ending' : Ending} :
      NameText key name ending → ending = .word ∨ ending = .closed → Blanks gap → Blanks gap' →
      ExprText item e ending' → MarkedText (['*'] ++ key ++ gap ++ [':'] ++ gap' ++ item)

/-! ### Faults behind a mark -/

theorem Input.exists_takes_before {i : Input} {text rest : List Char} {c : Char}
    (h : i.rest = text ++ [c] ++ rest) : ∃ l, i.Takes text l ∧ l.rest = c :: rest :=
  ⟨i.after text (c :: rest), Input.takes_after (by rw [h, List.append_assoc]; rfl), rfl⟩

namespace Reader

variable {inner : Nesting → Reader Expr} {depth : Nat} {opener : Span} {read : Members} {bound : Nat}
  {i k l : Input} {e : Fault} {factor gap text : List Char} {texts : List (List Char)} {m : Member}
  {ms : List Member} {ending : Ending}

/-- A member with a mark behind it and a factor behind the mark, up to the colon. -/
theorem memberRound_of_product (h : Exact bound inner) (hi : i.rest.length < bound)
    (hm : MemberText text m) (hf : FactorText factor ending) (hg : Blanks gap)
    (ht : i.Takes (text ++ [' ', '*'] ++ factor ++ gap) l) (hc : l.rest.head? = some ':')
    (hd : m.marked = true → read.2 = none) :
    ∃ read', memberRound inner ⟨none, depth⟩ opener read i = .ok (.again read') l := by
  obtain @⟨m, key, item, _, hkey, hitem⟩ := hm
  obtain ⟨e, _, hspells⟩ := hitem depth (i.offset + byteLength (m.mark ++ key))
  obtain ⟨e', hproduct⟩ := hspells.times rfl blanks_space hf
  have hstops : Stops 0 l.rest := by
    obtain ⟨cs, hcs⟩ := List.head?_eq_some_iff.mp hc
    rw [hcs]
    exact .cons (by decide) (by decide)
  have hparted : Parted ending gap l.rest [] :=
    .omitted (fun _ => nextNot_of_head? hc (ending.continues_of_mem_delimiters (by decide))) hstops
      (by simp [hc])
  exact ⟨_, (memberRound_iff h hi).mpr (.inr ⟨⟨m.marked, m.key, e'⟩, key, _, gap, ending, [], hkey,
    hproduct, by simpa [Member.mark] using ht, hg, nextNot_of_head? hc (by decide), hparted, hd, rfl⟩)⟩

/-- No member begins with a colon. -/
theorem memberRound_of_colon (hc : l.rest.head? = some ':') :
    memberRound inner ⟨none, depth⟩ opener read l =
      .error ⟨.malformedIdentifier, extent l.offset [':'], some (.found ':'), none⟩ l := by
  obtain ⟨o, rest⟩ := l
  obtain ⟨cs, rfl⟩ := List.head?_eq_some_iff.mp hc
  rfl

/-- A member with a mark behind it and a fault behind the mark. -/
theorem memberRound_eq_error_of_factor (hk : FaultyFactor k e l) (hkind : e.kind ≠ .endOfInput)
    (hm : MemberText text m) (ht : i.Takes (text ++ [' ', '*']) k)
    (hi : i.rest.length < bound) :
    memberRound (expression bound) ⟨none, depth⟩ opener read i = .error e l := by
  obtain @⟨m, key, item, _, hkey, hitem⟩ := hm
  rw [List.append_assoc] at ht
  obtain ⟨m₂, hm₂, hitem'⟩ := Input.takes_append.mp ht
  have hlen := hm₂.length
  obtain ⟨e', _, hspells⟩ := hitem depth m₂.offset
  have hfault : expression bound ⟨none, depth⟩ m₂ = .error e l :=
    expression_eq_error_of_factor hk rfl blanks_space hspells (by simpa using hitem') (by omega)
  have hfresh : NextNot isBlank m₂.rest := by
    rw [hitem'.rest, List.append_assoc]
    exact (hspells.starts.append _).nextNot_isBlank
  exact memberRound_eq_error hkind hkey hm₂ hfresh hfault

/-- By induction on the members: with blanks between them they are read up to the last one. -/
theorem passes_to_last (h : Exact bound inner)
    (hms : List.Forall₂ MemberText (text :: texts) (m :: ms)) (hnone : ∀ m ∈ ms, m.marked = false)
    (hi : i.rest.length < bound) (ht : i.Takes ([' '].intercalate (text :: texts) ++ [' ', '*']) k)
    (hd : m.marked = true → read.2 = none) :
    ∃ read' j text' m', Passes (memberRound inner ⟨none, depth⟩ opener) read i read' j ∧
      MemberText text' m' ∧ (m'.marked = true → read'.2 = none) ∧ j.Takes (text' ++ [' ', '*']) k ∧
      j.rest.length < bound := by
  induction texts generalizing text m ms i read with
  | nil =>
    obtain _ | ⟨hm, _ | _⟩ := hms
    rw [List.intercalate_singleton] at ht
    exact ⟨read, i, text, m, .refl, hm, hd, ht, hi⟩
  | cons next texts ih =>
    obtain _ | ⟨hm, hrest⟩ := hms
    obtain _ | @⟨_, m₁, _, ms, hm₁, hms⟩ := hrest
    have hmark : m₁.marked = false := hnone m₁ (List.mem_cons_self ..)
    obtain ⟨more, hmore⟩ := exists_intercalate_cons [' '] next texts
    rw [List.intercalate_cons_cons, List.append_assoc (text ++ [' ']), ← List.append_nil (text ++ [' '])]
      at ht
    obtain ⟨j, hj, hk⟩ := Input.takes_append.mp ht
    have hrest : j.rest = next ++ (more ++ [' ', '*'] ++ k.rest) := by
      rw [hk.rest, hmore]
      simp
    obtain ⟨hstops, hcomma⟩ := stops_of_unmarked hm₁ hmark (more ++ [' ', '*'] ++ k.rest)
    have hfresh := hm₁.fresh (more ++ [' ', '*'] ++ k.rest)
    rw [← hrest] at hstops hcomma hfresh
    obtain ⟨entries, hround⟩ := memberRound_eq_again depth opener read h hi hm hj (by decide) hfresh
      (fun _ => .omitted (fun h => absurd h (by decide)) hstops hcomma) hd
    have hlen := hj.length
    obtain ⟨read', j', text', m', hpasses, hlast⟩ := ih (.cons hm₁ hms)
      (fun m hm => hnone m (List.mem_cons_of_mem _ hm)) (by omega) hk
      (fun hm => absurd hm (by simp [hmark]))
    exact ⟨read', j', text', m', .again hround hpasses, hlast⟩

/-- A fault behind the rounds of the last member, of which the mark behind it is a part, is a fault of
the value. -/
theorem value_eq_error_of_last {bound' : Nat}
    (hms : List.Forall₂ MemberText (text :: texts) (m :: ms)) (hnone : ∀ m ∈ ms, m.marked = false)
    (hi : i.Takes (['\x7b'] ++ [' '].intercalate (text :: texts) ++ [' ', '*']) k)
    (hlen : i.rest.length ≤ bound) (hle : bound ≤ bound')
    (hlast : ∀ {j text m} {read : Members}, MemberText text m → (m.marked = true → read.2 = none) →
      j.Takes (text ++ [' ', '*']) k → j.rest.length < bound →
      ∃ read' j', Passes (memberRound (expression bound') ⟨none, depth + 1⟩ i.here) read j read' j' ∧
        memberRound (expression bound') ⟨none, depth + 1⟩ i.here read' j' = .error e l) :
    value (expression bound') (bound + 1) ⟨none, depth⟩ i = .error e l := by
  have hexact : Exact bound (expression bound') := (exact_expression bound').mono hle
  rw [List.append_assoc] at hi
  obtain ⟨j, hj, hk⟩ := Input.takes_append.mp hi
  have hlen₁ := hj.length_lt (by simp)
  obtain ⟨hm, _⟩ := List.forall₂_cons.mp hms
  obtain ⟨more, hmore⟩ := exists_intercalate_cons [' '] text texts
  have hfresh : NextNot isBlank j.rest := by
    rw [hk.rest, hmore]
    simp only [List.append_assoc]
    exact hm.fresh _
  have hd : m.marked = true → (([], none) : Members).2 = none := fun _ => rfl
  obtain ⟨read₁, j₁, text', m', hpasses₁, hm', hd', hk', hlen₂⟩ :=
    passes_to_last hexact hms hnone (by omega) hk hd
  obtain ⟨read₂, j₂, hpasses₂, hfault⟩ := hlast hm' hd' hk' hlen₂
  rw [← List.append_nil ['\x7b']] at hj
  exact value_eq_error_of_passes depth hlen hle hj blanks_nil hfresh (hpasses₁.trans hpasses₂) hfault

/-- Where the factor is a whole key, the colon behind it is missing an operator. -/
theorem value_eq_error_of_operand (depth : Nat) {bound' : Nat} {rest : List Char}
    (hms : List.Forall₂ MemberText (text :: texts) (m :: ms)) (hnone : ∀ m ∈ ms, m.marked = false)
    (hf : FactorText factor ending) (hg : Blanks gap)
    (hi : i.rest = ['\x7b'] ++ [' '].intercalate (text :: texts) ++ [' ', '*'] ++ factor ++ gap ++ [':'] ++
      rest) (hlen : i.rest.length ≤ bound) (hle : bound ≤ bound') :
    ∃ l, value (expression bound') (bound + 1) ⟨none, depth⟩ i = .error ⟨.malformedIdentifier,
      extent (i.offset + byteLength (['\x7b'] ++ [' '].intercalate (text :: texts) ++ [' ', '*'] ++
        factor ++ gap)) [':'], some (.found ':'), none⟩ l := by
  have hexact : Exact bound (expression bound') := (exact_expression bound').mono hle
  obtain ⟨l, hl, hrest⟩ := Input.exists_takes_before hi
  have hc : l.rest.head? = some ':' := by
    rw [hrest]
    rfl
  rw [← hl.offset]
  rw [List.append_assoc _ factor] at hl
  obtain ⟨k, hk, hkl⟩ := Input.takes_append.mp hl
  refine ⟨l, value_eq_error_of_last hms hnone hk hlen hle fun hm hd hj hi => ?_⟩
  have ht := hj.trans hkl
  rw [← List.append_assoc] at ht
  obtain ⟨read', hround⟩ := memberRound_of_product hexact hi hm hf hg ht hc hd
  exact ⟨read', l, .again hround .refl, memberRound_of_colon hc⟩

/-- Where the factor is an integer that is too large, it is refused. -/
theorem value_eq_error_of_large (depth : Nat) {bound' : Nat} {rest : List Char} {c : Char}
    (hms : List.Forall₂ MemberText (text :: texts) (m :: ms)) (hnone : ∀ m ∈ ms, m.marked = false)
    (hdigits : ∀ d ∈ factor, d.isDigit = true) (hbound : integerBound ≤ decimalValue factor)
    (hc : c.isDigit = false)
    (hi : i.rest = ['\x7b'] ++ [' '].intercalate (text :: texts) ++ [' ', '*'] ++ factor ++ [c] ++ rest)
    (hlen : i.rest.length ≤ bound) (hle : bound ≤ bound') :
    ∃ l, value (expression bound') (bound + 1) ⟨none, depth⟩ i = .error ⟨.malformedExpression,
      extent (i.offset + byteLength (['\x7b'] ++ [' '].intercalate (text :: texts) ++ [' ', '*'])) factor,
      some .integerRange, none⟩ l := by
  obtain ⟨l, hl, hrest⟩ := Input.exists_takes_before hi
  have hnext : NextNot Char.isDigit l.rest := by
    rw [hrest]
    exact nextNot_cons.mpr hc
  obtain ⟨k, hk, hkl⟩ := Input.takes_append.mp hl
  have hfaulty := faultyFactor_of_digits hdigits hbound hkl hnext
  rw [hk.offset] at hfaulty
  refine ⟨l, value_eq_error_of_last hms hnone hk hlen hle fun hm _ hj hi => ?_⟩
  exact ⟨_, _, .refl, memberRound_eq_error_of_factor hfaulty (by simp) hm hj (by omega)⟩

end Reader

/-! ### Members with a mark among others -/

section Refused

variable {text key gap digits : List Char} {texts : List (List Char)} {m : Member} {ms : List Member}

theorem MarkedText.marked (h : MarkedText text) (hm : MemberText text m) : m.marked = true := by
  obtain ⟨⟩ := h
  obtain ⟨c, cs, hcons, ⟨hmark, _⟩ | ⟨_, hc⟩⟩ := hm.exists_cons
  · exact hmark
  · have hstar : some '*' = some c := congrArg List.head? hcons
    rw [← Option.some.inj hstar] at hc
    exact absurd hc (by decide)

/-- An object with a mark in it up to the text behind the mark. -/
theorem exists_front_of_marked (text text' text'' : List Char) (texts texts' : List (List Char)) :
    ∃ more, bracedWith [' '] (text :: texts ++ (['*'] ++ text' ++ text'') :: texts') =
      ['\x7b'] ++ [' '].intercalate (text :: texts) ++ [' ', '*'] ++ text' ++ more := by
  obtain ⟨more, hmore⟩ := exists_intercalate_cons [' '] (['*'] ++ text' ++ text'') texts'
  refine ⟨text'' ++ more ++ ['\x7d'], ?_⟩
  rw [bracedWith, intercalate_cons_append, hmore]
  simp

/-- Where the key behind a mark is an operand, the colon behind it is refused. -/
theorem refusedAs_operand {ending : Ending} (h : List.Forall₂ MemberText (text :: texts) (m :: ms))
    (hnone : ∀ m ∈ ms, m.marked = false) (hf : FactorText key ending) (hg : Blanks gap) :
    RefusedAs (['\x7b'] ++ [' '].intercalate (text :: texts) ++ [' ', '*'] ++ key ++ gap ++ [':'])
      ⟨.malformedIdentifier, extent (byteLength (['\x7b'] ++ [' '].intercalate (text :: texts) ++
        [' ', '*'] ++ key ++ gap)) [':'], some (.found ':'), none⟩ := by
  refine .of_value rfl fun bound bound' depth o rest hlen hle => ?_
  obtain ⟨l, hvalue⟩ := Reader.value_eq_error_of_operand depth h hnone hf hg
    (rfl : Input.rest ⟨o, _ ++ rest⟩ = _ ++ rest) hlen hle
  refine ⟨l, hvalue.trans ?_⟩
  simp only [Fault.shift, Option.map_none, extent_shift]

/-- Where it begins with an integer that is too large, the integer is. -/
theorem refusedAs_large {c : Char} (h : List.Forall₂ MemberText (text :: texts) (m :: ms))
    (hnone : ∀ m ∈ ms, m.marked = false) (hdigits : ∀ d ∈ digits, d.isDigit = true)
    (hbound : integerBound ≤ decimalValue digits) (hc : c.isDigit = false) :
    RefusedAs (['\x7b'] ++ [' '].intercalate (text :: texts) ++ [' ', '*'] ++ digits ++ [c])
      ⟨.malformedExpression, extent (byteLength (['\x7b'] ++ [' '].intercalate (text :: texts) ++
        [' ', '*'])) digits, some .integerRange, none⟩ := by
  refine .of_value rfl fun bound bound' depth o rest hlen hle => ?_
  obtain ⟨l, hvalue⟩ := Reader.value_eq_error_of_large depth h hnone hdigits hbound hc
    (rfl : Input.rest ⟨o, _ ++ rest⟩ = _ ++ rest) hlen hle
  refine ⟨l, hvalue.trans ?_⟩
  simp only [Fault.shift, Option.map_none, extent_shift]

end Refused

/-- A member is taken out of a list of texts. -/
theorem exists_split_of_mem {text : List Char} {texts : List (List Char)} {ms : List Member}
    (h : List.Forall₂ MemberText texts ms) (ht : text ∈ texts) :
    ∃ front back ms₁ m ms₂, texts = front ++ text :: back ∧ ms = ms₁ ++ m :: ms₂ ∧
      List.Forall₂ MemberText front ms₁ ∧ MemberText text m ∧ List.Forall₂ MemberText back ms₂ := by
  induction h with
  | nil => simp at ht
  | @cons first m texts ms hm hms ih =>
    rcases List.mem_cons.mp ht with rfl | ht
    · exact ⟨[], texts, [], m, ms, rfl, rfl, .nil, hm, hms⟩
    · obtain ⟨front, back, ms₁, m', ms₂, rfl, rfl, hfront, hm', hback⟩ := ih ht
      exact ⟨first :: front, back, m :: ms₁, m', ms₂, rfl, rfl, .cons hm hfront, hm', hback⟩

/-- No digit comes behind the digits at the front of a key. -/
theorem exists_cons_of_colon {rest gap : List Char} (hrest : NextNot Char.isDigit rest)
    (hg : Blanks gap) : ∃ c cs, rest ++ gap ++ [':'] = c :: cs ∧ c.isDigit = false := by
  have hcolon : Ending.Clear .digits gap [':'] := fun _ => nextNot_cons.mpr (by decide)
  cases rest with
  | cons c cs => exact ⟨c, cs ++ gap ++ [':'], rfl, nextNot_cons.mp hrest⟩
  | nil =>
    obtain ⟨c, cs, hcons⟩ := List.exists_cons_of_ne_nil (by simp : gap ++ [':'] ≠ [])
    have hnext := Ending.Clear.nextNot hg hcolon
    rw [hcons] at hnext
    exact ⟨c, cs, hcons, nextNot_cons.mp hnext⟩

/-- By the key behind it: a mark behind the first member is not read as one. -/
theorem misread_of_factored {text key gap gap' item : List Char} {texts texts' : List (List Char)}
    {m : Member} {ms ms' : List Member} {e : Expr} {ending : Ending}
    (h : List.Forall₂ MemberText (text :: texts) (m :: ms)) (hnone : ∀ m' ∈ m :: ms, m'.marked = false)
    (hkey : Factored key) (hg : Blanks gap) (hg' : Blanks gap') (hitem : ExprText item e ending)
    (h' : List.Forall₂ MemberText texts' ms') (hnone' : ∀ m ∈ ms', m.marked = false) {object : List Char}
    (hobject : object = bracedWith [' ']
      (text :: texts ++ (['*'] ++ key ++ gap ++ [':'] ++ gap' ++ item) :: texts')) :
    (∃ fault, RefusedAs object fault) ∨ ReadsAs object (fun v => ∃ entries s, v = .object entries none s) := by
  have hnone₁ : ∀ m ∈ ms, m.marked = false := fun m hm => hnone m (List.mem_cons_of_mem _ hm)
  cases hkey with
  | whole hf =>
    obtain ⟨more, hmore⟩ :=
      exists_front_of_marked text (key ++ gap ++ [':']) (gap' ++ item) texts texts'
    have hrefused := (refusedAs_operand h hnone₁ hf hg).append more
    have hfront : object = ['\x7b'] ++ [' '].intercalate (text :: texts) ++ [' ', '*'] ++ key ++ gap ++
        [':'] ++ more := by
      rw [hobject]
      simpa using hmore
    rw [← hfront] at hrefused
    exact .inl ⟨_, hrefused⟩
  | @large digits rest hdigits hrest hbound =>
    obtain ⟨c, cs, hcons, hc⟩ := exists_cons_of_colon hrest hg
    obtain ⟨more, hmore⟩ :=
      exists_front_of_marked text (digits ++ [c]) (cs ++ gap' ++ item) texts texts'
    have hrefused := (refusedAs_large h hnone₁ hdigits hbound hc).append more
    have hmember : ['*'] ++ (digits ++ rest) ++ gap ++ [':'] ++ gap' ++ item =
        ['*'] ++ (digits ++ [c]) ++ (cs ++ gap' ++ item) := calc
      _ = ['*'] ++ digits ++ (rest ++ gap ++ [':']) ++ gap' ++ item := by simp
      _ = _ := by simp [hcons]
    have hfront : object = ['\x7b'] ++ [' '].intercalate (text :: texts) ++ [' ', '*'] ++ digits ++
        [c] ++ more := by
      rw [hobject, hmember, hmore]
      simp
    rw [← hfront] at hrefused
    exact .inl ⟨_, hrefused⟩
  | @begun digits rest hf hrest =>
    have hlater : MemberText ((rest ++ gap ++ [':'] ++ gap') ++ item) ⟨false, String.ofList rest, e⟩ :=
      MemberText.mk (m := ⟨false, String.ofList rest, e⟩) (.mk (.bare hrest.1) hg hg') hitem
    obtain ⟨c, cs, hcons, _⟩ := hrest.1.exists_cons
    have hreads := readsAs_begun h hnone hf (.cons hlater h')
      (List.forall_mem_cons.mpr ⟨rfl, hnone'⟩) (by
        subst hcons
        exact nextNot_cons.mpr (nextNot_cons.mp hrest.2))
    refine .inr ?_
    rw [hobject]
    simpa using hreads

/-- So members are not read as they are written where one behind the first has the mark. -/
theorem misread_of_marked {texts : List (List Char)} {ms : List Member}
    (h : List.Forall₂ MemberText texts ms) (hc : ms.countP Member.marked ≤ 1)
    (hmarked : ∃ text ∈ texts.tail, MarkedText text) :
    (∃ fault, RefusedAs (bracedWith [' '] texts) fault) ∨
      ReadsAs (bracedWith [' '] texts) (fun v => v.bare ≠ objectOf ms) := by
  obtain ⟨text, htext, hmark⟩ := hmarked
  cases h with
  | nil => simp at htext
  | @cons first m₀ texts ms hm₀ hms =>
    obtain ⟨texts, texts', ms₁, m, ms₂, rfl, rfl, hfront, hm, hback⟩ := exists_split_of_mem hms htext
    have hmarked := hmark.marked hm
    -- the mark is the only one
    rw [← List.cons_append, List.countP_append, List.countP_cons_of_pos hmarked] at hc
    have hnone := Member.countP_marked_eq_zero_iff.mp (by omega : (m₀ :: ms₁).countP Member.marked = 0)
    have hnone' := Member.countP_marked_eq_zero_iff.mp (by omega : ms₂.countP Member.marked = 0)
    have hdefault : Member.default? (m₀ :: (ms₁ ++ m :: ms₂)) ≠ none := by
      rw [Ne, Member.default?_eq_none_iff, Member.countP_marked_eq_zero_iff]
      intro hall
      rw [hall m (by simp)] at hmarked
      cases hmarked
    obtain ⟨hname, hending, hg, hg', hitem⟩ := hmark
    refine (misread_of_factored (.cons hm₀ hfront) hnone (hname.factored hending) hg hg' hitem hback
      hnone' rfl).imp_right fun hreads => hreads.mono ?_
    rintro _ ⟨entries, s, rfl⟩ hbare
    rw [Value.bare, objectOf, Value.object.injEq] at hbare
    exact hdefault hbare.2.1.symm

/-- With commas, members with at most one mark are read as they are written. Without commas they come
to the same object if no member behind the first one has the mark. Behind another member the mark is
never read as one, unless a quote that is not closed comes next to it. -/
theorem read_without_commas {texts : List (List Char)} {ms : List Member}
    (h : List.Forall₂ MemberText texts ms) (hc : ms.countP Member.marked ≤ 1) :
    ReadsAs (bracedWith [',', ' '] texts) (fun v => v.bare = objectOf ms) ∧
    ((∀ m ∈ ms.tail, m.marked = false) →
      ReadsAs (bracedWith [' '] texts) (fun v => v.bare = objectOf ms)) ∧
    ((∃ text ∈ texts.tail, MarkedText text) → (∃ fault, RefusedAs (bracedWith [' '] texts) fault) ∨
      ReadsAs (bracedWith [' '] texts) (fun v => v.bare ≠ objectOf ms)) :=
  ⟨readsAs_comma h hc, fun hnone => readsAs_spaced h hnone, fun hmarked => misread_of_marked h hc hmarked⟩

/-- The first of two members has the mark; then the second one has it. -/
theorem read_without_commas_two :
    (∃ r e, Resource.read none "<x \x7b*a: 1, b: 2\x7d>" = .ok r ∧ r.entries = [.entity e] ∧
      e.value.bare = .object [("a", .integer 1 default), ("b", .integer 2 default)] (some "a") default) ∧
    (∃ r e, Resource.read none "<x \x7b*a: 1 b: 2\x7d>" = .ok r ∧ r.entries = [.entity e] ∧
      e.value.bare = .object [("a", .integer 1 default), ("b", .integer 2 default)] (some "a") default) ∧
    ¬ ∃ r e, Resource.read none "<x \x7ba: 1 *b: 2\x7d>" = .ok r ∧ r.entries = [.entity e] ∧
      e.value.bare = .object [("a", .integer 1 default), ("b", .integer 2 default)] (some "b") default := by
  have ha : IsName "a".toList := by decide +kernel
  have hb : IsName "b".toList := by decide +kernel
  have hx : IsName ['x'] := by decide +kernel
  have hfront : EntityFront ['<', 'x', ' '] := .mk (.bare hx) .none blanks_space
  have hone := fun marked => memberText_digit '1' marked ha (by decide) (by decide)
  have htwo := fun marked => memberText_digit '2' marked hb (by decide) (by decide)
  have hmark : MarkedText (['*'] ++ ['b'] ++ [] ++ [':'] ++ [' '] ++ ['2']) :=
    .mk (.bare hb) (.inl rfl) blanks_nil blanks_space (exprText_digit (by decide) (by decide))
  obtain ⟨hcomma, hspaced, -⟩ :=
    read_without_commas (.cons (hone true) (.cons (htwo false) .nil)) (by decide)
  obtain ⟨-, -, hmisread⟩ :=
    read_without_commas (.cons (hone false) (.cons (htwo true) .nil)) (by decide)
  refine ⟨?_, ?_, ?_⟩
  · obtain ⟨r, e, hread, hentries, hvalue⟩ := hcomma.entity _ hfront
    exact ⟨r, e, hread, hentries, hvalue.trans rfl⟩
  · obtain ⟨r, e, hread, hentries, hvalue⟩ := (hspaced (by simp)).entity _ hfront
    exact ⟨r, e, hread, hentries, hvalue.trans rfl⟩
  · rintro ⟨r, e, hread, hentries, hvalue⟩
    rcases hmisread ⟨_, List.mem_singleton_self _, hmark⟩ with ⟨fault, hrefused⟩ | hreads
    · have herror := hrefused.entity _ ['>'] hfront
      exact absurd (hread.symm.trans herror) (by simp)
    · obtain ⟨r', e', hread', hentries', hvalue'⟩ := hreads.entity _ hfront
      obtain rfl := Except.ok.inj (hread.symm.trans hread')
      obtain rfl := Entry.entity.inj (List.singleton_inj.mp (hentries.symm.trans hentries'))
      exact hvalue' hvalue

/-- Two members, of which the second one has the mark, are read with a comma between them and refused
with a blank. -/
theorem marked_member_needs_comma :
    List.Forall₂ MemberText ["a: 1".toList, "*b: 2".toList]
      [⟨false, "a", .integer 1 default⟩, ⟨true, "b", .integer 2 default⟩] ∧
    (∃ r, Resource.read none "<x \x7ba: 1, *b: 2\x7d>" = .ok r) ∧
    Resource.read none "<x \x7ba: 1 *b: 2\x7d>" = .error ⟨.malformedIdentifier, ⟨11, 12⟩, ⟨1, 12⟩,
      "expected an identifier: found `:`", none⟩ := by
  have ha : IsName "a".toList := by decide +kernel
  have hb : IsName "b".toList := by decide +kernel
  have hone := memberText_digit '1' false ha (by decide) (by decide)
  have htwo := memberText_digit '2' true hb (by decide) (by decide)
  exact ⟨.cons hone (.cons htwo .nil), Resource.exists_of_isOk (by decide +kernel),
    Resource.read_eq_error_iff_error?.mpr (by decide +kernel)⟩

end LocaleText
