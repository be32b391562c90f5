import LocaleText.Proofs.Carry.Token
import LocaleText.Proofs.Reading.Operation

/-!
# Values and expressions elsewhere

Given readers of the expressions one level further in of which the second does elsewhere what the
first does here, so do the readers of composites, operands and operations around them.

* `CarriesInner` is what is known of the readers one level further in
* `Carries.value`, `.primary`, `.operations` and `.conditional` follow the readers of the grammar
* `Carries.expression` ties the knot: expressions are read elsewhere as they are read here
-/

namespace LocaleText

namespace Reader

/-- On inputs shorter than `b`, the second reader does elsewhere what the first does here. -/
def CarriesInner (b bound k : Nat) (inner inner' : Nesting → Reader Expr) : Prop :=
  ∀ n i, i.rest.length < b → Carries bound k (Expr.shift k) (inner n) (inner' n) i

namespace Carries

variable {α β : Type} {i : Input} {c : Char} {b bound k : Nat} {n : Nesting}
  {inner inner' : Nesting → Reader Expr}

/-! ### Separators and keys -/

theorem optionalComma : Carries bound k id optionalComma Reader.optionalComma i :=
  eat.bind fun _ _ _ _ => .ite (fun _ => blanks) fun _ => .pure rfl

theorem keyed {f : α → β} {value : Reader α} {value' : Reader β}
    (h : ∀ l : Input, l.rest.length ≤ i.rest.length → Carries bound k f value value' l) :
    Carries bound k (Prod.map (Ident.shift k) f) (keyed value) (Reader.keyed value') i := by
  refine ident.bind fun key _ _ _ => ?_
  refine blanks.bind fun _ _ _ _ => ?_
  refine eat.bind fun _ _ _ _ => ?_
  refine .ite (fun _ => ?_) fun _ => .unexpected (by decide)
  refine blanks.bind fun _ l _ _ => ?_
  exact (h l (by omega)).bind fun a _ _ _ => .pure rfl

/-- A composite that is not closed at the end of the source. -/
theorem unterminated {f : α → β} {composite : Composite} {opener : Span}
    (hi : i.rest.head? = none) :
    Carries bound k f (unterminated composite opener : Reader α)
      (Reader.unterminated composite (opener.shift k)) i := by
  refine .fail_here rfl (fun _ => by simp [FaultKind.unsettled]) (fun hne => ?_) (by simp)
  exact absurd (List.head?_eq_none_iff.mp hi) hne

/-! ### Arrays and indices -/

section Items

variable {composite : Composite} {opener : Span} {items : Array Expr}

theorem expressionRound (h : CarriesInner b bound k inner inner') (hi : i.rest.length < b) :
    Carries bound k (mapRound (Array.map (Expr.shift k)) (shiftItems k))
      (expressionRound inner n composite opener items)
      (Reader.expressionRound inner' n composite (opener.shift k) (items.map (Expr.shift k))) i := by
  refine .peek?_bind ?_
  cases hc : i.rest.head? with
  | none => exact .unterminated hc
  | some c =>
    refine .ite (fun _ => ?_) fun _ => ?_
    · refine (skip_bind hc fun l _ => ?_).mono (Nat.le_succ bound)
      exact .pure (by simp [mapRound, shiftItems_eq_map])
    · refine (h n i hi).within.bind fun item _ _ _ => ?_
      refine blanks.bind fun _ _ _ _ => ?_
      refine optionalComma.bind fun _ _ _ _ => ?_
      exact .pure (by simp [mapRound])

/-- What is in an array or an index. Each round takes something, so the bounds do not matter. -/
theorem expressions (hx : Exact b inner) (h : CarriesInner b bound k inner inner')
    (hcloser : composite.closer = ']') (hi : i.rest.length < b + 1)
    (hc : i.rest.head? = some '[') :
    Carries (bound + 1) k (shiftItems k) (expressions inner (b + 1) n composite)
      (Reader.expressions inner' (bound + 1) n composite) i := by
  refine .here_bind ?_
  refine skip_bind hc fun l hl => ?_
  have hlen := hl.length_lt (by simp)
  refine blanks.bind fun _ m _ _ => ?_
  have hrounds : Carries bound k (shiftItems k)
      (Reader.repeatUpTo (b + 1) #[] (Reader.expressionRound inner n composite i.here))
      (Reader.repeatUpTo (bound + 1) (Array.map (Expr.shift k) #[])
        (Reader.expressionRound inner' n composite (i.here.shift k))) m :=
    repeatUpTo (shortens_expressionRound hx hcloser) (fun _ _ hj => expressionRound h hj)
      (by omega) (by omega) (Nat.le_succ bound) (Nat.le_refl bound)
  rwa [Array.map_empty] at hrounds

end Items

/-! ### Objects -/

/-- A second default is reported behind the whole member, so that nothing but another fault can keep
the fault away. -/
theorem fail_behind {γ δ : Type} {f : α → β} {g : γ → δ} {x : Reader α} {y : Reader β} {span : Span}
    {detail : Option Detail} {note note' : Option (Note × Span)}
    (hnote : note' = note.map fun n => (n.1, n.2.shift k)) (hx : Carries bound k f x y i)
    (hi : ∀ a l, x i = .ok a l → 1 < i.rest.length) (hspan : span.start < span.stop) :
    Carries bound k g (x >>= fun _ => (fail .duplicateDefault span detail note : Reader γ))
      (y >>= fun _ => fail .duplicateDefault (span.shift k) detail note') i := by
  have hne : ∀ {j l : Input} {d : δ},
      (y >>= fun _ => (fail .duplicateDefault (span.shift k) detail note' : Reader δ)) j ≠ .ok d l := by
    intro j l d hok
    obtain ⟨_, _, _, hfail⟩ := bind_eq_ok.mp hok
    exact fail_ne_ok hfail
  constructor
  · intro a l hok
    obtain ⟨_, _, _, hfail⟩ := bind_eq_ok.mp hok
    exact absurd hfail fail_ne_ok
  · intro e m he
    rcases bind_eq_error.mp he with he | ⟨a, l, ha, he⟩
    · obtain ⟨text, rest, ht, hsame, -⟩ := hx.error he
      refine ⟨text, rest, ht, fun rest' hr hlen => ?_, fun _ _ _ _ _ _ => hne⟩
      obtain ⟨m', hy, hm'⟩ := hsame rest' hr hlen
      exact ⟨m', bind_eq_error.mpr (.inl hy), hm'⟩
    · obtain ⟨rfl, rfl⟩ : _ = e ∧ l = m := by simpa [fail] using he
      obtain ⟨text, ht, hy⟩ := hx.ok ha
      have hs : Fault.Settled ⟨.duplicateDefault, span, detail, note⟩ := ⟨hspan, by simp⟩
      have hlong := hi a l ha
      refine ⟨i.rest, [], ⟨(List.append_nil _).symm, fun hnil => by simp [hnil] at hlong,
        Nat.le_of_lt hspan, fun hk => absurd rfl hk, fun hk => absurd hk (by simp),
        fun hopen => absurd hs hopen, fun _ => hlong⟩, fun rest' hr hlen => ?_, fun _ _ _ _ _ _ => hne⟩
      rw [List.head?_nil, eq_comm, List.head?_eq_none_iff] at hr
      rw [hr, List.append_nil, ht.rest] at hlen ⊢
      refine ⟨⟨l.offset + k, l.rest⟩, bind_eq_error.mpr (.inr ⟨f a, _, hy l.rest (.refl _) hlen, ?_⟩),
        fun hk => absurd hk (by simp)⟩
      rw [hnote]
      rfl

/-- Where `c` comes next, it is taken. -/
theorem eat_bind_of_head {u : Bool → Reader α} (hc : i.rest.head? = some c) :
    (Reader.eat c >>= u) i = (skip >>= fun _ => u true) i := by
  obtain ⟨l, hl⟩ := Input.exists_takes_head hc
  rw [Reader.skip_bind hl]
  show EStateM.bind (Reader.eat c) u i = _
  rw [EStateM.bind, eat_eq_ok.mpr (.inl ⟨hl, rfl⟩)]

/-- The members read so far, further on. -/
def shiftRead (k : Nat) (read : Members) : Members :=
  (shiftMembers k read.1, read.2.map (Prod.map id (Span.shift k)))

/-- All members of an object and the key of its default, further on. -/
def shiftObject (k : Nat) (read : Keyed Expr × Option String) : Keyed Expr × Option String :=
  (shiftMembers k read.1, read.2)

section Members

variable {opener : Span}

/-- A member behind its mark. -/
theorem member (h : CarriesInner b bound k inner inner') (hi : i.rest.length < b) :
    Carries bound k (Prod.map (Ident.shift k) (Expr.shift k))
      (Reader.within .object opener (Reader.keyed (inner n)))
      (Reader.within .object (opener.shift k) (Reader.keyed (inner' n))) i :=
  (keyed fun m hm => h n m (Nat.lt_of_le_of_lt hm hi)).within

/-- A marked member takes the mark, a key and the colon. -/
theorem marked_long {p : Ident × Expr} {l : Input} (hc : i.rest.head? = some '*')
    (hok : (skip >>= fun _ => Reader.within .object opener (Reader.keyed (inner n))) i = .ok p l) :
    1 < i.rest.length := by
  obtain ⟨m, hm, hok⟩ := (skip_bind_eq_ok hc).mp hok
  obtain ⟨_, _, _, _, _, _, hident, hm₂, hm₃, -⟩ := keyed_eq_ok.mp (within_eq_ok.mp hok)
  obtain ⟨_, _, ht, -⟩ := ident_eq_ok.mp hident
  have hlen := hm.length_lt (by simp)
  have hlen₁ := ht.length
  have hlen₂ := hm₂.takes.length
  have hlen₃ := hm₃.length_lt (by simp)
  omega

/-- A member that is the second one marked. -/
theorem secondMark (h : CarriesInner b bound k inner inner') (hi : i.rest.length < b)
    (hc : i.rest.head? = some '*') {first : Span} :
    Carries bound k (mapRound (shiftRead k) (shiftObject k))
      (skip >>= fun _ => Reader.within .object opener (Reader.keyed (inner n)) >>= fun _ =>
        fail .duplicateDefault i.here none (some (.firstDefault, first)))
      (skip >>= fun _ => Reader.within .object (opener.shift k) (Reader.keyed (inner' n)) >>= fun _ =>
        fail .duplicateDefault (i.here.shift k) none (some (.firstDefault, first.shift k))) i := by
  have hpart : Carries (bound + 1) k (Prod.map (Ident.shift k) (Expr.shift k))
      (skip >>= fun _ => Reader.within .object opener (Reader.keyed (inner n)))
      (skip >>= fun _ => Reader.within .object (opener.shift k) (Reader.keyed (inner' n))) i :=
    skip_bind hc fun l hl => member h (Nat.lt_trans (hl.length_lt (by simp)) hi)
  have hspan : i.here.start < i.here.stop := by
    have hne : i.rest ≠ [] := fun hnil => by simp [hnil] at hc
    obtain ⟨c, cs, hi⟩ := List.exists_cons_of_ne_nil hne
    simp only [Input.here, hi]
    exact Nat.lt_add_of_pos_right c.utf8Size_pos
  rw [← bind_assoc, ← bind_assoc]
  exact (fail_behind rfl hpart (fun _ _ => marked_long hc) hspan).mono (Nat.le_succ bound)

/-- What is done behind any other member. -/
theorem behindMember {entries : Keyed Expr} (default : Option (String × Span)) {key : Ident}
    {item : Expr} :
    Carries bound k (mapRound (shiftRead k) (shiftObject k))
      (do
        Reader.blanks
        Reader.optionalComma
        Pure.pure (Round.again (entries.insert key.name item, default)))
      (do
        Reader.blanks
        Reader.optionalComma
        Pure.pure (Round.again (Keyed.insert key.name (item.shift k) (shiftMembers k entries),
          default.map (Prod.map id (Span.shift k))))) i := by
  refine blanks.bind fun _ _ _ _ => ?_
  refine optionalComma.bind fun _ _ _ _ => ?_
  exact .pure (by simp [mapRound, shiftRead, shiftMembers_insert])

/-- A member, or the closer. -/
theorem memberRound (h : CarriesInner b bound k inner inner') (hi : i.rest.length < b)
    {read : Members} :
    Carries bound k (mapRound (shiftRead k) (shiftObject k))
      (memberRound inner n opener read)
      (Reader.memberRound inner' n (opener.shift k) (shiftRead k read)) i := by
  obtain ⟨entries, default⟩ := read
  refine .peek?_bind ?_
  cases hc : i.rest.head? with
  | none => exact .unterminated hc
  | some c =>
    refine .ite (fun _ => ?_) fun _ => ?_
    · refine (skip_bind hc fun l _ => ?_).mono (Nat.le_succ bound)
      cases default <;> exact .pure rfl
    · refine .here_bind ?_
      by_cases hdup : default.isSome = true ∧ c = '*'
      · obtain ⟨hsome, rfl⟩ := hdup
        obtain ⟨⟨name, first⟩, rfl⟩ := Option.isSome_iff_exists.mp hsome
        exact (secondMark h hi hc).of_eq (eat_bind_of_head hc)
          fun j _ hj => eat_bind_of_head (hj ▸ hc)
      · refine eat.bind fun marked l hmarked hl => ?_
        refine (member h (Nat.lt_of_le_of_lt hl hi)).bind fun p m _ _ => ?_
        obtain ⟨key, item⟩ := p
        cases marked with
        | false => exact behindMember default
        | true =>
          cases default with
          | none => exact behindMember (some (key.name, i.here))
          | some marked =>
            rcases eat_eq_ok.mp hmarked with ⟨htaken, _⟩ | ⟨_, _, hfalse⟩
            · exact absurd ⟨rfl, Option.some.inj (hc.symm.trans htaken.head)⟩ hdup
            · exact absurd hfalse (by decide)

end Members

theorem members (hx : Exact b inner) (h : CarriesInner b bound k inner inner')
    (hi : i.rest.length < b + 1) (hc : i.rest.head? = some '\x7b') :
    Carries (bound + 1) k (shiftObject k) (members inner (b + 1) n)
      (Reader.members inner' (bound + 1) n) i := by
  refine .here_bind ?_
  refine skip_bind hc fun l hl => ?_
  have hlen := hl.length_lt (by simp)
  refine blanks.bind fun _ m _ _ => ?_
  have hnil : shiftRead k ([], none) = ([], none) := rfl
  rw [← hnil]
  exact repeatUpTo (shortens_memberRound hx) (fun _ _ hj => memberRound h hj)
    (by omega) (by omega) (Nat.le_succ bound) (Nat.le_refl bound)

/-! ### Values -/

/-- A value is told by its first character. -/
theorem value (hx : Exact b inner) (h : CarriesInner b bound k inner inner')
    (hi : i.rest.length < b + 1) :
    Carries (bound + 1) k (Value.shift k) (value inner (b + 1) n)
      (Reader.value inner' (bound + 1) n) i := by
  refine .nested (.offset_bind (.peek?_bind ?_))
  cases hc : i.rest.head? with
  | none => exact .unexpected (by decide)
  | some c =>
    by_cases hsquare : c = '['
    · subst hsquare
      refine (expressions hx h rfl hi hc).bind fun items _ _ _ => ?_
      exact .spanFrom_bind (.pure rfl)
    by_cases hcurly : c = '\x7b'
    · subst hcurly
      refine (members hx h hi hc).bind fun members _ _ _ => ?_
      exact .spanFrom_bind (.pure rfl)
    · simp only
      exact .ite (fun _ => quoted hc) fun _ => .unexpected (by decide)

/-! ### Brackets, parentheses and arguments -/

theorem enclosed (h : CarriesInner b bound k inner inner') (hi : i.rest.length < b) :
    Carries bound k (Expr.shift k) (enclosed inner n c) (Reader.enclosed inner' n c) i := by
  refine blanks.bind fun _ l _ _ => ?_
  refine (h n l (by omega)).bind fun e _ _ _ => ?_
  refine blanks.bind fun _ _ _ _ => ?_
  refine (expect (by decide)).bind fun _ _ _ _ => ?_
  exact .pure rfl

theorem argumentRound (h : CarriesInner b bound k inner inner') (hi : i.rest.length < b)
    {args : Array Expr} :
    Carries bound k (mapRound (Array.map (Expr.shift k)) (shiftItems k))
      (argumentRound inner n args)
      (Reader.argumentRound inner' n (args.map (Expr.shift k))) i := by
  refine (h n i hi).bind fun arg _ _ _ => ?_
  refine blanks.bind fun _ _ _ _ => ?_
  refine eat.bind fun _ _ _ _ => .ite (fun _ => .pure ?_) fun _ => ?_
  · simp [mapRound, shiftItems_eq_map]
  · refine (expect (by decide)).bind fun _ _ _ _ => ?_
    refine blanks.bind fun _ _ _ _ => ?_
    exact .pure (by simp [mapRound])

theorem arguments (hx : Exact b inner) (h : CarriesInner b bound k inner inner')
    (hi : i.rest.length < b + 1) (hc : i.rest.head? = some '(') :
    Carries (bound + 1) k (shiftItems k) (arguments inner (b + 1) n)
      (Reader.arguments inner' (bound + 1) n) i := by
  refine skip_bind hc fun l hl => ?_
  have hlen := hl.length_lt (by simp)
  refine blanks.bind fun _ _ _ _ => ?_
  refine eat.bind fun _ m _ _ => .ite (fun _ => .pure rfl) fun _ => ?_
  have hrounds : Carries bound k (shiftItems k)
      (Reader.repeatUpTo (b + 1) #[] (Reader.argumentRound inner n))
      (Reader.repeatUpTo (bound + 1) (Array.map (Expr.shift k) #[])
        (Reader.argumentRound inner' n)) m :=
    repeatUpTo (shortens_argumentRound hx) (fun _ _ hj => argumentRound h hj)
      (by omega) (by omega) (Nat.le_succ bound) (Nat.le_refl bound)
  rwa [Array.map_empty] at hrounds

/-! ### Names and what is attached to them -/

/-- It is enough to know the readers where they run, behind a character that is taken, and the
second one on inputs with the same two next characters, when the readers take two characters at
least. -/
theorem skip_bind_of_eq {α β : Type} {f : α → β} {x u : Reader α} {y v : Reader β}
    (hc : i.rest.head? = some c) (hu : ∀ l, i.Takes [c] l → Carries bound k f u v l)
    (hshort : ∀ l a m, i.Takes [c] l → u l = .ok a m → m.rest.length < l.rest.length)
    (hx : x i = (skip >>= fun _ => u) i)
    (hy : ∀ j, j.offset = i.offset + k → i.rest.take 2 = j.rest.take 2 →
      y j = (skip >>= fun _ => v) j) :
    Carries (bound + 1) k f x y i := by
  obtain ⟨l, hl⟩ := Input.exists_takes_head hc
  have hi : i.rest = c :: l.rest := hl.rest
  have hrun : x i = u l := hx.trans (Reader.skip_bind hl _)
  have hmoved : ∀ {text rest rest' : List Char}, l.rest = text ++ rest → text ≠ [] →
      y ⟨i.offset + k, c :: text ++ rest'⟩ = v ⟨l.offset + k, text ++ rest'⟩ := by
    intro text rest rest' hl' hne
    obtain ⟨d, ds, rfl⟩ := List.exists_cons_of_ne_nil hne
    rw [hy _ rfl (by rw [hi, hl']; rfl)]
    exact Reader.skip_bind (takes_moved hl _) _
  constructor
  · intro a m hok
    rw [hrun] at hok
    obtain ⟨text, ht, hsame⟩ := (hu l hl).ok hok
    refine ⟨c :: text, hl.trans ht, fun rest ha hlen => ?_⟩
    have hne : text ≠ [] := by
      intro hnil
      have hlt := hshort l a m hl hok
      rw [hnil, Input.takes_nil] at ht
      rw [ht] at hlt
      exact absurd hlt (Nat.lt_irrefl _)
    rw [hmoved ht.rest hne]
    exact hsame rest ha (by simpa using hlen)
  · intro e m he
    rw [hrun] at he
    obtain ⟨text, rest, ht, hsame, hnot⟩ := (hu l hl).error he
    refine ⟨c :: text, rest, ht.behind hl, fun rest' hr hlen => ?_, fun hs rest' hr hlen => ?_⟩
    · obtain ⟨m', hm', hend⟩ := hsame rest' hr (by simpa using hlen)
      refine ⟨m', ?_, hend⟩
      by_cases hne : text = []
      · -- nothing follows the character, here and there
        obtain rfl := (ht.nil hne).1
        rw [List.head?_nil, eq_comm, List.head?_eq_none_iff] at hr
        subst hne hr
        rw [hy _ rfl (by rw [hi, ht.split]; rfl)]
        exact (Reader.skip_bind (takes_moved hl []) _).trans hm'
      · rw [hmoved ht.split hne]
        exact hm'
    · rw [hmoved ht.split fun hnil => (ht.nil hnil).2 hs]
      exact hnot hs rest' (hr.of_append [c]) (by simpa using hlen)

/-- An expression in brackets takes a character at least. -/
theorem enclosed_shortens (hx : Exact b inner) (hi : i.rest.length < b) (hc : c ∈ delimiters)
    (hq : c ≠ '?') {e : Expr} {l : Input} (h : Reader.enclosed inner n c i = .ok e l) :
    l.rest.length < i.rest.length := by
  obtain ⟨gap, text, gap', ending, ht, -⟩ := (enclosed_iff hx hi hc hq).mp h
  exact ht.length_lt (by simp)

/-- Whether two characters come next depends on nothing behind them. -/
theorem isPrefixOf_of_take {d : Char} {v v' : List Char} (h : v.take 2 = v'.take 2) :
    [c, d].isPrefixOf v = [c, d].isPrefixOf v' := by
  have htwo : ∀ v : List Char, [c, d].isPrefixOf v = [c, d].isPrefixOf (v.take 2) := by
    intro v
    match v with
    | [] => rfl
    | [_] => rfl
    | _ :: _ :: _ => simp [List.isPrefixOf]
  rw [htwo v, h, ← htwo v']

theorem head?_of_take {v v' : List Char} (h : v.take 2 = v'.take 2) : v.head? = v'.head? := by
  match v, v' with
  | [], [] => rfl
  | _ :: _, [] => simp at h
  | [], _ :: _ => simp at h
  | _ :: _, _ :: _ => simp_all

/-- Two characters that come next are taken one by one. -/
theorem take_two_bind {d : Char} {x : Reader α} (h : [c, d].isPrefixOf i.rest = true) :
    (take 2 >>= fun _ => x) i = (skip >>= fun _ => skip >>= fun _ => x) i := by
  obtain ⟨m, hm⟩ := isPrefixOf_eq_true_iff.mp h
  obtain ⟨l, hl, hlm⟩ := Input.takes_cons.mp hm
  rw [Reader.skip_bind hl, Reader.skip_bind hlm]
  exact take_bind hm _

/-- Reads the key that a name selects by, behind the opening bracket. -/
def selected (inner : Nesting → Reader Expr) (n : Nesting) (start : Nat) (selection : Selection)
    (id : Ident) : Reader Expr := do
  let key ← Reader.enclosed inner n ']'
  Pure.pure (.select selection id key (← spanFrom start))

/-- Reads what is attached to a name, behind it. -/
def attached (inner : Nesting → Reader Expr) (bound : Nat) (n : Nesting) (start : Nat) (id : Ident) :
    Reader Expr := do
  if ← looksAt ['[', '.'] then
    take 2
    selected inner n start .attribute id
  else if ← looksAt ['['] then
    skip
    selected inner n start .member id
  else if ← looksAt ['('] then
    let args ← Reader.arguments inner bound n
    Pure.pure (.call id args (← spanFrom start))
  else
    Pure.pure (.ident id)

section Attached

variable {start : Nat} {id : Ident}

theorem carries_selected {selection : Selection} (h : CarriesInner b bound k inner inner')
    (hi : i.rest.length < b) :
    Carries bound k (Expr.shift k) (selected inner n start selection id)
      (selected inner' n (start + k) selection (id.shift k)) i :=
  (enclosed h hi).bind fun _ _ _ _ => .spanFrom_bind (.pure rfl)

/-- Behind the opening bracket a key takes something. -/
theorem selected_shortens {selection : Selection} (hx : Exact b inner) (hi : i.rest.length < b)
    {e : Expr} {l : Input} (h : selected inner n start selection id i = .ok e l) :
    l.rest.length < i.rest.length := by
  obtain ⟨key, m, hm, h⟩ := bind_eq_ok.mp h
  rw [Reader.spanFrom_bind, pure_eq_ok] at h
  rw [← h.2]
  exact enclosed_shortens hx hi (by decide) (by decide) hm

theorem attached_of_dot (h : ['[', '.'].isPrefixOf i.rest = true) :
    attached inner b n start id i =
      (skip >>= fun _ => skip >>= fun _ => selected inner n start .attribute id) i := by
  rw [attached, Reader.looksAt_bind, h]
  exact take_two_bind h

theorem attached_of_square (hc : i.rest.head? = some '[')
    (h : ¬ ['[', '.'].isPrefixOf i.rest = true) :
    attached inner b n start id i = (skip >>= fun _ => selected inner n start .member id) i := by
  rw [attached, Reader.looksAt_bind, if_neg h, Reader.looksAt_bind, isPrefixOf_singleton, hc]
  rfl

/-- By cases on what comes next. A bracket that opens an index is told from one that opens an
attribute by the character behind it, and both readers take that as well. -/
theorem carries_attached (hx : Exact b inner) (h : CarriesInner b bound k inner inner')
    (hi : i.rest.length < b + 1) :
    Carries (bound + 1) k (Expr.shift k) (attached inner (b + 1) n start id)
      (attached inner' (bound + 1) n (start + k) (id.shift k)) i := by
  by_cases hsquare : i.rest.head? = some '['
  · by_cases hdot : ['[', '.'].isPrefixOf i.rest = true
    · have hbehind : ∀ {l}, i.Takes ['['] l → l.rest.head? = some '.' := by
        intro l hl
        obtain ⟨_, hall⟩ := isPrefixOf_eq_true_iff.mp hdot
        obtain ⟨l', hl', htaken⟩ := Input.takes_cons.mp hall
        rw [hl.unique hl']
        exact htaken.head
      refine skip_bind_of_eq hsquare (fun l hl => ?_) (fun l e m hl hok => ?_)
        (attached_of_dot hdot) fun j _ hj => attached_of_dot ((isPrefixOf_of_take hj) ▸ hdot)
      · refine (skip_bind (hbehind hl) fun m hm => ?_).mono (Nat.le_succ bound)
        have hlen := hl.length_lt (by simp)
        have hlen' := hm.length_lt (by simp)
        exact carries_selected h (by omega)
      · obtain ⟨m', hm', hok⟩ := (skip_bind_eq_ok (hbehind hl)).mp hok
        have hlen := hl.length_lt (by simp)
        have hlen' := hm'.length_lt (by simp)
        have hlt := selected_shortens hx (by omega) hok
        omega
    · refine skip_bind_of_eq (v := selected inner' n (start + k) .member (id.shift k)) hsquare
        (fun l hl => ?_) (fun l e m hl hok => ?_) (attached_of_square hsquare hdot) fun j _ hj => ?_
      · have hlen := hl.length_lt (by simp)
        exact carries_selected h (by omega)
      · have hlen := hl.length_lt (by simp)
        exact selected_shortens hx (by omega) hok
      · exact attached_of_square ((head?_of_take hj) ▸ hsquare) ((isPrefixOf_of_take hj) ▸ hdot)
  · refine .looksAt_bind (fun rest hr => ?_) ?_
    · rw [isPrefixOf_of_head?_ne hsquare, isPrefixOf_of_head?_ne (hr ▸ hsquare)]
    rw [isPrefixOf_of_head?_ne hsquare]
    refine .looksAt_bind (fun rest hr => by rw [isPrefixOf_singleton, isPrefixOf_singleton, hr]) ?_
    rw [isPrefixOf_singleton, beq_eq_false_iff_ne.mpr hsquare]
    refine .looksAt_bind (fun rest hr => by rw [isPrefixOf_singleton, isPrefixOf_singleton, hr]) ?_
    refine .ite (fun hp => ?_) fun _ => .pure rfl
    rw [isPrefixOf_singleton, beq_iff_eq] at hp
    refine (arguments hx h hi hp).bind fun _ _ _ _ => ?_
    exact .spanFrom_bind (.pure rfl)

end Attached

theorem named (hx : Exact b inner) (h : CarriesInner b bound k inner inner')
    (hi : i.rest.length < b + 1) :
    Carries (bound + 1) k (Expr.shift k) (named inner (b + 1) n)
      (Reader.named inner' (bound + 1) n) i := by
  refine .offset_bind ?_
  refine ident.bind fun id l _ _ => ?_
  exact carries_attached hx h (by omega)

/-! ### Operands -/

theorem reference {scope : Scope} (hc : i.rest.head? = some c) :
    Carries bound k (Expr.shift k) (reference scope) (Reader.reference scope) i := by
  refine .offset_bind ?_
  refine (skip_bind hc fun l _ => ?_).mono (Nat.le_succ bound)
  refine ident.bind fun id _ _ _ => ?_
  exact .spanFrom_bind (.pure rfl)

/-- An operand is told by its first character. -/
theorem primary (hx : Exact b inner) (h : CarriesInner b bound k inner inner')
    (hi : i.rest.length < b + 1) :
    Carries (bound + 1) k (Expr.shift k) (primary inner (b + 1) n)
      (Reader.primary inner' (bound + 1) n) i := by
  refine .offset_bind (.peek?_bind ?_)
  cases hc : i.rest.head? with
  | none => exact .unexpected (by decide)
  | some c =>
    refine .ite (fun _ => ?_) fun _ => ?_
    · refine skip_bind hc fun l hl => ?_
      have hlen := hl.length_lt (by simp)
      refine (enclosed h (by omega)).bind fun _ _ _ _ => ?_
      exact .spanFrom_bind (.pure rfl)
    refine .ite (fun hd => integer hc hd) fun _ => ?_
    refine .ite (fun _ => ?_) fun _ => ?_
    · exact (value hx h hi).bind fun _ _ _ _ => .pure rfl
    refine .ite (fun _ => named hx h hi) fun _ => ?_
    refine .ite (fun _ => reference hc) fun _ => ?_
    refine .ite (fun _ => reference hc) fun _ => ?_
    refine .ite (fun _ => ?_) fun _ => .unexpected (by decide)
    refine (skip_bind hc fun l _ => ?_).mono (Nat.le_succ _)
    exact .spanFrom_bind (.pure rfl)

/-- By induction on the number of signs: each is a level of its own. -/
theorem unary (hx : Exact b inner) (h : CarriesInner b bound k inner inner') {signs : Nat} :
    ∀ {signs' bound' : Nat} {n : Nesting} {i : Input}, i.rest.length < signs →
      i.rest.length < b + 1 → bound' ≤ signs' → bound' ≤ bound + 1 →
      Carries bound' k (Expr.shift k) (unary inner (b + 1) signs n)
        (Reader.unary inner' (bound + 1) signs' n) i := by
  induction signs with
  | zero =>
    intro _ _ _ i hi
    exact absurd hi (Nat.not_lt_zero _)
  | succ signs ih =>
    intro signs' bound' n i hs hi hb hb'
    have hstep : ∀ signs', bound' - 1 ≤ signs' → Carries (bound' - 1 + 1) k (Expr.shift k)
        (Reader.unary inner (b + 1) (signs + 1) n) (Reader.unary inner' (bound + 1) (signs' + 1) n) i := by
      intro signs' hle
      refine .offset_bind (.peek?_bind ?_)
      cases hop : i.rest.head?.bind UnaryOp.ofChar? with
      | none => exact (primary hx h hi).mono (by omega)
      | some op =>
        obtain ⟨c, hc, _⟩ := Option.bind_eq_some_iff.mp hop
        refine skip_bind hc fun l hl => ?_
        have hlen := hl.length_lt (by simp)
        refine blanks.bind fun _ m _ _ => ?_
        refine (nested (ih (by omega) (by omega) hle (by omega))).bind fun arg _ _ _ => ?_
        refine .pure ?_
        simp only [Expr.shift, Expr.span_shift, Span.shift]
    cases signs' with
    | zero => exact ((hstep 0 (by omega)).mono (by omega)).of_zero (by omega)
    | succ signs' => exact (hstep signs' (by omega)).mono (by omega)

/-! ### Operations -/

section Operations

variable {operand operand' : Reader Expr} {level : List BinaryOp} {left : Expr} {rank : Nat}

theorem operator?_bind (u : Option BinaryOp → Reader α) :
    (operator? level >>= u) i = u (level.find? fun op => op.token.isPrefixOf i.rest) i := by
  show EStateM.bind (operator? level) u i = _
  rw [EStateM.bind, operator?_eq_ok.mpr ⟨rfl, rfl⟩]

/-- An operator has one character or two. -/
theorem token_eq (op : BinaryOp) : (∃ c, op.token = [c]) ∨ ∃ c d, op.token = [c, d] := by
  cases op <;> simp [BinaryOp.token]

/-- An operator that is not told from its first two characters begins with one of its level. -/
theorem exists_single (hlevel : level ∈ BinaryOp.levels) {op : BinaryOp} (hop : op ∈ level)
    (hpair : op ∉ BinaryOp.pairs) :
    ∃ single ∈ level, single.token.length = 1 ∧ single.token.head? = op.token.head? := by
  have hall : ∀ level ∈ BinaryOp.levels, ∀ op ∈ level, op ∉ BinaryOp.pairs →
      ∃ single ∈ level, single.token.length = 1 ∧ single.token.head? = op.token.head? := by
    decide
  exact hall level hlevel op hop hpair

/-- Texts that begin alike both begin with an operator of a level or both do not. -/
theorem find?_eq_none_of_alike (hlevel : level ∈ BinaryOp.levels) {v v' : List Char}
    (ha : Alike v v') (h : level.find? (fun op => op.token.isPrefixOf v) = none) :
    level.find? (fun op => op.token.isPrefixOf v') = none := by
  rw [List.find?_eq_none] at h ⊢
  intro op hop hprefix
  rw [List.isPrefixOf_iff_prefix] at hprefix
  by_cases hpair : op ∈ BinaryOp.pairs
  · exact h op hop (List.isPrefixOf_iff_prefix.mpr ((ha.operator op hpair).mpr hprefix))
  · obtain ⟨single, hsingle, hone, hhead⟩ := exists_single hlevel hop hpair
    obtain ⟨c, hc⟩ := List.length_eq_one_iff.mp hone
    refine h single hsingle ?_
    rw [hc, isPrefixOf_singleton, beq_iff_eq, ha.head]
    obtain ⟨d, ds, hd, -⟩ := op.token_head
    rw [hc, hd, List.head?_cons, List.head?_cons] at hhead
    obtain ⟨rest, rfl⟩ := hprefix
    rw [hd, hhead]
    rfl

/-- Which operator comes next depends on the next two characters. -/
theorem find?_of_take {v v' : List Char} (h : v.take 2 = v'.take 2) :
    level.find? (fun op => op.token.isPrefixOf v) = level.find? fun op => op.token.isPrefixOf v' := by
  congr 1
  funext op
  rcases token_eq op with ⟨c, hc⟩ | ⟨c, d, hc⟩
  · rw [hc, isPrefixOf_singleton, isPrefixOf_singleton, head?_of_take h]
  · rw [hc, isPrefixOf_of_take h]

/-- An operand takes a character at least. -/
theorem operand_shortens (hx : ExactOperation b rank n operand) (hi : i.rest.length < b) {e : Expr}
    {l : Input} {front : List Char} (ht : i.Takes front l) (h : operand i = .ok e l) :
    l.rest.length < i.rest.length := by
  obtain ⟨gap, m, hm⟩ := exists_skips l
  obtain ⟨text, gap', ending, hspells, hleaves⟩ := (hx.iff i e m hi).mp ⟨l, gap, h, hm⟩
  refine ht.length_lt fun hfront => ?_
  -- otherwise the blanks behind the operand would begin with its first character
  rw [hfront, Input.takes_nil] at ht
  have hblank := hm.takes.rest
  rw [ht, hleaves.takes.rest] at hblank
  have hgap := List.append_cancel_right hblank
  obtain ⟨c, cs, rfl⟩ := List.exists_cons_of_ne_nil hspells.starts.ne_nil
  have hc := hm.blank c (by rw [← hgap]; simp)
  rw [nextNot_cons.mp hspells.starts.nextNot_isBlank] at hc
  exact absurd hc (by decide)

/-- Reads what stands behind an infix operator. -/
def joined (operand : Reader Expr) (op : BinaryOp) (left : Expr) : Reader (Round Expr Expr) := do
  Reader.blanks
  let right ← operand
  Pure.pure (.again (.join op left right))

theorem operationRound_of_some {op : BinaryOp}
    (hop : level.find? (fun op => op.token.isPrefixOf i.rest) = some op) :
    (operator? level >>= fun op? => match op? with
      | none => Pure.pure (.done left)
      | some op => take op.token.length >>= fun _ => joined operand op left) i =
      (take op.token.length >>= fun _ => joined operand op left) i := by
  rw [operator?_bind, hop]

/-- The operand behind an operator, joined with what stands to its left. -/
theorem carries_joined {op : BinaryOp}
    (h : ∀ j : Input, j.rest.length < b → Carries bound k (Expr.shift k) operand operand' j)
    (hi : i.rest.length < b) :
    Carries bound k (mapRound (Expr.shift k) (Expr.shift k)) (joined operand op left)
      (joined operand' op (left.shift k)) i := by
  refine blanks.bind fun _ m _ _ => ?_
  refine (h m (by omega)).bind fun right _ _ _ => ?_
  exact .pure (by rw [mapRound, Expr.shift_join])

theorem joined_shortens (hx : ExactOperation b rank n operand) {op : BinaryOp}
    (h : ∀ j : Input, j.rest.length < b → Carries bound k (Expr.shift k) operand operand' j)
    (hi : i.rest.length < b) {r : Round Expr Expr} {l : Input} (hr : joined operand op left i = .ok r l) :
    l.rest.length < i.rest.length := by
  obtain ⟨gap, m, hm, hr⟩ := blanks_bind_eq_ok.mp hr
  obtain ⟨right, l', hright, hr⟩ := bind_eq_ok.mp hr
  have hlen := hm.takes.length
  obtain ⟨text, ht, -⟩ := (h m (by omega)).ok hright
  have hlt := operand_shortens hx (by omega) ht hright
  rw [← (pure_eq_ok.mp hr).2]
  omega

/-- By cases on the operator that comes next. One of one character is told from a longer one by the
character behind it, which what follows the operator takes as well. -/
theorem operationRound (hx : ExactOperation b rank n operand)
    (h : ∀ j : Input, j.rest.length < b → Carries bound k (Expr.shift k) operand operand' j)
    (hlevel : level ∈ BinaryOp.levels) (hi : i.rest.length < b) :
    Carries bound k (mapRound (Expr.shift k) (Expr.shift k)) (operationRound level operand left)
      (Reader.operationRound level operand' (left.shift k)) i := by
  refine blanks.bind fun _ l _ _ => ?_
  cases hop : level.find? (fun op => op.token.isPrefixOf l.rest) with
  | none =>
    refine of_result (a := .done left) (l := l) ?_ (.refl l) fun rest ha => ?_
    · rw [operator?_bind, hop]
      rfl
    · rw [operator?_bind, List.nil_append, find?_eq_none_of_alike hlevel ha hop]
      rfl
  | some op =>
    have hprefix : op.token.isPrefixOf l.rest = true := by simpa using List.find?_some hop
    have hfind : ∀ {j : Input}, l.rest.take 2 = j.rest.take 2 →
        level.find? (fun op => op.token.isPrefixOf j.rest) = some op :=
      fun hj => (find?_of_take hj) ▸ hop
    rcases token_eq op with ⟨c, hc⟩ | ⟨c, d, hcd⟩
    · have hhead : l.rest.head? = some c := by
        rwa [hc, isPrefixOf_singleton, beq_iff_eq] at hprefix
      have hone : ∀ {operand : Reader Expr} {left : Expr} {j : Input},
          (take op.token.length >>= fun _ => joined operand op left) j =
            (skip >>= fun _ => joined operand op left) j := by
        rw [hc]
        intros
        rfl
      refine (skip_bind_of_eq hhead (fun m hm => ?_) (fun m r m' hm hok => ?_)
        ((operationRound_of_some hop).trans hone)
        fun j _ hj => (operationRound_of_some (hfind hj)).trans hone).mono (Nat.le_succ bound)
      · have hlen := hm.length
        exact carries_joined h (by omega)
      · have hlen := hm.length
        exact joined_shortens hx h (by omega) hok
    · rw [hcd] at hprefix
      obtain ⟨_, hall⟩ := isPrefixOf_eq_true_iff.mp hprefix
      obtain ⟨l', hl', hd⟩ := Input.takes_cons.mp hall
      have htwo : ∀ {operand : Reader Expr} {left : Expr} {j : Input},
          l.rest.take 2 = j.rest.take 2 →
          (take op.token.length >>= fun _ => joined operand op left) j =
            (skip >>= fun _ => skip >>= fun _ => joined operand op left) j := by
        rw [hcd]
        intro operand left j hj
        exact take_two_bind ((isPrefixOf_of_take hj) ▸ hprefix)
      refine (skip_bind_of_eq hl'.head (fun m hm => ?_) (fun m r m' hm hok => ?_)
        ((operationRound_of_some hop).trans (htwo rfl))
        fun j _ hj => (operationRound_of_some (hfind hj)).trans (htwo hj)).mono (Nat.le_succ bound)
      · obtain rfl := hl'.unique hm
        refine (skip_bind hd.head fun m hm' => ?_).mono (Nat.le_succ bound)
        have hlen := hm.length
        have hlen' := hm'.length
        exact carries_joined h (by omega)
      · obtain rfl := hl'.unique hm
        obtain ⟨m'', hm'', hok⟩ := (skip_bind_eq_ok hd.head).mp hok
        have hlen := hm.length
        have hlen' := hm''.length_lt (by simp)
        have hlt := joined_shortens hx h (by omega) hok
        omega

end Operations

/-- By induction on the levels, the tightest first. -/
theorem operations (hx : Exact b inner) (h : CarriesInner b bound k inner inner')
    {levels : List (List BinaryOp)} :
    ∀ {rank : Nat} {i : Input}, Ranked rank levels → 1 ≤ rank → i.rest.length < b + 1 →
      Carries (bound + 1) k (Expr.shift k) (operations inner (b + 1) n levels)
        (Reader.operations inner' (bound + 1) n levels) i := by
  induction levels with
  | nil =>
    intro rank i _ _ hi
    exact unary hx h hi hi (Nat.le_refl _) (Nat.le_refl _)
  | cons level tighter ih =>
    intro rank i hr hpos hi
    obtain ⟨hlevels, _, hr⟩ := hr
    have hexact := exactOperation_operations (n := n) hx hr (by omega)
    refine (ih hr (by omega) hi).bind fun first l _ _ => ?_
    exact repeatUpTo (shortens_operationRound hexact)
      (fun left j hj => operationRound hexact (fun m hm => ih hr (by omega) hm) hlevels hj)
      (by omega) (by omega) (Nat.le_refl _) (Nat.le_refl _)

theorem conditional (hx : Exact b inner) (h : CarriesInner b bound k inner inner')
    (hi : i.rest.length < b + 1) :
    Carries (bound + 1) k (Expr.shift k) (conditional inner (b + 1) n)
      (Reader.conditional inner' (bound + 1) n) i := by
  refine (operations hx h ranked_levels (Nat.le_refl 1) hi).bind fun test _ _ _ => ?_
  refine blanks.bind fun _ l _ _ => ?_
  refine eat_bind (fun m hm => ?_) fun _ => .pure rfl
  have hlen := hm.length_lt (by simp)
  refine blanks.bind fun _ m₁ _ _ => ?_
  refine (h n m₁ (by omega)).bind fun consequent _ _ _ => ?_
  refine blanks.bind fun _ _ _ _ => ?_
  refine (expect (by decide)).bind fun _ _ _ _ => ?_
  refine blanks.bind fun _ m₂ _ _ => ?_
  refine (h n m₂ (by omega)).bind fun alternate _ _ _ => ?_
  exact .pure (Expr.shift_choice ..).symm

/-- By induction on the bound: an expression reads those inside it with a smaller one. -/
theorem expression : ∀ {bound : Nat},
    CarriesInner b bound k (expression b) (Reader.expression bound) := by
  induction b with
  | zero =>
    intro bound n i hi
    exact absurd hi (Nat.not_lt_zero _)
  | succ b ih =>
    intro bound n i hi
    have hstep : ∀ bound, Carries (bound + 1) k (Expr.shift k) (Reader.expression (b + 1) n)
        (Reader.expression (bound + 1) n) i :=
      fun bound => .nested (conditional (exact_expression b) ih hi)
    cases bound with
    | zero => exact ((hstep 0).mono (Nat.zero_le 1)).of_zero rfl
    | succ bound => exact hstep bound

end Carries

end Reader

end LocaleText
