import LocaleText.Reading.Entry

/-!
# Steps of readers

What a reader that succeeds has done, one rule for each basic reader. A rule says exactly when the
reader yields a result and what is left then, so that it serves in both directions: to take apart a
run that succeeded, and to make one.

* `Input.Takes` relates an input, a text at its front, and what is left behind the text
* `Input.Skips` does so for the longest run of blanks
* `NextNot` says that the next character is not of a class, so that a run of the class has ended
* `Reader.bind_eq_ok` takes apart a sequence, `Reader.eat_bind_eq_ok` a choice on one character
* `Reader.bind_eq_error` and `Reader.within_eq_error` are the rules for a part that fails
* `Reader.Rounds` is a run of a repetition without a bound on its rounds, `Reader.Passes` a part of
  one, and `Reader.Rounds.repeatUpTo` leads back to the repetition with a bound
-/

namespace LocaleText

/-- The next character, if there is one, lies outside of a class. -/
def NextNot (p : Char → Bool) (rest : List Char) : Prop := ∀ c ∈ rest.head?, p c = false

/-- A run of blanks, maybe of none. -/
def Blanks (text : List Char) : Prop := ∀ c ∈ text, isBlank c = true

instance (text : List Char) : Decidable (Blanks text) :=
  decidable_of_iff (text.all isBlank = true) List.all_eq_true

theorem blanks_nil : Blanks [] := by simp [Blanks]

theorem blanks_space : Blanks [' '] := by decide

def extent (start : Nat) (text : List Char) : Span := ⟨start, start + byteLength text⟩

/-- What is decided for the characters of a list one by one. -/
theorem forall_mem_of_all {p : Char → Prop} [DecidablePred p] {cs : List Char}
    (h : cs.all (fun c => decide (p c)) = true) : ∀ c ∈ cs, p c := by
  intro c hc
  exact of_decide_eq_true (List.all_eq_true.mp h c hc)

/-- A class of characters tells those in it from the others. -/
theorem ne_of_class {p : Char → Bool} {c d : Char} (hc : p c = true) (hd : p d = false) : c ≠ d := by
  rintro rfl
  exact absurd (hc.symm.trans hd) (by decide)

theorem nextNot_nil (p : Char → Bool) : NextNot p [] := by
  intro c hc
  simp at hc

theorem nextNot_cons {p : Char → Bool} {c : Char} {rest : List Char} :
    NextNot p (c :: rest) ↔ p c = false := by
  simp [NextNot]

theorem nextNot_of_head? {p : Char → Bool} {c : Char} {rest : List Char}
    (h : rest.head? = some c) (hc : p c = false) : NextNot p rest := by
  intro d hd
  rw [h] at hd
  rw [← Option.some.inj hd, hc]

/-- What is behind a text does not matter for the character that it begins with. -/
theorem nextNot_of_append {p : Char → Bool} {s t : List Char} (h : NextNot p (s ++ t)) :
    NextNot p s := by
  cases s with
  | nil => exact nextNot_nil p
  | cons c cs => exact h

theorem isPrefixOf_singleton (c : Char) (v : List Char) :
    [c].isPrefixOf v = (v.head? == some c) := by
  cases v with
  | nil => rfl
  | cons d ds => simp [List.isPrefixOf, BEq.comm]

theorem isPrefixOf_of_head?_ne {c : Char} {token v : List Char} (h : v.head? ≠ some c) :
    (c :: token).isPrefixOf v = false := by
  cases v with
  | nil => rfl
  | cons d ds =>
    have hd : c ≠ d := fun hd => h (by rw [hd]; rfl)
    simp [List.isPrefixOf, hd]

theorem isPrefixOf_pair_of_head?_ne {c d : Char} {v : List Char} (h : v.head? ≠ some d) :
    [c, d].isPrefixOf (c :: v) = false := by
  rw [List.isPrefixOf_cons_cons, isPrefixOf_of_head?_ne h, Bool.and_false]

namespace Input

/-- Once `text` is taken from `input`, `left` is left. -/
structure Takes (input : Input) (text : List Char) (left : Input) : Prop where
  rest : input.rest = text ++ left.rest
  offset : left.offset = input.offset + byteLength text

/-- Once the blanks that come next are taken from `input`, `left` is left. -/
structure Skips (input : Input) (gap : List Char) (left : Input) : Prop where
  takes : input.Takes gap left
  blank : Blanks gap
  stop : NextNot isBlank left.rest

variable {i m l : Input} {s t : List Char} {c : Char}

theorem Takes.refl (i : Input) : i.Takes [] i := ⟨rfl, rfl⟩

theorem takes_nil : i.Takes [] l ↔ l = i := by
  constructor
  · intro h
    obtain ⟨hr, ho⟩ := h
    cases i
    cases l
    simp_all
  · intro h
    rw [h]
    exact Takes.refl i

/-- One text behind another. -/
theorem Takes.trans (h : i.Takes s m) (h' : m.Takes t l) : i.Takes (s ++ t) l := by
  refine ⟨?_, ?_⟩
  · rw [h.rest, h'.rest, List.append_assoc]
  · rw [h'.offset, h.offset, byteLength_append, Nat.add_assoc]

/-- What is left behind a text that stands at the front. -/
theorem takes_after (h : i.rest = t ++ s) : i.Takes t (i.after t s) := ⟨h, rfl⟩

/-- A text is taken in two parts. -/
theorem takes_append : i.Takes (s ++ t) l ↔ ∃ m, i.Takes s m ∧ m.Takes t l := by
  constructor
  · intro h
    refine ⟨i.after s (t ++ l.rest), takes_after (by rw [h.rest, List.append_assoc]), rfl, ?_⟩
    rw [h.offset, byteLength_append, ← Nat.add_assoc]
    rfl
  · intro h
    obtain ⟨m, h, h'⟩ := h
    exact h.trans h'

theorem takes_cons : i.Takes (c :: t) l ↔ ∃ m, i.Takes [c] m ∧ m.Takes t l :=
  takes_append (s := [c])

theorem Takes.head (h : i.Takes (c :: t) l) : i.rest.head? = some c := by
  rw [h.rest]
  rfl

theorem Takes.length (h : i.Takes t l) : i.rest.length = t.length + l.rest.length := by
  rw [h.rest, List.length_append]

theorem Takes.length_lt (h : i.Takes t l) (ht : t ≠ []) : l.rest.length < i.rest.length := by
  have hpos := List.length_pos_iff.mpr ht
  have hlen := h.length
  omega

/-- What is left is determined by what is taken. -/
theorem Takes.unique {l' : Input} (h : i.Takes t l) (h' : i.Takes t l') : l = l' := by
  have hr : l.rest = l'.rest := List.append_cancel_left (h.rest.symm.trans h'.rest)
  have ho : l.offset = l'.offset := h.offset.trans h'.offset.symm
  cases l
  cases l'
  simp_all

/-- The span from an input up to what is left is the extent of the text taken. -/
theorem Takes.span (h : i.Takes t l) : (⟨i.offset, l.offset⟩ : Span) = extent i.offset t := by
  rw [extent, h.offset]

theorem exists_takes_head (h : i.rest.head? = some c) : ∃ m, i.Takes [c] m := by
  cases hr : i.rest with
  | nil => simp [hr] at h
  | cons d ds =>
    have hd : d = c := by simpa [hr] using h
    exact ⟨i.after [c] ds, takes_after (by rw [hr, hd]; rfl)⟩

end Input

namespace Reader

variable {α β σ : Type} {i m l : Input} {c : Char}

/-! ### Sequences -/

theorem ok_inj {a b : α} : (.ok a i : EStateM.Result Fault Input α) = .ok b l ↔ a = b ∧ i = l := by
  simp

/-- A sequence succeeds when both parts do, one behind the other. -/
theorem bind_eq_ok {x : Reader α} {f : α → Reader β} {b : β} :
    (x >>= f) i = .ok b l ↔ ∃ a m, x i = .ok a m ∧ f a m = .ok b l := by
  show EStateM.bind x f i = .ok b l ↔ _
  rw [EStateM.bind]
  cases hx : x i with
  | ok a m =>
    constructor
    · intro h
      exact ⟨a, m, rfl, h⟩
    · intro h
      obtain ⟨_, _, hm, h⟩ := h
      cases hm
      exact h
  | error e m => simp

/-- Behind a part that has succeeded, the rest decides. -/
theorem bind_of_eq_ok {x : Reader α} {f : α → Reader β} {a : α} (h : x i = .ok a m) :
    (x >>= f) i = f a m := by
  show EStateM.bind x f i = _
  rw [EStateM.bind, h]

theorem unit_bind_eq_ok {x : Reader Unit} {k : Unit → Reader β} {b : β} :
    (x >>= k) i = .ok b l ↔ ∃ m, x i = .ok () m ∧ k () m = .ok b l := by
  rw [bind_eq_ok]
  constructor
  · intro h
    obtain ⟨⟨⟩, m, hx, hk⟩ := h
    exact ⟨m, hx, hk⟩
  · intro h
    obtain ⟨m, hx, hk⟩ := h
    exact ⟨(), m, hx, hk⟩

theorem pure_eq_ok {a b : α} : (pure a : Reader α) i = .ok b l ↔ a = b ∧ i = l := by
  show (EStateM.Result.ok a i : EStateM.Result Fault Input α) = .ok b l ↔ _
  simp

theorem map_eq_ok {x : Reader α} {f : α → β} {b : β} :
    (f <$> x) i = .ok b l ↔ ∃ a, x i = .ok a l ∧ f a = b := by
  show EStateM.map f x i = .ok b l ↔ _
  rw [EStateM.map]
  cases hx : x i with
  | ok a m =>
    simp only [EStateM.Result.ok.injEq]
    constructor
    · intro h
      obtain ⟨hb, rfl⟩ := h
      exact ⟨a, ⟨rfl, rfl⟩, hb⟩
    · intro h
      obtain ⟨_, ⟨rfl, rfl⟩, hb⟩ := h
      exact ⟨hb, rfl⟩
  | error e m => simp

theorem ite_eq_ok {p : Prop} [Decidable p] {x y : Reader α} {a : α} :
    (if p then x else y) i = .ok a l ↔ (p ∧ x i = .ok a l) ∨ (¬ p ∧ y i = .ok a l) := by
  by_cases hp : p
  · simp [hp]
  · simp [hp]

theorem discard_eq_ok {x : Reader α} : discard x i = .ok () l ↔ ∃ a, x i = .ok a l := by
  show (Function.const α PUnit.unit <$> x) i = .ok () l ↔ _
  rw [map_eq_ok]
  constructor
  · intro h
    obtain ⟨a, hx, _⟩ := h
    exact ⟨a, hx⟩
  · intro h
    obtain ⟨a, hx⟩ := h
    exact ⟨a, hx, rfl⟩

/-! ### Looking -/

section Looking

variable (f : Option Char → Reader β) (g : Nat → Reader β) (s : Span → Reader β)

theorem peek?_bind : (peek? >>= f) i = f i.rest.head? i := rfl

theorem offset_bind : (offset >>= g) i = g i.offset i := rfl

theorem left_bind : (left >>= g) i = g i.rest.length i := rfl

theorem here_bind : (here >>= s) i = s i.here i := rfl

theorem spanFrom_bind (start : Nat) : (spanFrom start >>= s) i = s ⟨start, i.offset⟩ i := rfl

theorem looksAt_bind (token : List Char) (k : Bool → Reader β) :
    (looksAt token >>= k) i = k (token.isPrefixOf i.rest) i := rfl

end Looking

/-- What is made of a result and of the span that ends behind it. -/
theorem spanned_eq_ok {x : Reader α} {f : α → Span → β} {start : Nat} {b : β} :
    (do
      let a ← x
      pure (f a (← spanFrom start)) : Reader β) i = .ok b l ↔
      ∃ a, x i = .ok a l ∧ b = f a ⟨start, l.offset⟩ := by
  simp only [bind_eq_ok (x := x), spanFrom_bind, pure_eq_ok]
  constructor
  · intro h
    obtain ⟨a, m, ha, rfl, rfl⟩ := h
    exact ⟨a, ha, rfl⟩
  · intro h
    obtain ⟨a, ha, rfl⟩ := h
    exact ⟨a, l, ha, rfl, rfl⟩

/-- A token comes next exactly when it can be taken. -/
theorem isPrefixOf_eq_true_iff {token : List Char} :
    token.isPrefixOf i.rest = true ↔ ∃ m, i.Takes token m := by
  rw [List.isPrefixOf_iff_prefix]
  constructor
  · intro h
    obtain ⟨rest, h⟩ := h
    exact ⟨i.after token rest, Input.takes_after h.symm⟩
  · intro h
    obtain ⟨m, h⟩ := h
    exact ⟨m.rest, h.rest.symm⟩

/-! ### Taking -/

theorem take_eq_ok {token : List Char} (h : i.Takes token m) : take token.length i = .ok () m := by
  have hm : i.after (i.rest.take token.length) (i.rest.drop token.length) = m := by
    rw [h.rest, List.take_left, List.drop_left]
    exact (Input.takes_after h.rest).unique h
  rw [take, hm]

theorem take_bind {token : List Char} (h : i.Takes token m) (k : Unit → Reader β) :
    (take token.length >>= k) i = k () m := by
  show EStateM.bind (take token.length) k i = k () m
  rw [EStateM.bind, take_eq_ok h]

theorem skip_eq_ok (h : i.Takes [c] m) : skip i = .ok () m := take_eq_ok h

theorem skip_bind (h : i.Takes [c] m) (k : Unit → Reader β) : (skip >>= k) i = k () m :=
  take_bind h k

theorem skip_bind_eq_ok {k : Unit → Reader α} {a : α} (hc : i.rest.head? = some c) :
    (skip >>= k) i = .ok a l ↔ ∃ m, i.Takes [c] m ∧ k () m = .ok a l := by
  obtain ⟨m, hm⟩ := Input.exists_takes_head hc
  rw [skip_bind hm]
  constructor
  · intro h
    exact ⟨m, hm, h⟩
  · intro h
    obtain ⟨m', hm', h⟩ := h
    rw [hm.unique hm']
    exact h

/-- The longest run of a class: what follows is not of the class. -/
theorem takeWhile_eq_ok {p : Char → Bool} {t : List Char} :
    takeWhile p i = .ok t l ↔ i.Takes t l ∧ (∀ c ∈ t, p c = true) ∧ NextNot p l.rest := by
  constructor
  · intro h
    simp only [takeWhile, EStateM.Result.ok.injEq] at h
    obtain ⟨rfl, rfl⟩ := h
    refine ⟨Input.takes_after List.takeWhile_append_dropWhile.symm,
      List.all_eq_true.mp List.all_takeWhile, ?_⟩
    intro c hc
    have hd := List.head?_dropWhile_not p i.rest
    rw [show (i.rest.dropWhile p).head? = some c from hc] at hd
    simpa using hd
  · intro h
    obtain ⟨ht, hp, hn⟩ := h
    have hstop : l.rest.takeWhile p = [] ∧ l.rest.dropWhile p = l.rest := by
      cases hl : l.rest with
      | nil => simp
      | cons d ds =>
        rw [hl, nextNot_cons] at hn
        simp [hn]
    have htake : i.rest.takeWhile p = t := by
      rw [ht.rest, List.takeWhile_append_of_pos hp, hstop.1, List.append_nil]
    have hdrop : i.rest.dropWhile p = l.rest := by
      rw [ht.rest, List.dropWhile_append_of_pos hp, hstop.2]
    simp only [takeWhile, htake, hdrop]
    rw [(Input.takes_after ht.rest).unique ht]

theorem exists_takeWhile_eq_ok (p : Char → Bool) (i : Input) :
    ∃ text l, takeWhile p i = .ok text l := ⟨_, _, rfl⟩

/-- A choice on whether `c` comes next, in which case it is taken. -/
theorem eat_bind_eq_ok {k : Bool → Reader α} {a : α} :
    (eat c >>= k) i = .ok a l ↔
      (∃ m, i.Takes [c] m ∧ k true m = .ok a l) ∨
        (i.rest.head? ≠ some c ∧ k false i = .ok a l) := by
  have heat : eat c i = if i.rest.head? = some c then (skip >>= fun _ => pure true) i
      else (pure false : Reader Bool) i := by
    rw [eat, peek?_bind]
    split <;> rfl
  by_cases hc : i.rest.head? = some c
  · obtain ⟨m, hm⟩ := Input.exists_takes_head hc
    have hrun : (eat c >>= k) i = k true m := by
      show EStateM.bind (eat c) k i = k true m
      rw [EStateM.bind, heat, if_pos hc, skip_bind hm]
      rfl
    rw [hrun]
    constructor
    · intro h
      exact .inl ⟨m, hm, h⟩
    · intro h
      rcases h with ⟨m', hm', h⟩ | ⟨hne, _⟩
      · rw [hm.unique hm']
        exact h
      · exact absurd hc hne
  · have hrun : (eat c >>= k) i = k false i := by
      show EStateM.bind (eat c) k i = k false i
      rw [EStateM.bind, heat, if_neg hc]
      rfl
    rw [hrun]
    constructor
    · intro h
      exact .inr ⟨hc, h⟩
    · intro h
      rcases h with ⟨m', hm', _⟩ | ⟨_, h⟩
      · exact absurd hm'.head hc
      · exact h

theorem eat_eq_ok {b : Bool} :
    eat c i = .ok b l ↔ (i.Takes [c] l ∧ b = true) ∨ (i.rest.head? ≠ some c ∧ l = i ∧ b = false) := by
  have h := eat_bind_eq_ok (i := i) (l := l) (c := c) (k := pure) (a := b)
  rw [bind_pure] at h
  rw [h]
  simp only [pure_eq_ok]
  constructor
  · intro h
    rcases h with ⟨m, hm, rfl, rfl⟩ | ⟨hne, rfl, rfl⟩
    · exact .inl ⟨hm, rfl⟩
    · exact .inr ⟨hne, rfl, rfl⟩
  · intro h
    rcases h with ⟨hm, rfl⟩ | ⟨hne, rfl, rfl⟩
    · exact .inl ⟨l, hm, rfl, rfl⟩
    · exact .inr ⟨hne, rfl, rfl⟩

/-- All blanks that come next are taken. -/
theorem blanks_eq_ok : blanks i = .ok () l ↔ ∃ gap, i.Skips gap l := by
  simp only [blanks, bind_eq_ok, takeWhile_eq_ok, pure_eq_ok]
  constructor
  · intro h
    obtain ⟨gap, _, ⟨ht, hb, hs⟩, _, rfl⟩ := h
    exact ⟨gap, ht, hb, hs⟩
  · intro h
    obtain ⟨gap, ht, hb, hs⟩ := h
    exact ⟨gap, l, ⟨ht, hb, hs⟩, trivial, rfl⟩

theorem blanks_bind_eq_ok {k : Unit → Reader α} {a : α} :
    (blanks >>= k) i = .ok a l ↔ ∃ gap m, i.Skips gap m ∧ k () m = .ok a l := by
  simp only [unit_bind_eq_ok, blanks_eq_ok]
  constructor
  · intro h
    obtain ⟨m, ⟨gap, hm⟩, h⟩ := h
    exact ⟨gap, m, hm, h⟩
  · intro h
    obtain ⟨gap, m, hm, h⟩ := h
    exact ⟨m, ⟨gap, hm⟩, h⟩

/-- A character and the blanks behind it. -/
theorem skip_blanks_bind_eq_ok {k : Unit → Reader α} {a : α} (hc : i.rest.head? = some c) :
    (skip >>= fun _ => blanks >>= k) i = .ok a l ↔
      ∃ m gap m', i.Takes [c] m ∧ m.Skips gap m' ∧ k () m' = .ok a l := by
  simp only [skip_bind_eq_ok hc, blanks_bind_eq_ok]
  constructor
  · intro h
    obtain ⟨m, hm, gap, m', hg, h⟩ := h
    exact ⟨m, gap, m', hm, hg, h⟩
  · intro h
    obtain ⟨m, gap, m', hm, hg, h⟩ := h
    exact ⟨m, hm, gap, m', hg, h⟩

theorem gap_eq_ok {g : Gap} :
    gap i = .ok g l ↔ ∃ text, i.Skips text l ∧ g = ⟨String.ofList text, extent i.offset text⟩ := by
  simp only [gap, offset_bind, bind_eq_ok, takeWhile_eq_ok, spanFrom_bind, pure_eq_ok]
  constructor
  · intro h
    obtain ⟨text, m, ⟨ht, hb, hs⟩, rfl, rfl⟩ := h
    exact ⟨text, ⟨ht, hb, hs⟩, by rw [ht.span]⟩
  · intro h
    obtain ⟨text, hm, rfl⟩ := h
    exact ⟨text, l, ⟨hm.takes, hm.blank, hm.stop⟩, by rw [hm.takes.span], rfl⟩

/-! ### Faults -/

theorem fail_ne_ok {kind : FaultKind} {span : Span} {detail : Option Detail}
    {note : Option (Note × Span)} {a : α} : fail kind span detail note i ≠ .ok a l := by
  simp [fail]

theorem unexpected_ne_ok {kind : FaultKind} {a : α} : unexpected kind i ≠ .ok a l := by
  rw [unexpected]
  split <;> simp

theorem unterminated_ne_ok {composite : Composite} {opener : Span} {a : α} :
    unterminated composite opener i ≠ .ok a l := by
  rw [unterminated, here_bind]
  exact fail_ne_ok

/-- The character that is expected is there. -/
theorem expect_eq_ok {kind : FaultKind} : expect c kind i = .ok () l ↔ i.Takes [c] l := by
  rw [expect, eat_bind_eq_ok]
  constructor
  · intro h
    rcases h with ⟨m, hm, h⟩ | ⟨_, h⟩
    · rw [if_pos rfl, pure_eq_ok] at h
      rw [← h.2]
      exact hm
    · rw [if_neg (by simp), peek?_bind] at h
      cases hd : i.rest.head? with
      | none =>
        rw [hd] at h
        exact absurd h fail_ne_ok
      | some d =>
        rw [hd] at h
        exact absurd h fail_ne_ok
  · intro h
    exact .inl ⟨l, h, by rw [if_pos rfl, pure_eq_ok]; exact ⟨rfl, rfl⟩⟩

theorem expect_bind_eq_ok {kind : FaultKind} {k : Unit → Reader α} {a : α} :
    (expect c kind >>= k) i = .ok a l ↔ ∃ m, i.Takes [c] m ∧ k () m = .ok a l := by
  simp only [unit_bind_eq_ok, expect_eq_ok]

/-- A composite changes nothing about a part that is read. -/
theorem within_eq_ok {composite : Composite} {opener : Span} {part : Reader α} {a : α} :
    within composite opener part i = .ok a l ↔ part i = .ok a l := by
  rw [within]
  split
  · rename_i h
    simp [h]
  · rename_i h
    split
    · simp [h, unterminated_ne_ok]
    · simp [h]

/-- A fault of a sequence is one of its first part, or of what comes behind a first part that succeeds. -/
theorem bind_eq_error {x : Reader α} {f : α → Reader β} {e : Fault} :
    (x >>= f) i = .error e l ↔
      x i = .error e l ∨ ∃ a m, x i = .ok a m ∧ f a m = .error e l := by
  show EStateM.bind x f i = .error e l ↔ _
  rw [EStateM.bind]
  cases hx : x i with
  | ok a m =>
    constructor
    · intro h
      exact .inr ⟨a, m, rfl, h⟩
    · intro h
      rcases h with h | ⟨_, _, hm, h⟩
      · exact absurd h (by simp)
      · cases hm
        exact h
  | error e' m => simp

theorem map_eq_error {x : Reader α} {f : α → β} {e : Fault} (h : x i = .error e l) :
    (f <$> x) i = .error e l := by
  show EStateM.map f x i = _
  rw [EStateM.map, h]

/-- At the end of the source the composite is to blame instead of its part. -/
theorem within_eq_error_of_endOfInput {composite : Composite} {opener : Span} {part : Reader α}
    {e : Fault} (h : part i = .error e m) (hk : e.kind = .endOfInput) (hm : m.rest = []) :
    within composite opener part i = .error ⟨.unterminatedComposite, .empty m.offset,
      some (.expected composite.closer), some (.opened composite, opener)⟩ m := by
  simp only [within, h, hk, if_true, unterminated, here_bind, Input.here, hm]
  rfl

/-- Only the end of the source is blamed on a composite. -/
theorem within_eq_error {composite : Composite} {opener : Span} {part : Reader α} {e : Fault}
    (h : part i = .error e m) (hk : e.kind ≠ .endOfInput) :
    within composite opener part i = .error e m := by
  simp only [within, h, hk, if_false]

/-! ### Nesting and repetition -/

/-- There must be room for one more level. -/
theorem nested_eq_ok {nesting : Nesting} {inner : Nesting → Reader α} {a : α} :
    nested nesting inner i = .ok a l ↔
      nesting.exhausted? = none ∧ inner nesting.deeper i = .ok a l := by
  rw [nested]
  cases hn : nesting.exhausted? with
  | some limit =>
    constructor
    · intro h
      exact absurd h fail_ne_ok
    · intro h
      obtain ⟨h, _⟩ := h
      exact absurd h (by simp)
  | none => simp

/-- A run of a repetition from a state and an input up to a result and what is left. -/
inductive Rounds (round : σ → Reader (Round σ α)) : σ → Input → α → Input → Prop
  | done {s : σ} {i : Input} {a : α} {l : Input} :
      round s i = .ok (.done a) l → Rounds round s i a l
  | again {s s' : σ} {i m : Input} {a : α} {l : Input} :
      round s i = .ok (.again s') m → Rounds round s' m a l → Rounds round s i a l

/-- A repetition that comes to a result has done so in rounds. -/
theorem Rounds.of_repeatUpTo {round : σ → Reader (Round σ α)} {bound : Nat} {s : σ} {a : α}
    (h : repeatUpTo bound s round i = .ok a l) : Rounds round s i a l := by
  induction bound generalizing s i with
  | zero => exact absurd h unexpected_ne_ok
  | succ bound ih =>
    rw [repeatUpTo, bind_eq_ok] at h
    obtain ⟨r, m, hr, h⟩ := h
    cases r with
    | again s' => exact .again hr (ih h)
    | done b =>
      simp only [pure_eq_ok] at h
      obtain ⟨rfl, rfl⟩ := h
      exact .done hr

/-- Rounds of a repetition, none of them the last, from a state and an input up to others. -/
inductive Passes (round : σ → Reader (Round σ α)) : σ → Input → σ → Input → Prop
  | refl {s : σ} {i : Input} : Passes round s i s i
  | again {s s' s'' : σ} {i m l : Input} :
      round s i = .ok (.again s') m → Passes round s' m s'' l → Passes round s i s'' l

theorem Passes.trans {round : σ → Reader (Round σ α)} {s s' s'' : σ} (h : Passes round s i s' m)
    (h' : Passes round s' m s'' l) : Passes round s i s'' l := by
  induction h with
  | refl => exact h'
  | again hr _ ih => exact .again hr (ih h')

theorem Passes.rounds {round : σ → Reader (Round σ α)} {s s' : σ} {a : α} (h : Passes round s i s' m)
    (h' : Rounds round s' m a l) : Rounds round s i a l := by
  induction h with
  | refl => exact h'
  | again hr _ ih => exact .again hr (ih h')

/-- Every round but the last takes a character, on inputs shorter than a bound. -/
def Shortens (bound : Nat) (round : σ → Reader (Round σ α)) : Prop :=
  ∀ s i s' m, i.rest.length < bound → round s i = .ok (.again s') m →
    m.rest.length < i.rest.length

/-- A bound that exceeds what is left allows for all rounds. -/
theorem Rounds.repeatUpTo {round : σ → Reader (Round σ α)} {limit bound : Nat} {s : σ} {a : α}
    (hround : Shortens limit round) (h : Rounds round s i a l) (hl : i.rest.length < limit)
    (hb : i.rest.length < bound) : repeatUpTo bound s round i = .ok a l := by
  induction h generalizing bound with
  | done hr =>
    cases bound with
    | zero => omega
    | succ bound =>
      rw [Reader.repeatUpTo, bind_eq_ok]
      exact ⟨_, _, hr, by simp only [pure_eq_ok, true_and]⟩
  | again hr _ ih =>
    cases bound with
    | zero => omega
    | succ bound =>
      have hlt := hround _ _ _ _ hl hr
      rw [Reader.repeatUpTo, bind_eq_ok]
      exact ⟨_, _, hr, ih (by omega) (by omega)⟩

end Reader

end LocaleText
