import LocaleText.Proofs.Carry.Basic

/-!
# Readers that move forward

A reader takes a text from the front of what is left, and nothing else, whether it succeeds or
fails. Two readers are compared on the way: two copies of one reader with other bounds, or with other
readers of the expressions inside, do the same as long as both move forward.

* `Reader.InStep` says of two readers that they do the same on an input and move forward
* `SameUpTo` are the bounds that inputs of a length do not tell apart
* `InStep.bind`, `.andThen` and `.moved` are about sequences, whose parts may or may not move
* `InStep.repeatUpTo` is about repetitions: what each of their rounds leaves is less to read
-/

namespace LocaleText

namespace Reader

variable {α β σ : Type} {i l : Input} {c : Char}

/-- Two bounds on the readers of `k` characters: they are the same, or both exceed the number. -/
def SameUpTo (k b b' : Nat) : Prop := b = b' ∨ k < b ∧ k < b'

namespace SameUpTo

variable {k k' b b' : Nat}

/-- For fewer characters the bounds say less. -/
theorem mono (h : SameUpTo k b b') (hle : k' ≤ k) : SameUpTo k' b b' :=
  h.imp_right fun h => ⟨Nat.lt_of_le_of_lt hle h.1, Nat.lt_of_le_of_lt hle h.2⟩

/-- One bound less for inputs that are shorter. -/
theorem pred (h : SameUpTo k (b + 1) (b' + 1)) (hlt : k' < k) : SameUpTo k' b b' := by
  rcases h with h | ⟨hb, hb'⟩
  · exact .inl (Nat.succ.inj h)
  · exact .inr ⟨by omega, by omega⟩

/-- Either of them is zero, or none is. -/
theorem zero_or (h : SameUpTo k b b') : b = 0 ∧ b' = 0 ∨ ∃ c c', b = c + 1 ∧ b' = c' + 1 := by
  cases b with
  | zero =>
    rcases h with h | ⟨h, -⟩
    · exact .inl ⟨rfl, h.symm⟩
    · exact absurd h (Nat.not_lt_zero k)
  | succ b =>
    cases b' with
    | zero =>
      rcases h with h | ⟨-, h⟩
      · exact absurd h (Nat.succ_ne_zero b)
      · exact absurd h (Nat.not_lt_zero k)
    | succ b' => exact .inr ⟨b, b', rfl, rfl⟩

end SameUpTo

/-- Two readers do the same on an input. They take a text, also when they fail, and for the results
that are to move it is not empty. -/
structure InStep (moves : α → Prop) (x y : Reader α) (i : Input) : Prop where
  same : x i = y i
  ok : ∀ {a l}, x i = .ok a l → ∃ text, i.Takes text l ∧ (moves a → text ≠ [])
  error : ∀ {e l}, x i = .error e l → ∃ text, i.Takes text l

namespace InStep

variable {x y x' y' : Reader α} {f g : α → Reader β} {moves moves' : α → Prop} {toMove : β → Prop}

theorem mono (h : InStep moves x y i) (hle : ∀ a, moves' a → moves a) : InStep moves' x y i := by
  refine ⟨h.same, fun hx => ?_, h.error⟩
  obtain ⟨text, ht, hmoves⟩ := h.ok hx
  exact ⟨text, ht, fun ha => hmoves (hle _ ha)⟩

theorem of_eq (hx : x i = x' i) (hy : y i = y' i) (h : InStep moves x' y' i) :
    InStep moves x y i :=
  ⟨by rw [hx, hy, h.same], fun hrun => h.ok (hx.symm.trans hrun),
    fun hrun => h.error (hx.symm.trans hrun)⟩

/-- Nothing is given back. -/
theorem length_le {a : α} (h : InStep moves x y i) (hx : x i = .ok a l) :
    l.rest.length ≤ i.rest.length := by
  obtain ⟨text, ht, -⟩ := h.ok hx
  have hlen := ht.length
  omega

/-- A result that is to move leaves less to read. -/
theorem length_lt {a : α} (h : InStep moves x y i) (hx : x i = .ok a l) (ha : moves a) :
    l.rest.length < i.rest.length := by
  obtain ⟨text, ht, hmoves⟩ := h.ok hx
  exact ht.length_lt (hmoves ha)

/-! ### Sequences -/

/-- A reader that always succeeds. -/
theorem of_takes (h : ∀ e m, x i ≠ .error e m)
    (ht : ∀ a l, x i = .ok a l → ∃ text, i.Takes text l ∧ (moves a → text ≠ [])) :
    InStep moves x x i :=
  ⟨rfl, fun hx => ht _ _ hx, fun hx => absurd hx (h _ _)⟩

theorem pure (a : α) (ha : ¬ moves a) : InStep moves (Pure.pure a : Reader α) (Pure.pure a) i :=
  .of_takes (by simp [Pure.pure, EStateM.pure]) fun b l h => by
    obtain ⟨rfl, rfl⟩ := pure_eq_ok.mp h
    exact ⟨[], .refl i, fun hb => absurd hb ha⟩

theorem result (a : α) : InStep (fun _ => False) (Pure.pure a : Reader α) (Pure.pure a) i :=
  .pure a id

/-- A sequence moves if one of its parts does. -/
theorem bind (hx : InStep moves x y i)
    (hf : ∀ a l, x i = .ok a l → l.rest.length ≤ i.rest.length →
      InStep (fun b => toMove b ∧ ¬ moves a) (f a) (g a) l) :
    InStep toMove (x >>= f) (y >>= g) i := by
  refine ⟨?_, fun {b m} hrun => ?_, fun {e m} hrun => ?_⟩
  · show EStateM.bind x f i = EStateM.bind y g i
    rw [EStateM.bind, EStateM.bind, ← hx.same]
    cases hrun : x i with
    | ok a l => exact (hf a l hrun (hx.length_le hrun)).same
    | error e l => rfl
  · obtain ⟨a, l, hxl, hfm⟩ := bind_eq_ok.mp hrun
    obtain ⟨text, ht, hmoves⟩ := hx.ok hxl
    obtain ⟨text', ht', hmoves'⟩ := (hf a l hxl (hx.length_le hxl)).ok hfm
    refine ⟨text ++ text', ht.trans ht', fun hb hnil => ?_⟩
    obtain ⟨hnil, hnil'⟩ := List.append_eq_nil_iff.mp hnil
    exact hmoves' ⟨hb, fun ha => hmoves ha hnil⟩ hnil'
  · rcases bind_eq_error.mp hrun with hxe | ⟨a, l, hxl, hfe⟩
    · exact hx.error hxe
    · obtain ⟨text, ht, -⟩ := hx.ok hxl
      obtain ⟨text', ht'⟩ := (hf a l hxl (hx.length_le hxl)).error hfe
      exact ⟨text ++ text', ht.trans ht'⟩

/-- Behind a reader that need not move. -/
theorem andThen (hx : InStep moves x y i)
    (hf : ∀ a l, l.rest.length ≤ i.rest.length → InStep toMove (f a) (g a) l) :
    InStep toMove (x >>= f) (y >>= g) i :=
  hx.bind fun a l _ hle => (hf a l hle).mono fun _ => And.left

/-- Behind a reader that moves, nothing has to. -/
theorem moved (hx : InStep (fun _ => True) x y i)
    (hf : ∀ a l, l.rest.length < i.rest.length → InStep (fun _ => False) (f a) (g a) l) :
    InStep toMove (x >>= f) (y >>= g) i :=
  hx.bind fun a l hrun _ =>
    (hf a l (hx.length_lt hrun trivial)).mono fun _ h => h.2 trivial

theorem map (f : α → β) (hx : InStep (fun _ => True) x y i) :
    InStep toMove (f <$> x) (f <$> y) i := by
  rw [map_eq_pure_bind, map_eq_pure_bind]
  exact hx.moved fun a _ _ => .result (f a)

theorem ite {p : Prop} [Decidable p] (ht : p → InStep moves x y i)
    (he : ¬ p → InStep moves x' y' i) :
    InStep moves (if p then x else x') (if p then y else y') i := by
  by_cases hp : p
  · rw [if_pos hp, if_pos hp]
    exact ht hp
  · rw [if_neg hp, if_neg hp]
    exact he hp

/-! ### Looking and taking -/

theorem spanFrom (start : Nat) : InStep (fun _ => False) (spanFrom start) (spanFrom start) i :=
  .of_takes (by simp [Reader.spanFrom]) fun _ _ h =>
    ⟨[], (ok_inj.mp h).2 ▸ .refl i, False.elim⟩

theorem offset_bind {f g : Nat → Reader β} (h : InStep toMove (f i.offset) (g i.offset) i) :
    InStep toMove (offset >>= f) (offset >>= g) i :=
  .of_eq (Reader.offset_bind f) (Reader.offset_bind g) h

theorem peek?_bind {f g : Option Char → Reader β}
    (h : InStep toMove (f i.rest.head?) (g i.rest.head?) i) :
    InStep toMove (peek? >>= f) (peek? >>= g) i :=
  .of_eq (Reader.peek?_bind f) (Reader.peek?_bind g) h

theorem here_bind {f g : Span → Reader β} (h : InStep toMove (f i.here) (g i.here) i) :
    InStep toMove (here >>= f) (here >>= g) i :=
  .of_eq (Reader.here_bind f) (Reader.here_bind g) h

theorem looksAt_bind (token : List Char) {f g : Bool → Reader β}
    (h : InStep toMove (f (token.isPrefixOf i.rest)) (g (token.isPrefixOf i.rest)) i) :
    InStep toMove (looksAt token >>= f) (looksAt token >>= g) i :=
  .of_eq (Reader.looksAt_bind token f) (Reader.looksAt_bind token g) h

theorem take (n : Nat) : InStep (fun _ => False) (take n) (take n) i :=
  .of_takes (by simp [Reader.take]) fun _ _ h => ⟨i.rest.take n,
    (ok_inj.mp h).2 ▸ Input.takes_after (List.take_append_drop n i.rest).symm, False.elim⟩

/-- Anywhere but at the end, a character is taken. -/
theorem skip : InStep (fun _ => i.rest ≠ []) skip skip i := by
  refine .of_takes (by simp [Reader.skip, Reader.take]) fun _ _ h => ⟨i.rest.take 1,
    (ok_inj.mp h).2 ▸ Input.takes_after (List.take_append_drop 1 i.rest).symm, fun hne => ?_⟩
  simpa using hne

theorem skip_of_head (hc : i.rest.head? = some c) :
    InStep (fun _ => True) Reader.skip Reader.skip i :=
  InStep.skip.mono fun _ _ hnil => by simp [hnil] at hc

theorem takeWhile (p : Char → Bool) :
    InStep (fun text => text ≠ []) (takeWhile p) (takeWhile p) i :=
  .of_takes (by simp [Reader.takeWhile]) fun text _ h => ⟨text, (takeWhile_eq_ok.mp h).1, id⟩

theorem blanks : InStep (fun _ => False) blanks blanks i :=
  (InStep.takeWhile isBlank).andThen fun _ _ _ => .result ()

theorem gap : InStep (fun _ => False) gap gap i :=
  .offset_bind ((InStep.takeWhile isBlank).andThen fun _ _ _ =>
    (InStep.spanFrom _).andThen fun _ _ _ => .result _)

/-- A character that is there is taken. -/
theorem eat (c : Char) : InStep (fun b => b = true) (eat c) (eat c) i := by
  refine .peek?_bind (.ite (fun hc => ?_) fun _ => .pure false (by simp))
  exact (skip_of_head hc).moved fun _ _ _ => .result true

/-- Either the character is taken, or nothing is. -/
theorem eat_bind {f g : Bool → Reader β}
    (ht : ∀ l, l.rest.length < i.rest.length → InStep (fun _ => False) (f true) (g true) l)
    (hf : InStep toMove (f false) (g false) i) :
    InStep toMove (Reader.eat c >>= f) (Reader.eat c >>= g) i := by
  refine (InStep.eat c).bind fun b l hrun _ => ?_
  rcases eat_eq_ok.mp hrun with ⟨hl, rfl⟩ | ⟨-, rfl, rfl⟩
  · exact (ht l (hl.length_lt (by simp))).mono fun _ h => h.2 rfl
  · exact hf.mono fun _ => And.left

/-! ### Faults -/

/-- A reader that fails where it is. -/
theorem of_fault (h : ∃ e, x i = .error e i) : InStep moves x x i := by
  obtain ⟨e, he⟩ := h
  refine ⟨rfl, fun hx => absurd hx (by simp [he]), fun hx => ⟨[], ?_⟩⟩
  rw [he] at hx
  obtain ⟨-, rfl⟩ := EStateM.Result.error.inj hx
  exact .refl i

theorem fail {kind : FaultKind} {span : Span} {detail : Option Detail}
    {note : Option (Note × Span)} :
    InStep moves (fail kind span detail note) (fail kind span detail note) i :=
  .of_fault ⟨_, rfl⟩

theorem unexpected {kind : FaultKind} :
    InStep moves (unexpected kind) (unexpected kind) i := by
  refine .of_fault ?_
  rw [Reader.unexpected]
  cases i.rest with
  | nil => exact ⟨_, rfl⟩
  | cons c cs => exact ⟨_, rfl⟩

theorem unterminated {composite : Composite} {opener : Span} :
    InStep moves (unterminated composite opener) (unterminated composite opener) i :=
  .here_bind .fail

theorem expect {kind : FaultKind} : InStep (fun _ => True) (expect c kind) (expect c kind) i := by
  refine .eat_bind (fun _ _ => .result ()) (.peek?_bind ?_)
  cases i.rest.head? with
  | none => exact .here_bind .fail
  | some d => exact .here_bind .fail

/-- A composite changes the fault, but not what is left. -/
theorem within {composite : Composite} {opener : Span} (h : InStep moves x y i) :
    InStep moves (within composite opener x) (within composite opener y) i := by
  refine ⟨?_, fun hrun => h.ok (within_eq_ok.mp hrun), fun {e m} hrun => ?_⟩
  · rw [Reader.within, Reader.within, h.same]
  · cases hx : x i with
    | ok a l =>
      rw [within_eq_ok.mpr hx] at hrun
      exact absurd hrun (by simp)
    | error e' l =>
      have hleft : m = l := by
        rw [Reader.within, hx] at hrun
        simp only at hrun
        split at hrun
        · exact (EStateM.Result.error.inj hrun).2.symm
        · exact (EStateM.Result.error.inj hrun).2.symm
      rw [hleft]
      exact h.error hx

/-! ### Nesting and repetition -/

/-- One level further in, or a fault that takes nothing. -/
theorem nested {n : Nesting} {inner inner' : Nesting → Reader α}
    (h : InStep moves (inner n.deeper) (inner' n.deeper) i) :
    InStep moves (nested n inner) (nested n inner') i := by
  unfold Reader.nested
  cases n.exhausted? with
  | none => exact h
  | some limit => exact .here_bind .fail

end InStep

/-- A round with another one behind it. -/
def Round.GoesOn : Round σ α → Prop
  | .again _ => True
  | .done _ => False

namespace InStep

variable {round round' : σ → Reader (Round σ α)}

/-- By induction on the bound. Every round with another one behind it moves, so that the bounds
cannot be told apart behind it either. -/
theorem repeatUpTo {moves : Round σ α → Prop} (hagain : ∀ s, moves (.again s)) {k : Nat}
    (h : ∀ s m, m.rest.length ≤ k → InStep moves (round s) (round' s) m) :
    ∀ {b b' : Nat} (s : σ) (i : Input), i.rest.length ≤ k → SameUpTo i.rest.length b b' →
      InStep (fun a => moves (.done a)) (repeatUpTo b s round) (repeatUpTo b' s round') i := by
  intro b
  induction b with
  | zero =>
    intro b' s i hi hb
    obtain ⟨-, rfl⟩ | ⟨_, _, h, -⟩ := hb.zero_or
    · exact .unexpected
    · exact absurd h.symm (Nat.succ_ne_zero _)
  | succ b ih =>
    intro b' s i hi hb
    obtain ⟨h, -⟩ | ⟨_, b', h', rfl⟩ := hb.zero_or
    · exact absurd h (Nat.succ_ne_zero b)
    obtain rfl := Nat.succ.inj h'
    have hround := h s i hi
    refine hround.bind fun r l hr hle => ?_
    cases r with
    | again s' =>
      have hlt := hround.length_lt hr (hagain s')
      exact (ih s' l (by omega) (hb.pred hlt)).mono fun _ ha => absurd (hagain s') ha.2
    | done a => exact .pure a fun ha => ha.2 ha.1

variable {b b' : Nat} {s : σ}

/-- A repetition whose rounds all move. -/
theorem repeatUpTo_moving (hb : SameUpTo i.rest.length b b')
    (h : ∀ s m, m.rest.length ≤ i.rest.length → InStep (fun _ => True) (round s) (round' s) m) :
    InStep (fun _ => True) (Reader.repeatUpTo b s round) (Reader.repeatUpTo b' s round') i :=
  repeatUpTo (fun _ => trivial) h s i (Nat.le_refl _) hb

/-- A repetition whose last round need not move. -/
theorem repeatUpTo_going (hb : SameUpTo i.rest.length b b')
    (h : ∀ s m, m.rest.length ≤ i.rest.length → InStep Round.GoesOn (round s) (round' s) m) :
    InStep (fun _ => False) (Reader.repeatUpTo b s round) (Reader.repeatUpTo b' s round') i :=
  repeatUpTo (fun _ => trivial) h s i (Nat.le_refl _) hb

end InStep

end Reader

end LocaleText
