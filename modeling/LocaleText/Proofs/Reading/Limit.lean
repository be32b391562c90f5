import LocaleText.Reading.Entry

/-!
# The nesting limit

A reader that keeps to a limit takes the same steps as without one until the limit stops it. Each
run has a threshold: a smaller limit stops the run, and no other limit changes anything about it.

* `Threshold` is the threshold of one run, and `HasThreshold` says that every run has one
* `HasThreshold.bind`, `.within`, `.nested` and `.repeatUpTo` are the steps that readers consist of
* `Bounded` are the readers of nested parts that have thresholds at every depth
* `bounded_expression` and `hasThreshold_resource` follow the readers of the grammar
* `Resource.read_threshold` is the same for a source
-/

namespace LocaleText

namespace Reader

variable {α β σ : Type}

/-! ### Thresholds of runs -/

/-- A run was stopped by the nesting limit. -/
def Exceeds (result : EStateM.Result Fault Input α) : Prop :=
  ∃ fault left, result = .error fault left ∧ fault.kind = .recursionLimitExceeded

/-- Limits from `D` on leave a run as it is without a limit, and smaller ones stop it. -/
structure Threshold (reader : Option Nat → Reader α) (i : Input) (D : Nat) : Prop where
  same : ∀ n, D ≤ n → reader (some n) i = reader none i
  stopped : ∀ n, n < D → Exceeds (reader (some n) i)

/-- Every run of a reader that keeps to a limit has a threshold. -/
def HasThreshold (reader : Option Nat → Reader α) : Prop :=
  ∀ i, ∃ D, Threshold reader i D

namespace HasThreshold

variable {reader first second : Option Nat → Reader α}

/-- The threshold of a reader that does not nest is zero. -/
theorem const (reader : Reader α) : HasThreshold fun _ => reader := by
  intro i
  exact ⟨0, fun _ _ => rfl, fun n hn => absurd hn (Nat.not_lt_zero n)⟩

/-- Of two readers in a row, the greater threshold counts, if the second is reached at all. -/
theorem bind {next : Option Nat → α → Reader β} (hr : HasThreshold reader)
    (hn : ∀ a, HasThreshold fun limit => next limit a) :
    HasThreshold fun limit => reader limit >>= next limit := by
  intro i
  obtain ⟨D, hsame, hstop⟩ := hr i
  have hfirst : ∀ n, n < D → Exceeds ((reader (some n) >>= next (some n)) i) := by
    intro n hlt
    obtain ⟨fault, left, he, hk⟩ := hstop n hlt
    refine ⟨fault, left, ?_, hk⟩
    show EStateM.bind (reader (some n)) (next (some n)) i = _
    simp only [EStateM.bind, he]
  cases hrun : reader none i with
  | error fault left =>
    refine ⟨D, ?_, hfirst⟩
    intro n hle
    show EStateM.bind (reader (some n)) (next (some n)) i
      = EStateM.bind (reader none) (next none) i
    simp only [EStateM.bind, hsame n hle, hrun]
  | ok a left =>
    obtain ⟨D', hsame', hstop'⟩ := hn a left
    have hstep : ∀ n, D ≤ n → (reader (some n) >>= next (some n)) i = next (some n) a left := by
      intro n hle
      show EStateM.bind (reader (some n)) (next (some n)) i = _
      simp only [EStateM.bind, hsame n hle, hrun]
    have hnone : (reader none >>= next none) i = next none a left := by
      show EStateM.bind (reader none) (next none) i = _
      simp only [EStateM.bind, hrun]
    refine ⟨max D D', ?_, ?_⟩
    · intro n hle
      have hD : D ≤ n := Nat.le_trans (Nat.le_max_left D D') hle
      have hD' : D' ≤ n := Nat.le_trans (Nat.le_max_right D D') hle
      exact (hstep n hD).trans ((hsame' n hD').trans hnone.symm)
    · intro n hlt
      by_cases hD : n < D
      · exact hfirst n hD
      · have hD' : n < D' := by omega
        show Exceeds ((reader (some n) >>= next (some n)) i)
        rw [hstep n (Nat.le_of_not_lt hD)]
        exact hstop' n hD'

/-- A result that is put into shape afterwards does not change the threshold. -/
theorem map (f : α → β) (hr : HasThreshold reader) :
    HasThreshold fun limit => f <$> reader limit := by
  have h : HasThreshold fun limit => reader limit >>= fun a => pure (f a) :=
    hr.bind fun a => const (pure (f a))
  simpa only [← map_eq_pure_bind] using h

theorem ite {p : Prop} [Decidable p] (hf : HasThreshold first) (hs : HasThreshold second) :
    HasThreshold fun limit => if p then first limit else second limit := by
  by_cases hp : p
  · simpa only [if_pos hp] using hf
  · simpa only [if_neg hp] using hs

/-- A composite takes the blame for the end of the source only, not for the limit. -/
theorem within (composite : Composite) (opener : Span) (hr : HasThreshold reader) :
    HasThreshold fun limit => Reader.within composite opener (reader limit) := by
  intro i
  obtain ⟨D, hsame, hstop⟩ := hr i
  refine ⟨D, ?_, ?_⟩
  · intro n hle
    simp only [Reader.within, hsame n hle]
  · intro n hlt
    obtain ⟨fault, left, he, hk⟩ := hstop n hlt
    refine ⟨fault, left, ?_, hk⟩
    simp only [Reader.within, he, hk, reduceCtorEq, if_false]

/-- One level further in, a limit is to exceed the depth of that level as well. -/
theorem nested {inner : Nesting → Reader α} {depth : Nat}
    (hi : HasThreshold fun limit => inner ⟨limit, depth + 1⟩) :
    HasThreshold fun limit => Reader.nested ⟨limit, depth⟩ inner := by
  intro i
  obtain ⟨D, hsame, hstop⟩ := hi i
  have hroom : ∀ n, depth < n →
      Reader.nested ⟨some n, depth⟩ inner i = inner ⟨some n, depth + 1⟩ i := by
    intro n hlt
    have hex : (Nesting.mk (some n) depth).exhausted? = none := by
      simp [Nesting.exhausted?, hlt]
    simp only [Reader.nested, hex]
    rfl
  refine ⟨max (depth + 1) D, ?_, ?_⟩
  · intro n hle
    have hd : depth < n := Nat.le_trans (Nat.le_max_left (depth + 1) D) hle
    have hD : D ≤ n := Nat.le_trans (Nat.le_max_right (depth + 1) D) hle
    exact (hroom n hd).trans (hsame n hD)
  · intro n hlt
    by_cases hd : depth < n
    · have hD : n < D := by omega
      show Exceeds (Reader.nested ⟨some n, depth⟩ inner i)
      rw [hroom n hd]
      exact hstop n hD
    · have hex : (Nesting.mk (some n) depth).exhausted? = some n := by
        simp [Nesting.exhausted?, Nat.le_of_not_lt hd]
      refine ⟨⟨.recursionLimitExceeded, i.here, some (.levels n), none⟩, i, ?_, rfl⟩
      simp only [Reader.nested, hex]
      rfl

/-- By induction on the bound: the rounds of a repetition follow one another. -/
theorem repeatUpTo {round : Option Nat → σ → Reader (Round σ α)}
    (hr : ∀ state, HasThreshold fun limit => round limit state) :
    ∀ (bound : Nat) (state : σ),
      HasThreshold fun limit => Reader.repeatUpTo bound state (round limit) := by
  intro bound
  induction bound with
  | zero =>
    intro state
    exact const _
  | succ bound ih =>
    intro state
    refine (hr state).bind ?_
    intro outcome
    cases outcome with
    | again next => exact ih next
    | done result => exact const _

end HasThreshold

/-- A reader of nested parts has thresholds at every depth. -/
def Bounded (inner : Nesting → Reader α) : Prop :=
  ∀ depth, HasThreshold fun limit => inner ⟨limit, depth⟩

variable {inner : Nesting → Reader Expr} {reader : Option Nat → Reader α}

/-! ### Composites -/

/-- A key has nothing nested in it, what it stands before may have. -/
theorem HasThreshold.keyed (hr : HasThreshold reader) :
    HasThreshold fun limit => Reader.keyed (reader limit) := by
  unfold Reader.keyed
  refine bind (const ident) fun key => ?_
  refine bind (const blanks) fun _ => ?_
  refine bind (const (eat ':')) fun _ => ?_
  refine ite ?_ (const _)
  refine bind (const blanks) fun _ => ?_
  exact bind hr fun _ => const _

theorem Bounded.expressions (hi : Bounded inner) (bound : Nat) (composite : Composite) :
    Bounded fun nesting => Reader.expressions inner bound nesting composite := by
  intro depth
  unfold Reader.expressions
  refine .bind (.const here) fun opener => ?_
  refine .bind (.const skip) fun _ => ?_
  refine .bind (.const blanks) fun _ => ?_
  refine .repeatUpTo ?_ bound #[]
  intro items
  unfold expressionRound
  refine .bind (.const peek?) fun c? => ?_
  cases c? with
  | none => exact .const _
  | some c =>
    refine .ite (.const _) ?_
    refine .bind ((hi depth).within composite opener) fun item => ?_
    exact .const _

/-- The rounds of an object, each of which has a threshold. -/
theorem Bounded.members (hi : Bounded inner) (bound : Nat) :
    Bounded fun nesting => Reader.members inner bound nesting := by
  intro depth
  unfold Reader.members
  refine .bind (.const here) fun opener => ?_
  refine .bind (.const skip) fun _ => ?_
  refine .bind (.const blanks) fun _ => ?_
  refine .repeatUpTo ?_ bound ([], none)
  intro state
  obtain ⟨entries, default⟩ := state
  unfold memberRound
  refine .bind (.const peek?) fun c? => ?_
  cases c? with
  | none => exact .const _
  | some c =>
    refine .ite (.const _) ?_
    refine .bind (.const here) fun marker => ?_
    refine .bind (.const (eat '*')) fun marked => ?_
    refine .bind ((hi depth).keyed.within .object opener) fun member => ?_
    exact .const _

/-- A value is one level further in, whatever it is. -/
theorem Bounded.value (hi : Bounded inner) (bound : Nat) :
    Bounded fun nesting => Reader.value inner bound nesting := by
  intro depth
  refine .nested ?_
  refine .bind (.const offset) fun start => ?_
  refine .bind (.const peek?) fun c? => ?_
  cases c? with
  | none => exact .const _
  | some c =>
    by_cases hsquare : c = '['
    · subst hsquare
      refine .bind (hi.expressions bound .array (depth + 1)) fun items => ?_
      exact .const _
    by_cases hcurly : c = '\x7b'
    · subst hcurly
      refine .bind (hi.members bound (depth + 1)) fun members => ?_
      exact .const _
    · simp only
      exact .const _

/-! ### Operands -/

theorem Bounded.enclosed (hi : Bounded inner) (closer : Char) :
    Bounded fun nesting => Reader.enclosed inner nesting closer := by
  intro depth
  refine .bind (.const blanks) fun _ => ?_
  refine .bind (hi depth) fun e => ?_
  exact .const _

theorem Bounded.arguments (hi : Bounded inner) (bound : Nat) :
    Bounded fun nesting => Reader.arguments inner bound nesting := by
  intro depth
  unfold Reader.arguments
  refine .bind (.const skip) fun _ => ?_
  refine .bind (.const blanks) fun _ => ?_
  refine .bind (.const (eat ')')) fun _ => ?_
  refine .ite (.const _) ?_
  refine .repeatUpTo ?_ bound #[]
  intro args
  refine .bind (hi depth) fun arg => ?_
  exact .const _

theorem Bounded.named (hi : Bounded inner) (bound : Nat) :
    Bounded fun nesting => Reader.named inner bound nesting := by
  intro depth
  unfold Reader.named
  refine .bind (.const offset) fun start => ?_
  refine .bind (.const ident) fun id => ?_
  refine .bind (.const (looksAt ['[', '.'])) fun _ => ?_
  refine .ite ?_ ?_
  · refine .bind (.const (take 2)) fun _ => ?_
    exact .bind (hi.enclosed ']' depth) fun _ => .const _
  refine .bind (.const (looksAt ['['])) fun _ => ?_
  refine .ite ?_ ?_
  · refine .bind (.const skip) fun _ => ?_
    exact .bind (hi.enclosed ']' depth) fun _ => .const _
  refine .bind (.const (looksAt ['('])) fun _ => ?_
  refine .ite ?_ (.const _)
  exact .bind (hi.arguments bound depth) fun _ => .const _

theorem Bounded.primary (hi : Bounded inner) (bound : Nat) :
    Bounded fun nesting => Reader.primary inner bound nesting := by
  intro depth
  unfold Reader.primary
  refine .bind (.const offset) fun start => ?_
  refine .bind (.const peek?) fun c? => ?_
  cases c? with
  | none => exact .const _
  | some c =>
    refine .ite ?_ (.ite (.const integer) (.ite ?_ (.ite ?_ (.const _))))
    · refine .bind (.const skip) fun _ => ?_
      exact .bind (hi.enclosed ')' depth) fun _ => .const _
    · exact (hi.value bound depth).map Expr.value
    · exact hi.named bound depth

/-- By induction on the number of signs: each is a level of its own. -/
theorem Bounded.unary (hi : Bounded inner) (bound : Nat) :
    ∀ signs, Bounded fun nesting => Reader.unary inner bound signs nesting := by
  intro signs
  induction signs with
  | zero =>
    intro depth
    exact .const _
  | succ signs ih =>
    intro depth
    unfold Reader.unary
    refine .bind (.const offset) fun start => ?_
    refine .bind (.const peek?) fun c? => ?_
    cases c?.bind UnaryOp.ofChar? with
    | none => exact hi.primary bound depth
    | some op =>
      refine .bind (.const skip) fun _ => ?_
      refine .bind (.const blanks) fun _ => ?_
      exact .bind (.nested (ih (depth + 1))) fun _ => .const _

/-! ### Operations -/

/-- By induction on the levels, the tightest first. -/
theorem Bounded.operations (hi : Bounded inner) (bound : Nat) :
    ∀ levels, Bounded fun nesting => Reader.operations inner bound nesting levels := by
  intro levels
  induction levels with
  | nil =>
    intro depth
    exact hi.unary bound bound depth
  | cons level tighter ih =>
    intro depth
    refine .bind (ih depth) fun first => ?_
    refine .repeatUpTo ?_ bound first
    intro left
    unfold operationRound
    refine .bind (.const blanks) fun _ => ?_
    refine .bind (.const (operator? level)) fun op? => ?_
    cases op? with
    | none => exact .const _
    | some op =>
      refine .bind (.const (take op.token.length)) fun _ => ?_
      refine .bind (.const blanks) fun _ => ?_
      exact .bind (ih depth) fun _ => .const _

theorem Bounded.conditional (hi : Bounded inner) (bound : Nat) :
    Bounded fun nesting => Reader.conditional inner bound nesting := by
  intro depth
  unfold Reader.conditional
  refine .bind (hi.operations bound BinaryOp.levels depth) fun test => ?_
  refine .bind (.const blanks) fun _ => ?_
  refine .bind (.const (eat '?')) fun _ => ?_
  refine .ite ?_ (.const _)
  refine .bind (.const blanks) fun _ => ?_
  refine .bind (hi depth) fun consequent => ?_
  refine .bind (.const blanks) fun _ => ?_
  refine .bind (.const (expect ':' .malformedExpression)) fun _ => ?_
  refine .bind (.const blanks) fun _ => ?_
  exact .bind (hi depth) fun _ => .const _

/-- By induction on the bound: an expression reads those inside it with a smaller one. -/
theorem bounded_expression : ∀ bound, Bounded (expression bound) := by
  intro bound
  induction bound with
  | zero =>
    intro depth
    exact .const _
  | succ bound ih =>
    intro depth
    exact .nested (ih.conditional (bound + 1) (depth + 1))

/-! ### Entries -/

variable (bound : Nat)

theorem bounded_entryValue : Bounded (entryValue bound) :=
  (bounded_expression bound).value bound

theorem bounded_entryEnd : Bounded (entryEnd bound) := by
  intro depth
  unfold entryEnd
  refine .bind (.const blanks) fun _ => ?_
  refine .bind (.const peek?) fun c? => ?_
  have hattrs : Bounded (attributes bound) := by
    intro depth
    refine .repeatUpTo ?_ bound []
    intro entries
    exact .bind (bounded_entryValue bound depth).keyed fun _ => .const _
  by_cases hc : c? = some '>'
  · simp only [hc, if_true]
    exact .const _
  simp only [hc, if_false]
  exact .bind ((hattrs depth).map some) fun _ => .const _

theorem bounded_entity (start : Nat) (id : Ident) (index : Option (List Expr)) :
    Bounded fun nesting => entity bound nesting start id index := by
  intro depth
  unfold entity
  refine .bind (.const gap) fun before => ?_
  refine .bind (bounded_entryValue bound depth) fun value => ?_
  refine .bind (.const gap) fun behind => ?_
  exact .bind (bounded_entryEnd bound depth) fun _ => .const _

theorem bounded_macroDef (start : Nat) (id : Ident) :
    Bounded fun nesting => macroDef bound nesting start id := by
  intro depth
  unfold macroDef
  refine .bind (.const (parameters bound)) fun params => ?_
  refine .bind (.const blanks) fun _ => ?_
  refine .bind (.const (expect '\x7b' .malformedExpression)) fun _ => ?_
  refine .bind ((bounded_expression bound).enclosed '\x7d' depth) fun body => ?_
  exact .bind (bounded_entryEnd bound depth) fun _ => .const _

/-- The parts of an entry have thresholds each, and the largest is that of the entry. -/
theorem bounded_entry : Bounded (entry bound) := by
  intro depth
  unfold entry
  refine .bind (.const offset) fun start => ?_
  refine .bind (.const (looksAt ['/', '*'])) fun _ => ?_
  refine .ite (.const _) ?_
  refine .bind (.const (eat '<')) fun _ => ?_
  refine .ite ?_ (.const _)
  refine .bind (.const ident) fun id => ?_
  refine .bind (.const peek?) fun c? => ?_
  have hplain := (bounded_entity bound start id none depth).map Entry.entity
  cases c? with
  | none => exact hplain
  | some c =>
    by_cases hround : c = '('
    · subst hround
      exact (bounded_macroDef bound start id depth).map Entry.macroDef
    by_cases hsquare : c = '['
    · subst hsquare
      refine .bind ((bounded_expression bound).expressions bound .index depth) fun index => ?_
      exact (bounded_entity bound start id (some index) depth).map Entry.entity
    · simpa [hround, hsquare] using hplain

/-- A whole source is read outside of all levels. -/
theorem hasThreshold_resource : HasThreshold resource := by
  refine .bind (.const offset) fun start => ?_
  refine .bind (.const left) fun length => ?_
  refine .bind (.repeatUpTo ?_ (length + 1) #[]) fun body => .const _
  intro body
  unfold itemRound
  refine .bind (.const gap) fun blank => ?_
  refine .bind (.const peek?) fun c? => ?_
  refine .ite (.const _) ?_
  exact .bind (bounded_entry (length + 1) 0) fun _ => .const _

end Reader

namespace Resource

/-- A nesting limit is a threshold: up to a number that depends on the source alone, a limit stops
the reader, and from there on the resource or the error is the same as without a limit. -/
theorem read_threshold (source : String) :
    ∃ D, ∀ n, (D ≤ n → read (some n) source = read none source) ∧
      (n < D → ∃ error, read (some n) source = .error error ∧
        error.kind = .recursionLimitExceeded) := by
  obtain ⟨D, hsame, hstop⟩ := Reader.hasThreshold_resource (.ofText source.toList)
  refine ⟨D, ?_⟩
  intro n
  constructor
  · intro hle
    simp only [read, ofChars, hsame n hle]
  · intro hlt
    obtain ⟨fault, left, he, hk⟩ := hstop n hlt
    refine ⟨fault.toError source, ?_, hk⟩
    simp only [read, ofChars, he]
    rfl

end Resource

end LocaleText
