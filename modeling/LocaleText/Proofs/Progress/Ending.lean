import LocaleText.Proofs.Pointing.Basic
import LocaleText.Proofs.Progress.Reading
import Mathlib.Logic.ExistsUnique

/-!
# Reading comes to an end

The readers have bounds, and nothing is ever decided by them: every production moves forward, so
that what is left bounds the rounds of a repetition and the depth of the recursion.

* `Reader.Progresses` says where a reader comes to from any place of a source
* `Reader.Outcome` is what a repetition without a bound comes to, `Reader.Ends` that there is one
* `Reader.Settles` says that a recursion without a bound is solved by one reader, which the readers
  with bounds agree with
* `Reader.productions` and `Reader.repetitions` are the facts about all readers of the grammar and
  about all their rounds
* `Reader.settles_expression` and `Reader.settles_unary` are about the two recursions, through the
  expressions inside and through signs
* `Reader.reading_ends` puts the facts together for all productions, repetitions and recursions
-/

namespace LocaleText

/-- What is left of a source begins within it. -/
theorem Input.In.offset_le {i : Input} {source : List Char} (h : i.In source) :
    i.offset ≤ byteLength source := by
  obtain ⟨before, rfl, ho⟩ := h
  rw [ho, byteLength_append]
  exact Nat.le_add_right _ _

namespace Reader

variable {α σ : Type} {i l m : Input}

/-! ### Places in a source -/

/-- From every place of a source a reader comes to a place of it: further on when it succeeds, and
not back when it fails. A place is what the characters in front of it leave, so it is never inside of
a character. -/
def Progresses (x : Reader α) : Prop :=
  ∀ source i, i.In source →
    (∀ a l, x i = .ok a l →
      l.In source ∧ i.offset < l.offset ∧ l.offset ≤ byteLength source) ∧
    ∀ e l, x i = .error e l →
      l.In source ∧ i.offset ≤ l.offset ∧ l.offset ≤ byteLength source

theorem offset_lt_of_takes {text : List Char} (h : i.Takes text l) (hne : text ≠ []) :
    i.offset < l.offset := by
  have hpos := byteLength_pos hne
  rw [h.offset]
  omega

/-- A reader that is in step with another one moves forward by itself. -/
theorem InStep.progresses {x y : Reader α} (h : ∀ i, InStep (fun _ => True) x y i) :
    Progresses x := by
  intro source i hi
  constructor
  · intro a l hrun
    obtain ⟨text, ht, hmoves⟩ := (h i).ok hrun
    exact ⟨hi.takes ht, offset_lt_of_takes ht (hmoves trivial), (hi.takes ht).offset_le⟩
  · intro e l hrun
    obtain ⟨text, ht⟩ := (h i).error hrun
    exact ⟨hi.takes ht, ht.offset ▸ Nat.le_add_right _ _, (hi.takes ht).offset_le⟩

/-! ### Repetitions -/

/-- What a repetition without a bound comes to, a result or a fault, and what is left then. -/
inductive Outcome (round : σ → Reader (Round σ α)) :
    σ → Input → EStateM.Result Fault Input α → Prop
  | done {s : σ} {i l : Input} {a : α} :
      round s i = .ok (.done a) l → Outcome round s i (.ok a l)
  | fault {s : σ} {i l : Input} {e : Fault} :
      round s i = .error e l → Outcome round s i (.error e l)
  | again {s s' : σ} {i m : Input} {r : EStateM.Result Fault Input α} :
      round s i = .ok (.again s') m → Outcome round s' m r → Outcome round s i r

/-- A repetition comes to one outcome, by induction on its rounds. -/
theorem Outcome.unique {round : σ → Reader (Round σ α)} {s : σ}
    {r r' : EStateM.Result Fault Input α} (h : Outcome round s i r) (h' : Outcome round s i r') :
    r = r' := by
  induction h with
  | done hround => cases h' <;> simp_all
  | fault hround => cases h' <;> simp_all
  | again hround _ ih =>
    cases h' with
    | done hround' => simp [hround] at hround'
    | fault hround' => simp [hround] at hround'
    | again hround' h' =>
      obtain ⟨hs, rfl⟩ := ok_inj.mp (hround.symm.trans hround')
      obtain rfl := Round.again.inj hs
      exact ih h'

/-- A repetition ends from everywhere, without a bound on its rounds. -/
structure Ends (round : σ → Reader (Round σ α)) : Prop where
  /-- Every round with another one behind it takes something. -/
  advances : ∀ source s s' i m, i.In source → round s i = .ok (.again s') m →
    m.In source ∧ i.offset < m.offset
  /-- There is a last round. -/
  outcome : ∀ s i, ∃! r, Outcome round s i r
  /-- A bound that exceeds what is left does not matter. -/
  bounded : ∀ bound s i, i.rest.length < bound → Outcome round s i (repeatUpTo bound s round i)

/-- By induction on the bound, which falls with every round as what is left does. -/
theorem Outcome.repeatUpTo {round : σ → Reader (Round σ α)}
    (hround : ∀ s s' i m, round s i = .ok (.again s') m → m.rest.length < i.rest.length) :
    ∀ (bound : Nat) (s : σ) (i : Input), i.rest.length < bound →
      Outcome round s i (repeatUpTo bound s round i) := by
  intro bound
  induction bound with
  | zero => exact fun _ _ h => absurd h (Nat.not_lt_zero _)
  | succ bound ih =>
    intro s i hi
    show Outcome round s i (EStateM.bind (round s) _ i)
    rw [EStateM.bind]
    cases hr : round s i with
    | error e l => exact .fault hr
    | ok r m =>
      cases r with
      | done a => exact .done hr
      | again s' =>
        have hlt := hround s s' i m hr
        exact .again hr (ih s' m (by omega))

/-- A repetition ends when the rounds that go on take something. -/
theorem InStep.ends {moves : Round σ α → Prop} {round : σ → Reader (Round σ α)}
    (hagain : ∀ s, moves (.again s)) (h : ∀ s i, InStep moves (round s) (round s) i) :
    Ends round := by
  have hround : ∀ s s' i m, round s i = .ok (.again s') m → m.rest.length < i.rest.length :=
    fun s s' i m hr => (h s i).length_lt hr (hagain s')
  refine ⟨fun source s s' i m hi hr => ?_, fun s i => ?_, Outcome.repeatUpTo hround⟩
  · obtain ⟨text, ht, hmoves⟩ := (h s i).ok hr
    exact ⟨hi.takes ht, offset_lt_of_takes ht (hmoves (hagain s'))⟩
  · have houtcome := Outcome.repeatUpTo hround _ s i (Nat.lt_succ_self _)
    exact ⟨_, houtcome, fun r hr => hr.unique houtcome⟩

/-! ### Recursion -/

/-- Without a bound, a recursion is solved by one reader. The readers that have a bound do what it
does, on the inputs that the bound exceeds. -/
structure Settles (step : (Nesting → Reader Expr) → Nesting → Reader Expr)
    (bounded : Nat → Nesting → Reader Expr) : Prop where
  unique : ∃! x : Nesting → Reader Expr, ∀ n, x n = step x n
  agrees : ∀ x : Nesting → Reader Expr, (∀ n, x n = step x n) →
    ∀ bound n i, i.rest.length < bound → bounded bound n i = x n i

section Recursion

variable {step : (Nesting → Reader Expr) → Nesting → Reader Expr}
  {bounded : Nat → Nesting → Reader Expr}

/-- A recursion that is only entered with less to read. The solution reads every input with a bound
that exceeds it. -/
theorem Settles.of_inStep
    (hstep : ∀ x bound n i, InStepBelow i.rest.length (bounded bound) x →
      i.rest.length < bound + 1 → InStep (fun _ => True) (bounded (bound + 1) n) (step x n) i)
    (hbounds : ∀ b b' n i, i.rest.length < b → i.rest.length < b' →
      InStep (fun _ => True) (bounded b n) (bounded b' n) i) : Settles step bounded := by
  have hsolution : ∀ x : Nesting → Reader Expr, (∀ n, x n = step x n) → ∀ bound n i,
      i.rest.length < bound → InStep (fun _ => True) (bounded bound n) (x n) i := by
    intro x hx bound
    induction bound with
    | zero => exact fun _ _ h => absurd h (Nat.not_lt_zero _)
    | succ bound ih =>
      intro n i hi
      rw [hx n]
      exact hstep x bound n i (fun n m hm => ih n m (by omega)) hi
  have hagrees : ∀ x : Nesting → Reader Expr, (∀ n, x n = step x n) → ∀ bound n i,
      i.rest.length < bound → bounded bound n i = x n i :=
    fun x hx bound n i hi => (hsolution x hx bound n i hi).same
  refine ⟨⟨fun n i => bounded (i.rest.length + 1) n i, fun n => funext fun i => ?_, fun x hx => ?_⟩,
    hagrees⟩
  · refine (hstep _ _ n i (fun n m hm => ?_) (Nat.lt_succ_self _)).same
    exact .of_eq rfl rfl (hbounds _ _ n m hm (Nat.lt_succ_self _))
  · funext n i
    exact (hagrees x hx _ n i (Nat.lt_succ_self _)).symm

end Recursion

/-- One level of the recursion through expressions. What is left bounds the repetitions and the
signs of the level. -/
def expressionStep (inner : Nesting → Reader Expr) (nesting : Nesting) : Reader Expr :=
  nested nesting fun nesting input => conditional inner (input.rest.length + 1) nesting input

/-- Expressions inside are read behind a character that is taken. -/
theorem settles_expression : Settles expressionStep expression := by
  refine .of_inStep (fun x bound n i hinner hi => ?_) fun b b' n i hb hb' =>
    .expression n i (.inr ⟨hb, hb'⟩)
  have hbounds : SameUpTo i.rest.length (bound + 1) (i.rest.length + 1) :=
    .inr ⟨hi, Nat.lt_succ_self _⟩
  exact .nested (.of_eq rfl rfl (.conditional hinner (Nat.le_refl _) hbounds))

theorem settles_unary (b bound : Nat) : Settles (signed (primary (expression b) bound))
    (unary (expression b) bound) := by
  have hinner : ∀ k, InStepBelow k (expression b) (expression b) :=
    fun k => InStep.below_expression (.inl rfl)
  refine .of_inStep (fun x signs n i hself _ => ?_) fun b b' n i hb hb' =>
    .unary (hinner _) (.inl rfl) n i (Nat.le_refl _) (.inr ⟨hb, hb'⟩)
  rw [unary_succ]
  exact .signed (.primary (hinner _) (Nat.le_refl _) (.inl rfl)) fun m hm => hself n.deeper m hm

/-! ### All of it -/

/-- Every production makes progress. Strings and lists of expressions also do where their openers are
still to be looked for, and behind those they are the readers that the other productions run. -/
structure Productions (b bound : Nat) (n : Nesting) : Prop where
  ident : Progresses ident
  string : Progresses string
  string_eq : ∀ (i : Input) (c : Char), i.rest.head? = some c → isQuote c = true →
    Reader.string i = Reader.quoted c i
  quoted : ∀ quote, Progresses (quoted quote)
  expression : Progresses (expression b n)
  conditional : Progresses (conditional (Reader.expression b) bound n)
  operations : ∀ levels, Progresses (operations (Reader.expression b) bound n levels)
  unary : ∀ signs, Progresses (unary (Reader.expression b) bound signs n)
  primary : Progresses (primary (Reader.expression b) bound n)
  value : Progresses (value (Reader.expression b) bound n)
  members : Progresses (members (Reader.expression b) bound n)
  expressions : ∀ composite, Progresses (expressions (Reader.expression b) bound n composite)
  opened : ∀ composite, Progresses (opened (Reader.expression b) bound n composite)
  opened_eq : ∀ (composite : Composite) (i : Input), i.rest.head? = some composite.opener →
    Reader.opened (Reader.expression b) bound n composite i =
      Reader.expressions (Reader.expression b) bound n composite i
  keyedExpression : Progresses (keyed (Reader.expression b n))
  keyedValue : Progresses (keyed (entryValue b n))
  attributes : Progresses (attributes b n)
  macroDef : ∀ start id, Progresses (macroDef b n start id)
  entity : ∀ start id index, Progresses (entity b n start id index)
  entry : Progresses (entry b n)

/-- Every repetition ends. -/
structure Repetitions (b bound : Nat) (n : Nesting) : Prop where
  items : Ends (itemRound b n)
  expressions : ∀ composite opener, Ends (expressionRound (Reader.expression b) n composite opener)
  members : ∀ opener, Ends (memberRound (Reader.expression b) n opener)
  attributes : Ends (attributeRound b n)
  parameters : Ends parameterRound
  arguments : Ends (argumentRound (Reader.expression b) n)
  operations : ∀ level tighter,
    Ends (operationRound level (operations (Reader.expression b) bound n tighter))

theorem productions (b bound : Nat) (n : Nesting) : Productions b bound n := by
  have hb : ∀ {k}, SameUpTo k b b := .inl rfl
  have hbound : ∀ {k}, SameUpTo k bound bound := .inl rfl
  have hinner : ∀ {k}, InStepBelow k (expression b) (expression b) := InStep.below_expression hb
  exact {
    ident := InStep.progresses fun i => .ident
    string := InStep.progresses fun i => .string
    string_eq := fun i c hc hq => string_eq hc hq
    quoted := fun quote => InStep.progresses fun i => .quoted quote
    expression := InStep.progresses fun i => .expression n i hb
    conditional := InStep.progresses fun i => .conditional hinner (Nat.le_refl _) hbound
    operations := fun levels => InStep.progresses fun i =>
      .operations hinner hbound levels (Nat.le_refl _) hbound
    unary := fun signs => InStep.progresses fun i =>
      .unary hinner hbound n i (Nat.le_refl _) (.inl rfl)
    primary := InStep.progresses fun i => .primary hinner (Nat.le_refl _) hbound
    value := InStep.progresses fun i => .value hinner (Nat.le_refl _) hbound
    members := InStep.progresses fun i => .members hinner (Nat.le_refl _) hbound
    expressions := fun composite => InStep.progresses fun i =>
      .expressions hinner (Nat.le_refl _) hbound
    opened := fun composite => InStep.progresses fun i =>
      .opened hinner (Nat.le_refl _) hbound
    opened_eq := fun composite i hc => opened_eq hc
    keyedExpression := InStep.progresses fun i => .keyed fun m _ => .expression n m hb
    keyedValue := InStep.progresses fun i => .keyed fun m _ => .entryValue hb
    attributes := InStep.progresses fun i => .attributes hb
    macroDef := fun start id => InStep.progresses fun i => .macroDef hb
    entity := fun start id index => InStep.progresses fun i => .entity hb
    entry := InStep.progresses fun i => .entry hb }

theorem repetitions (b bound : Nat) (n : Nesting) : Repetitions b bound n := by
  have hb : ∀ {k}, SameUpTo k b b := .inl rfl
  have hbound : ∀ {k}, SameUpTo k bound bound := .inl rfl
  have hinner : ∀ k, InStepBelow k (expression b) (expression b) :=
    fun k => InStep.below_expression hb
  exact {
    items := InStep.ends (fun _ => trivial) fun body i => .itemRound hb body
    expressions := fun composite opener => InStep.ends (fun _ => trivial) fun items i =>
      .expressionRound (hinner (i.rest.length + 1)) (fun _ => Nat.lt_succ_self _) items
    members := fun opener => InStep.ends (fun _ => trivial) fun read i =>
      .memberRound (hinner (i.rest.length + 1)) (fun _ => Nat.lt_succ_self _) read
    attributes := InStep.ends (fun _ => trivial) fun entries i => .attributeRound hb entries
    parameters := InStep.ends (fun _ => trivial) fun params i => .parameterRound params
    arguments := InStep.ends (fun _ => trivial) fun args i =>
      .argumentRound (hinner (i.rest.length + 1)) (Nat.lt_succ_self _) args
    operations := fun level tighter => InStep.ends (fun _ => trivial) fun left i =>
      .operationRound (fun m _ =>
        .operations (hinner _) hbound tighter (Nat.le_refl _) hbound) left }

/-- Reading makes progress, and so it ends. Every production goes on in the source when it succeeds
and does not go back when it fails, every repetition has a last round, and the two recursions have
one solution, under a limit or none. Bounds only matter to inputs that they do not exceed: a whole
source is read as a repetition of entries without a bound reads it. -/
theorem reading_ends (b bound : Nat) (n : Nesting) :
    Productions b bound n ∧ Repetitions b bound n ∧ Settles expressionStep expression ∧
    Settles (signed (primary (expression b) bound)) (unary (expression b) bound) ∧
    ∀ limit source, source.length < bound →
      Outcome (itemRound bound (.outermost limit)) #[] (.ofText source)
        (items (source.length + 1) (.outermost limit) (.ofText source)) := by
  refine ⟨productions b bound n, repetitions b bound n, settles_expression, settles_unary b bound,
    fun limit source hsource => ?_⟩
  have hitems : InStep _ (items (source.length + 1) (.outermost limit))
      (items bound (.outermost limit)) (.ofText source) :=
    .items (.inr ⟨Nat.lt_succ_self _, hsource⟩)
  rw [hitems.same]
  exact (repetitions bound bound _).items.bounded bound #[] (.ofText source) hsource

end Reader

end LocaleText
