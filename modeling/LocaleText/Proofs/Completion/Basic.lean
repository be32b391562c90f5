import LocaleText.Proofs.Carry.Longer

/-!
# Readers that run out of input

Where a reader runs out of input, more text lets it come to its end. The text is put together from
what each part of the reader may begin with, and its length is counted along.

* `EndsBefore` says that a run comes to its end, and what it leaves
* `Fresh` is the text that a reader can begin with when nothing is left
* `Exhausts` says that a run uses up the input, and `Completable` that the readers of a family can
  be led to their end behind it
* `Completes` says of a reader that runs out of input that some text completes what it has begun
* `Completes.bind` is the sequence: either the first reader runs out, or the second one does

The readers that go on have larger bounds than those that run out, so that families of them are
considered, at all bounds that are large enough. A second default ends a run as well: it is found
only when the member it stands before has been completed.
-/

namespace LocaleText

open Filter (atTop Tendsto)

/-! ### What may follow -/

/-- The kinds of the faults that say that a source ends too early. -/
def FaultKind.truncated : List FaultKind := [.endOfInput, .unterminatedComposite, .unterminatedString]

/-- The characters that end a token of two characters, the first of which may stand alone or may be
refused. -/
def seconds : List Char := ['|', '&', '=', '.']

/-- A text that does not go on with a token begun before it. -/
def Detached (v : List Char) : Prop := NextNot seconds.contains v

/-- A text that may follow blanks. -/
def Solid (v : List Char) : Prop := NextNot isBlank v ∧ Detached v

/-- A text that may follow any token. -/
def AfterToken (v : List Char) : Prop := (∀ ending : Ending, NextNot ending.continues v) ∧ Detached v

/-- A text whose first character is known. -/
def Begins (c : Char) (v : List Char) : Prop := v.head? = some c

def closers : List Char := [']', ')', '\x7d', ':']

/-- A text that may follow an expression. -/
def Closed (v : List Char) : Prop := ∃ c ∈ closers, v.head? = some c

namespace Closed

variable {v : List Char}

/-- None of the closers belongs to a class that holds none of them. -/
theorem next {p : Char → Bool} (hp : ∀ c ∈ closers, p c = false) (h : Closed v) : NextNot p v := by
  obtain ⟨c, hc, hv⟩ := h
  exact nextNot_of_head? hv (hp c hc)

theorem ne {c : Char} (hc : c ∉ closers) (h : Closed v) : v.head? ≠ some c := by
  obtain ⟨d, hd, hv⟩ := h
  rw [hv]
  intro he
  exact hc (Option.some.inj he ▸ hd)

theorem detached (h : Closed v) : Detached v := h.next (forall_mem_of_all (by decide))

theorem solid (h : Closed v) : Solid v := ⟨h.next (forall_mem_of_all (by decide)), h.detached⟩

/-- A closer is no part of a token before it. -/
theorem afterToken (h : Closed v) : AfterToken v := by
  have hdelimiters : ∀ c ∈ closers, c ∈ delimiters := forall_mem_of_all (by decide)
  exact ⟨fun ending => h.next fun c hc => ending.continues_of_mem_delimiters (hdelimiters c hc),
    h.detached⟩

theorem cons {c : Char} (hc : c ∈ closers) : Closed (c :: v) := ⟨c, hc, rfl⟩

end Closed

namespace Begins

variable {c : Char} {v : List Char}

theorem solid (hb : isBlank c = false) (hs : c ∉ seconds) (h : Begins c v) : Solid v :=
  ⟨nextNot_of_head? h hb, nextNot_of_head? h (by simpa using hs)⟩

theorem closed (hc : c ∈ closers) (h : Begins c v) : Closed v := ⟨c, hc, h⟩

theorem afterToken (hc : ∀ ending : Ending, ending.continues c = false) (hs : c ∉ seconds)
    (h : Begins c v) : AfterToken v :=
  ⟨fun ending => nextNot_of_head? h (hc ending), nextNot_of_head? h (by simpa using hs)⟩

end Begins

theorem Solid.cons {c : Char} {v : List Char} (hb : isBlank c = false) (hs : c ∉ seconds) :
    Solid (c :: v) :=
  ⟨nextNot_cons.mpr hb, nextNot_cons.mpr (by simpa using hs)⟩

/-- The second character of a token is not put behind the first one. -/
theorem Detached.isPrefixOf_append {v more : List Char} {c d : Char} (h : Detached more)
    (hv : v ≠ []) (hd : d ∈ seconds) :
    [c, d].isPrefixOf (v ++ more) = [c, d].isPrefixOf v := by
  match v with
  | [] => exact absurd rfl hv
  | [a] =>
    have hmore : more.head? ≠ some d := by
      intro hhead
      have hnot := h d hhead
      simp [hd] at hnot
    cases more with
    | nil => rfl
    | cons e more =>
      have hne : d ≠ e := fun he => hmore (by rw [he]; rfl)
      simp [List.isPrefixOf, hne]
  | a :: e :: v => simp [List.isPrefixOf]

/-- Where something is left already, a text that is detached makes no difference to what comes
next. -/
theorem Detached.alike {v more : List Char} (h : Detached more) (hv : v ≠ []) :
    Alike v (v ++ more) := by
  have hseconds : ∀ op ∈ BinaryOp.pairs, ∃ c d, op.token = [c, d] ∧ d ∈ seconds := by
    intro op hop
    simp only [BinaryOp.pairs, List.mem_cons, List.not_mem_nil, or_false] at hop
    rcases hop with rfl | rfl | rfl | rfl <;> exact ⟨_, _, rfl, by decide⟩
  have hlast : ∀ c, Alike [c] (c :: more) := by
    intro c
    refine ⟨rfl, fun op hop => ?_⟩
    obtain ⟨a, d, htoken, hd⟩ := hseconds op hop
    rw [Alike.token_prefix_cons hop, Alike.token_prefix_cons hop]
    constructor
    · intro h
      obtain ⟨_, _, hnil⟩ := h
      cases hnil
    · intro hmore
      obtain ⟨e, htoken', he⟩ := hmore
      obtain ⟨_, rfl⟩ : a = c ∧ d = e := by simpa [htoken] using htoken'
      have hnot := h d he
      simp [hd] at hnot
  induction v with
  | nil => exact absurd rfl hv
  | cons c v ih =>
    cases v with
    | nil => exact hlast c
    | cons d v => exact .cons rfl

namespace Reader

variable {α β γ δ ι : Type}

/-! ### Runs that come to their end -/

/-- A run comes to its end before `rest`, or stops at a second default. -/
def EndsBefore (y : Reader β) (j : Input) (rest : List Char) : Prop :=
  (∃ b l, y j = .ok b l ∧ l.rest = rest) ∨ ∃ e m, y j = .error e m ∧ e.kind = .duplicateDefault

namespace EndsBefore

variable {x : Reader α} {y : Reader β} {v : β → Reader γ} {j : Input} {mid rest : List Char}
  {c : Char} {o : Nat}

/-- A run with a result. -/
theorem of_ok {b : β} {l : Input} (h : y j = .ok b l) : EndsBefore y j l.rest :=
  .inl ⟨b, l, h, rfl⟩

theorem pure {b : β} : EndsBefore (Pure.pure b) ⟨o, rest⟩ rest := of_ok rfl

theorem bind (hy : EndsBefore y j mid) (hv : ∀ b o, EndsBefore (v b) ⟨o, mid⟩ rest) :
    EndsBefore (y >>= v) j rest := by
  rcases hy with ⟨b, l, hrun, rfl⟩ | ⟨e, m, hrun, hk⟩
  · rcases hv b l.offset with ⟨a, m, hrest, hm⟩ | ⟨e, m, hrest, hk⟩
    · exact .inl ⟨a, m, bind_eq_ok.mpr ⟨b, l, hrun, hrest⟩, hm⟩
    · exact .inr ⟨e, m, bind_eq_error.mpr (.inr ⟨b, l, hrun, hrest⟩), hk⟩
  · exact .inr ⟨e, m, bind_eq_error.mpr (.inl hrun), hk⟩

/-- It is enough to know what the reader does on the input. -/
theorem of_eq {y' : Reader β} {j' : Input} (hy : y j = y' j') (h : EndsBefore y' j' rest) :
    EndsBefore y j rest := by
  rw [EndsBefore, hy]
  exact h

theorem skip_bind {v : Unit → Reader γ} (h : ∀ o, EndsBefore (v ()) ⟨o, mid⟩ rest) :
    EndsBefore (skip >>= v) ⟨o, c :: mid⟩ rest :=
  of_eq (Reader.skip_bind (m := ⟨o + byteLength [c], mid⟩) ⟨rfl, rfl⟩ v) (h _)

section Looking

variable {u : Option Char → Reader γ} {w : Nat → Reader γ} {s : Span → Reader γ}

theorem peek?_bind (h : EndsBefore (u j.rest.head?) j rest) : EndsBefore (peek? >>= u) j rest :=
  of_eq (Reader.peek?_bind ..) h

theorem offset_bind (h : EndsBefore (w j.offset) j rest) : EndsBefore (offset >>= w) j rest :=
  of_eq (Reader.offset_bind ..) h

theorem here_bind (h : EndsBefore (s j.here) j rest) : EndsBefore (here >>= s) j rest :=
  of_eq (Reader.here_bind ..) h

theorem spanFrom_bind {start : Nat} (h : EndsBefore (s ⟨start, j.offset⟩) j rest) :
    EndsBefore (spanFrom start >>= s) j rest :=
  of_eq (Reader.spanFrom_bind ..) h

end Looking

/-- Blanks end where something else comes next. -/
theorem blanks (h : NextNot isBlank rest) : EndsBefore blanks ⟨o, rest⟩ rest :=
  of_ok (blanks_eq_ok.mpr ⟨[], .refl h⟩)

theorem gap (h : NextNot isBlank rest) : EndsBefore gap ⟨o, rest⟩ rest :=
  of_ok (gap_eq_ok.mpr ⟨[], .refl h, rfl⟩)

theorem eat_bind {v : Bool → Reader γ} (h : ∀ o, EndsBefore (v true) ⟨o, mid⟩ rest) :
    EndsBefore (eat c >>= v) ⟨o, c :: mid⟩ rest :=
  of_eq (Carries.eat_bind_of_head rfl) (skip_bind h)

theorem eat_bind_of_ne {v : Bool → Reader γ} (hc : j.rest.head? ≠ some c)
    (h : EndsBefore (v false) j rest) : EndsBefore (eat c >>= v) j rest := by
  refine of_eq ?_ h
  show EStateM.bind _ _ j = _
  rw [EStateM.bind, eat_eq_ok.mpr (.inr ⟨hc, rfl, rfl⟩)]

theorem expect {kind : FaultKind} : EndsBefore (expect c kind) ⟨o, c :: rest⟩ rest :=
  of_ok (l := ⟨o + byteLength [c], rest⟩) (expect_eq_ok.mpr ⟨rfl, rfl⟩)

/-- A part of a composite may end where the composite does not. -/
theorem within {composite : Composite} {opener : Span} (h : EndsBefore y j rest) :
    EndsBefore (within composite opener y) j rest := by
  rcases h with ⟨b, l, hrun, hl⟩ | ⟨e, m, hrun, hk⟩
  · exact .inl ⟨b, l, within_eq_ok.mpr hrun, hl⟩
  · exact .inr ⟨e, m, within_eq_error hrun (by rw [hk]; decide), hk⟩

end EndsBefore

/-- A repetition whose first round is the last. -/
theorem EndsBefore.repeatUpTo {σ : Type} {round : σ → Reader (Round σ α)} {rounds : Nat} {s : σ}
    {a : α} {j l : Input} (h : round s j = .ok (.done a) l) :
    EndsBefore (repeatUpTo (rounds + 1) s round) j l.rest :=
  .of_ok (bind_eq_ok.mpr ⟨_, l, h, rfl⟩)

/-- A text for the readers of a family to begin with, of the kind `K` and of at most `q` bytes,
whatever was read before. -/
def Fresh (q : Nat) (K F : List Char → Prop) (v : ι → Nat → Reader γ) : Prop :=
  ∃ t, byteLength t ≤ q ∧ ∀ rest, F rest → K (t ++ rest) ∧
    ∀ᶠ c in atTop, ∀ b o, EndsBefore (v b c) ⟨o, t ++ rest⟩ rest

namespace Fresh

variable {v : ι → Nat → Reader γ} {K K' F : List Char → Prop} {q k : Nat}

theorem mono (hK : ∀ v, K v → K' v) (h : Fresh q K F v) : Fresh q K' F v := by
  obtain ⟨text, hsize, htext⟩ := h
  exact ⟨text, hsize, fun rest hrest => ⟨hK _ (htext rest hrest).1, (htext rest hrest).2⟩⟩

theorem bind {y : ι → Nat → Reader α} {v : ι → α → Nat → Reader γ} (hy : Fresh q K K' y)
    (hv : Fresh k K' F fun p : ι × α => v p.1 p.2) :
    Fresh (q + k) K F fun b c => y b c >>= fun a => v b a c := by
  obtain ⟨text, hsize, htext⟩ := hy
  obtain ⟨behind, hsize', hbehind⟩ := hv
  refine ⟨text ++ behind, ?_, fun rest hrest => ?_⟩
  · rw [byteLength_append]
    exact Nat.add_le_add hsize hsize'
  obtain ⟨hnext, hends'⟩ := hbehind rest hrest
  obtain ⟨hstart, hends⟩ := htext _ hnext
  rw [List.append_assoc]
  refine ⟨hstart, ?_⟩
  filter_upwards [hends, hends'] with c hc hc'
  exact fun b o => (hc b o).bind fun a o => hc' (b, a) o

theorem congr {v' : ι → Nat → Reader γ} (hv : ∀ᶠ c in atTop, ∀ b, v b c = v' b c)
    (h : Fresh q K F v) : Fresh q K F v' := by
  obtain ⟨text, hsize, htext⟩ := h
  refine ⟨text, hsize, fun rest hrest => ⟨(htext rest hrest).1, ?_⟩⟩
  filter_upwards [hv, (htext rest hrest).2] with c hc hends
  exact fun b o => hc b ▸ hends b o

/-- The first bounds do not matter. -/
theorem succ_iff : Fresh q K F (fun b c => v b (c + 1)) ↔ Fresh q K F v := by
  simp only [Fresh]
  conv => rhs; rw [← Filter.map_add_atTop_eq_nat 1]
  rfl

theorem pure {f : ι → γ} : Fresh 0 K K fun b _ => (Pure.pure (f b) : Reader γ) :=
  ⟨[], Nat.le_refl 0, fun _ hrest => ⟨hrest, .of_forall fun _ _ _ => .pure⟩⟩

theorem expect_bind {c : Char} {kind : FaultKind} (hc : c.utf8Size = 1) (h : Fresh q K F v) :
    Fresh (q + 1) (Begins c) F fun b m => expect c kind >>= fun _ => v b m := by
  obtain ⟨text, hsize, htext⟩ := h
  refine ⟨c :: text, ?_, fun rest hrest => ⟨rfl, ?_⟩⟩
  · rw [byteLength_cons, hc]
    omega
  filter_upwards [(htext rest hrest).2] with m hm
  exact fun b o => EndsBefore.expect.bind fun _ o => hm b o

theorem of_unit {y : Nat → Reader γ} (h : Fresh q K F fun _ : Unit => y) :
    Fresh q K F fun _ : ι => y := by
  obtain ⟨text, hsize, htext⟩ := h
  refine ⟨text, hsize, fun rest hrest => ⟨(htext rest hrest).1, ?_⟩⟩
  filter_upwards [(htext rest hrest).2] with c hc
  exact fun _ => hc ()

/-- A reader that takes nothing makes no difference. -/
theorem pass {y : Reader α} (hy : ∀ o rest, K rest → EndsBefore y ⟨o, rest⟩ rest)
    (h : Fresh q K F v) : Fresh q K F fun b c => y >>= fun _ => v b c := by
  obtain ⟨text, hsize, htext⟩ := h
  refine ⟨text, hsize, fun rest hrest => ⟨(htext rest hrest).1, ?_⟩⟩
  filter_upwards [(htext rest hrest).2] with c hc
  exact fun b o => (hy o _ (htext rest hrest).1).bind fun _ o => hc b o

/-- A repetition begins with what its round is done with. -/
theorem repeatUpTo {σ : Type} {round : Nat → σ → Reader (Round σ α)} {r : Nat → Nat}
    {s : ι → σ} (t : List Char) (hr : Tendsto r atTop atTop)
    (hK : ∀ rest, F rest → K (t ++ rest))
    (hdone : ∀ c s o rest, F rest → ∃ a o', round c s ⟨o, t ++ rest⟩ = .ok (.done a) ⟨o', rest⟩) :
    Fresh (byteLength t) K F fun b c => Reader.repeatUpTo (r c) (s b) (round c) := by
  refine ⟨t, Nat.le_refl _, fun rest hrest => ⟨hK rest hrest, ?_⟩⟩
  filter_upwards [hr.eventually_ge_atTop 1] with c hc
  intro b o
  obtain ⟨a, o', hrun⟩ := hdone c (s b) o rest hrest
  rw [← Nat.sub_add_cancel hc]
  exact EndsBefore.repeatUpTo hrun

end Fresh

/-- Without a limit, everything is read one level further in. -/
theorem nested_of_none {n : Nesting} (hn : n.limit = none) (inner : Nesting → Reader α) :
    nested n inner = inner n.deeper := by
  rw [nested, Nesting.exhausted?, hn]
  rfl

/-! ### Readers that run out -/

/-- A run of a reader uses up the input: it leaves nothing, or it misses something at the end. -/
def Exhausts (x : Reader α) (i : Input) : Prop :=
  (∃ a l, x i = .ok a l ∧ l.rest = []) ∨ ∃ e m, x i = .error e m ∧ e.kind ∈ FaultKind.truncated

/-- Some text behind an input lets the readers of a family come to their end, whatever follows that
is of the kind `F`. Each character that is left may cost two bytes of the text, and `m` are free. -/
def Completable (m : Nat) (F : List Char → Prop) (y : Nat → Reader β) (i : Input) : Prop :=
  ∃ t, byteLength t ≤ 2 * i.rest.length + m ∧ ∀ rest, F rest → Detached (t ++ rest) ∧
    ∀ᶠ c in atTop, EndsBefore (y c) (i.append (t ++ rest)) rest

/-- Where a reader uses up the input, the readers of a family can be completed. -/
def Completes (m : Nat) (F : List Char → Prop) (x : Reader α) (y : Nat → Reader β) (i : Input) :
    Prop :=
  Exhausts x i → Completable m F y i

variable {i l : Input} {f : α → β} {x x' : Reader α} {y y' : Nat → Reader β}
  {K F : List Char → Prop} {m m' q : Nat}

namespace Completable

/-- Where nothing is left, all of the text is new. -/
theorem of_fresh (hi : i.rest = []) (hK : ∀ v, K v → Detached v) (hm : q ≤ m)
    (h : Fresh q K F fun _ : Unit => y) : Completable m F y i := by
  obtain ⟨t, hsize, ht⟩ := h
  refine ⟨t, by omega, fun rest hrest => ?_⟩
  obtain ⟨hstart, hends⟩ := ht rest hrest
  refine ⟨hK _ hstart, ?_⟩
  rw [Input.append, hi, List.nil_append]
  filter_upwards [hends] with c hc
  exact hc () i.offset

theorem congr (hy : ∀ᶠ c in atTop, y c = y' c) (h : Completable m F y i) :
    Completable m F y' i := by
  obtain ⟨t, hsize, ht⟩ := h
  refine ⟨t, hsize, fun rest hrest => ⟨(ht rest hrest).1, ?_⟩⟩
  filter_upwards [hy, (ht rest hrest).2] with c hc hends
  rwa [← hc]

/-- The first bounds do not matter. -/
theorem succ_iff : Completable m F (fun c => y (c + 1)) i ↔ Completable m F y i := by
  simp only [Completable]
  conv => rhs; rw [← Filter.map_add_atTop_eq_nat 1]
  rfl

/-- It is enough to know the readers on the input and all that may be put behind it. -/
theorem of_run {y' : Nat → Reader γ} {l : Input}
    (hl : 2 * l.rest.length + m' ≤ 2 * i.rest.length + m)
    (hy : ∀ more rest, Detached more → ∀ᶠ c in atTop,
      EndsBefore (y' c) (l.append more) rest → EndsBefore (y c) (i.append more) rest)
    (h : Completable m' F y' l) : Completable m F y i := by
  obtain ⟨t, hsize, ht⟩ := h
  refine ⟨t, Nat.le_trans hsize hl, fun rest hrest => ⟨(ht rest hrest).1, ?_⟩⟩
  filter_upwards [hy _ rest (ht rest hrest).1, (ht rest hrest).2] with c hc hends
  exact hc hends

end Completable

namespace Completes

theorem of_not {F : List Char → Prop} (h : ¬ Exhausts x i) : Completes m F x y i :=
  fun hx => absurd hx h

/-- It is enough to know the readers where they run. -/
theorem of_run {x' : Reader γ} {y' : Nat → Reader δ} (h : Completes m' F x' y' l)
    (hl : 2 * l.rest.length + m' ≤ 2 * i.rest.length + m) (hx : Exhausts x i → Exhausts x' l)
    (hy : ∀ more rest, Detached more → ∀ᶠ c in atTop,
      EndsBefore (y' c) (l.append more) rest → EndsBefore (y c) (i.append more) rest) :
    Completes m F x y i :=
  fun hexhausts => .of_run hl hy (h (hx hexhausts))

/-- More bytes are allowed. -/
theorem le (hm : m' ≤ m) (h : Completes m' F x y i) : Completes m F x y i :=
  h.of_run (by omega) id fun _ _ _ => .of_forall fun _ => id

/-- By cases on the reader that runs out. If the first one does, its completion is followed by what
the second one can begin with, and if it does not, what it has read stays as it is. -/
theorem bind {u : α → Reader γ} {v : β → Nat → Reader δ} (hk : Keeps f x y i)
    (hx : Completes m' K x y i) (hfresh : Fresh q K F v) (hm : m' + q ≤ m)
    (hu : ∀ a l, x i = .ok a l → l.rest.length ≤ i.rest.length → l.rest ≠ [] →
      Completes m F (u a) (v (f a)) l) :
    Completes m F (x >>= u) (fun c => y c >>= fun b => v b c) i := by
  have hfirst : Exhausts x i → Completable m F (fun c => y c >>= fun b => v b c) i := by
    intro hexhausts
    obtain ⟨t, hsize, ht⟩ := hx hexhausts
    obtain ⟨t', hsize', ht'⟩ := hfresh
    refine ⟨t ++ t', ?_, fun rest hrest => ?_⟩
    · rw [byteLength_append]
      omega
    obtain ⟨hstart, hends'⟩ := ht' rest hrest
    obtain ⟨hdetached, hends⟩ := ht _ hstart
    rw [List.append_assoc]
    refine ⟨hdetached, ?_⟩
    filter_upwards [hends, hends'] with c hc hc'
    exact hc.bind hc'
  have hsecond : ∀ {a l}, x i = .ok a l → (l.rest = [] → Exhausts x i) →
      (l.rest ≠ [] → Exhausts (u a) l) →
      Completable m F (fun c => y c >>= fun b => v b c) i := by
    intro a l hrun hnil hne
    by_cases hl : l.rest = []
    · exact hfirst (hnil hl)
    · have hlen := hk.length_le hrun
      refine .of_run (by omega) (fun more rest hmore => ?_) (hu a l hrun hlen hl (hne hl))
      filter_upwards [hk.append hrun (hmore.alike hl)] with c hc
      intro hends
      have hbind : (y c >>= fun b => v b c) (i.append more) = v (f a) c (l.append more) := by
        show EStateM.bind _ _ _ = _
        rw [EStateM.bind, hc]
      rw [EndsBefore, hbind]
      exact hends
  intro h
  rcases h with ⟨b, k, hrun, hk'⟩ | ⟨e, k, hrun, he⟩
  · obtain ⟨a, l, hxrun, hurun⟩ := bind_eq_ok.mp hrun
    exact hsecond hxrun (fun hl => .inl ⟨a, l, hxrun, hl⟩) fun _ => .inl ⟨b, k, hurun, hk'⟩
  · rcases bind_eq_error.mp hrun with hxrun | ⟨a, l, hxrun, hurun⟩
    · exact hfirst (.inr ⟨e, k, hxrun, he⟩)
    · exact hsecond hxrun (fun hl => .inl ⟨a, l, hxrun, hl⟩) fun _ => .inr ⟨e, k, hurun, he⟩

theorem pure {a : α} {b : β} (hF : ∀ rest, F rest → Detached rest) :
    Completes m F (Pure.pure a) (fun _ => Pure.pure b) i := by
  intro h
  have hi : i.rest = [] := by
    rcases h with ⟨_, l, hrun, hl⟩ | ⟨_, _, hrun, _⟩
    · obtain ⟨_, rfl⟩ := pure_eq_ok.mp hrun
      exact hl
    · exact absurd hrun (by simp [Pure.pure, EStateM.pure])
  refine ⟨[], Nat.zero_le _, fun rest hrest => ⟨hF rest hrest, .of_forall fun _ => ?_⟩⟩
  rw [Input.append, hi]
  exact .pure

/-- What comes behind a reader may only look back at what was read. -/
theorem bind_still {u : α → Reader γ} {v : β → Nat → Reader δ}
    (hu : ∀ a l, ∃ r, u a l = .ok r l) (hv : ∀ b c l, ∃ r, v b c l = .ok r l)
    (h : Completes m F x y i) : Completes m F (x >>= u) (fun c => y c >>= fun b => v b c) i := by
  refine h.of_run (Nat.le_refl _) (fun hx => ?_) fun more rest _ =>
    .of_forall fun c hends => hends.bind fun b o => ?_
  · rcases hx with ⟨b, l, hrun, hl⟩ | ⟨e, k, hrun, hk⟩
    · obtain ⟨a, k, ha, hrun⟩ := bind_eq_ok.mp hrun
      obtain ⟨r, hr⟩ := hu a k
      obtain ⟨_, rfl⟩ := ok_inj.mp (hr.symm.trans hrun)
      exact .inl ⟨a, k, ha, hl⟩
    · rcases bind_eq_error.mp hrun with hrun | ⟨a, k, _, hrun⟩
      · exact .inr ⟨e, _, hrun, hk⟩
      · obtain ⟨r, hr⟩ := hu a k
        exact absurd (hr.symm.trans hrun) (by simp)
  · obtain ⟨r, hr⟩ := hv b c ⟨o, rest⟩
    exact .of_ok hr

/-- What is made of a result takes no text. -/
theorem map {u : α → γ} {v : β → δ} (h : Completes m F x y i) :
    Completes m F (u <$> x) (fun c => v <$> y c) i := by
  simp only [map_eq_pure_bind]
  exact h.bind_still (fun _ _ => ⟨_, rfl⟩) fun _ _ _ => ⟨_, rfl⟩

theorem mono (hF : ∀ v, F v → K v) (h : Completes m K x y i) : Completes m F x y i := by
  intro hx
  obtain ⟨t, hsize, ht⟩ := h hx
  exact ⟨t, hsize, fun rest hrest => ht rest (hF rest hrest)⟩

theorem ite {p : Prop} [Decidable p] (ht : p → Completes m F x y i)
    (he : ¬ p → Completes m F x' y' i) :
    Completes m F (if p then x else x') (fun c => if p then y c else y' c) i := by
  by_cases hp : p
  · simp only [if_pos hp]
    exact ht hp
  · simp only [if_neg hp]
    exact he hp

theorem congr (hx : x = x') (hy : ∀ᶠ c in atTop, y' c = y c) (h : Completes m F x' y' i) :
    Completes m F x y i :=
  fun hexhausts => (h (hx ▸ hexhausts)).congr hy

section Looking

variable {u : α → Reader γ} {v : β → Nat → Reader δ} {c : Char}

/-- A reader that only looks, at what more text does not change. -/
theorem look_bind {look : Reader α} {look' : Reader β} {a : α} {b : β} (ha : look i = .ok a i)
    (hb : ∀ more, look' (i.append more) = .ok b (i.append more)) (h : Completes m F (u a) (v b) i) :
    Completes m F (look >>= u) (fun c => look' >>= fun b => v b c) i := by
  have hlook : (look >>= u) i = u a i := by
    show EStateM.bind _ _ i = _
    rw [EStateM.bind, ha]
  refine h.of_run (Nat.le_refl _) (fun hx => ?_) fun more rest _ => .of_forall fun c hends => ?_
  · rwa [Exhausts, hlook] at hx
  · refine .of_eq ?_ hends
    show EStateM.bind _ _ _ = _
    rw [EStateM.bind, hb]

theorem offset_bind {u : Nat → Reader γ} {v : Nat → Nat → Reader δ}
    (h : Completes m F (u i.offset) (v i.offset) i) :
    Completes m F (offset >>= u) (fun c => offset >>= fun o => v o c) i :=
  look_bind rfl (fun _ => rfl) h

theorem spanFrom_bind {start start' : Nat} {u : Span → Reader γ} {v : Span → Nat → Reader δ}
    (h : Completes m F (u ⟨start, i.offset⟩) (v ⟨start', i.offset⟩) i) :
    Completes m F (spanFrom start >>= u) (fun c => spanFrom start' >>= fun span => v span c) i :=
  look_bind rfl (fun _ => rfl) h

theorem here_bind {u : Span → Reader γ} {v : Span → Nat → Reader δ} (hi : i.rest ≠ [])
    (h : Completes m F (u i.here) (v i.here) i) :
    Completes m F (here >>= u) (fun c => here >>= fun span => v span c) i := by
  refine look_bind rfl (fun more => ?_) h
  have hhere : (i.append more).here = i.here :=
    Carries.here_shift (k := 0) rfl (Input.head?_append hi more).symm
  exact congrArg (EStateM.Result.ok · (i.append more)) hhere

theorem peek?_bind {u : Option Char → Reader γ} {v : Option Char → Nat → Reader δ}
    (hnone : i.rest = [] → Completable m F (fun c => peek? >>= fun c? => v c? c) i)
    (hsome : ∀ c, i.rest.head? = some c → Completes m F (u (some c)) (v (some c)) i) :
    Completes m F (peek? >>= u) (fun c => peek? >>= fun c? => v c? c) i := by
  cases hc : i.rest with
  | nil => exact fun _ => hnone hc
  | cons c cs =>
    have hhead : i.rest.head? = some c := by rw [hc]; rfl
    refine look_bind (a := some c) ?_ (fun more => ?_) (hsome c hhead)
    · rw [← hhead]
      rfl
    · rw [← hhead, ← Input.head?_append (by rw [hc]; exact List.cons_ne_nil c cs) more]
      rfl

theorem looksAt_bind {token : List Char} {u : Bool → Reader γ} {v : Bool → Nat → Reader δ}
    (hmore : ∀ more, token.isPrefixOf (i.append more).rest = token.isPrefixOf i.rest)
    (h : Completes m F (u (token.isPrefixOf i.rest)) (v (token.isPrefixOf i.rest)) i) :
    Completes m F (looksAt token >>= u) (fun c => looksAt token >>= fun b => v b c) i := by
  refine look_bind rfl (fun more => ?_) h
  rw [← hmore more]
  rfl

/-- A character that is taken pays for two bytes. -/
theorem skip_bind {u : Unit → Reader γ} {v : Unit → Nat → Reader δ} (hc : i.rest.head? = some c)
    (h : ∀ l, i.Takes [c] l → Completes (m + 2) F (u ()) (v ()) l) :
    Completes m F (skip >>= u) (fun n => skip >>= fun a => v a n) i := by
  obtain ⟨l, hl⟩ := Input.exists_takes_head hc
  have hlt := hl.length_lt (by simp)
  refine (h l hl).of_run (by omega) (fun hx => ?_) fun more rest _ => .of_forall fun n hends => ?_
  · rwa [Exhausts, Reader.skip_bind hl] at hx
  · exact .of_eq (Reader.skip_bind (hl.append more) _) hends

/-- By cases on what comes next. At the end of the source the character may still follow. -/
theorem eat_bind {u : Bool → Reader γ} {v : Bool → Nat → Reader δ}
    (hnone : i.rest = [] → Completable m F (fun n => eat c >>= fun b => v b n) i)
    (ht : ∀ l, i.Takes [c] l → Completes (m + 2) F (u true) (v true) l)
    (hf : i.rest ≠ [] → i.rest.head? ≠ some c → Completes m F (u false) (v false) i) :
    Completes m F (eat c >>= u) (fun n => eat c >>= fun b => v b n) i := by
  by_cases hi : i.rest = []
  · exact fun _ => hnone hi
  by_cases hc : i.rest.head? = some c
  · refine (skip_bind (u := fun _ => u true) (v := fun _ => v true) hc ht).of_run (Nat.le_refl _)
      (fun hx => ?_) fun more rest _ => .of_forall fun n hends => ?_
    · rwa [Exhausts, Carries.eat_bind_of_head hc] at hx
    · refine .of_eq (Carries.eat_bind_of_head ?_) hends
      rw [Input.head?_append hi, hc]
  · refine look_bind (a := false) ?_ (fun more => ?_) (hf hi hc)
    · exact eat_eq_ok.mpr (.inr ⟨hc, rfl, rfl⟩)
    · refine eat_eq_ok.mpr (.inr ⟨?_, rfl, rfl⟩)
      rwa [Input.head?_append hi]

end Looking

theorem within {composite : Composite} {opener opener' : Span} (h : Completes m F x y i) :
    Completes m F (within composite opener x)
      (fun c => Reader.within composite opener' (y c)) i := by
  refine h.of_run (Nat.le_refl _) (fun hx => ?_) fun more rest _ => .of_forall fun c => .within
  rcases hx with ⟨a, l, hrun, hl⟩ | ⟨e, k, hrun, hk⟩
  · exact .inl ⟨a, l, within_eq_ok.mp hrun, hl⟩
  · cases hxi : x i with
    | ok a l =>
      rw [within_eq_ok.mpr hxi] at hrun
      exact absurd hrun (by simp)
    | error fault left =>
      by_cases hend : fault.kind = .endOfInput
      · exact .inr ⟨fault, left, hxi, by rw [hend]; decide⟩
      · obtain ⟨rfl, rfl⟩ : fault = e ∧ left = k := by
          simpa using (within_eq_error hxi hend).symm.trans hrun
        exact .inr ⟨fault, left, hxi, hk⟩

/-- By induction on the rounds of the reader that runs out. A round may count on the rounds behind it
once it has taken a character. -/
theorem repeatUpTo {σ τ : Type} {round : σ → Reader (Round σ α)}
    {round' : Nat → τ → Reader (Round τ β)} {limit : Nat}
    (hstep : ∀ rounds (r : Nat → Nat) s s' i, Tendsto r atTop atTop → i.rest.length < limit →
      (∀ s s' (l : Input), l.rest.length < i.rest.length →
        Completes m F (repeatUpTo rounds s round)
          (fun c => Reader.repeatUpTo (r c) s' (round' c)) l) →
      Completes m F (Reader.repeatUpTo (rounds + 1) s round)
        (fun c => Reader.repeatUpTo (r c + 1) s' (round' c)) i) {rounds : Nat} :
    ∀ {r : Nat → Nat} {s : σ} {s' : τ} {i : Input}, Tendsto r atTop atTop → i.rest.length < limit →
      i.rest.length < rounds → Completes m F (Reader.repeatUpTo rounds s round)
        (fun c => Reader.repeatUpTo (r c) s' (round' c)) i := by
  induction rounds with
  | zero => exact fun _ _ hi => absurd hi (Nat.not_lt_zero _)
  | succ rounds ih =>
    intro r s s' i hr hl hi
    have hpred : Tendsto (fun c => r c - 1) atTop atTop := (Filter.tendsto_sub_atTop_nat 1).comp hr
    refine (hstep rounds _ s s' i hpred hl fun _ _ l hlt => ?_).congr rfl ?_
    · exact ih hpred (by omega) (by omega)
    · filter_upwards [hr.eventually_ge_atTop 1] with c hc
      rw [Nat.sub_add_cancel hc]

end Completes

end Reader

end LocaleText
