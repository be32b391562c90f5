import LocaleText.Proofs.Carry.Longer

/-!
# Readers that the limit stops at the end

Where the nesting limit stops a reader at the end of the source, it stops the reader as well when more
text follows, unless the text makes the last characters into something else.

* `CleanCut` says that no operator is formed where the text begins, and no call is closed
* `StopsAtEnd` says that the limit stops a run at the end of the source
* `Stuck` are the readers that cannot do without more text, whatever the limit is
* `Bars` says that more text does not help a reader, and `Bars.bind` is the sequence

Only the arguments of a call look for something before they nest, and so they are what `CleanCut`
speaks of.
-/

namespace LocaleText

open Filter (atTop Tendsto)

/-! ### Cuts -/

/-- The text in front of a cut ends with the opener of a call and the text behind it goes on with the
closer, so that there are no arguments. -/
def OpensCall (text more : List Char) : Prop :=
  ∃ front gap gap' behind, text = front ++ '(' :: gap ∧ more = gap' ++ ')' :: behind ∧
    Blanks gap ∧ Blanks gap'

/-- Where a text is cut, neither an operator is cut in two nor a call without arguments. -/
structure CleanCut (text more : List Char) : Prop where
  joins : Joins text [] more
  open_call : ¬ OpensCall text more

namespace CleanCut

variable {text more : List Char}

theorem of_append (front : List Char) (h : CleanCut (front ++ text) more) : CleanCut text more := by
  refine ⟨h.joins.of_append front, fun hopens => h.open_call ?_⟩
  obtain ⟨front', gap, gap', behind, rfl, hmore, hgap, hgap'⟩ := hopens
  exact ⟨front ++ front', gap, gap', behind, by simp, hmore, hgap, hgap'⟩

/-- The last character in front of the cut is read as such. -/
theorem alike (h : CleanCut text more) (ht : text ≠ []) : Alike text (text ++ more) := by
  have halike := h.joins.alike ht
  rwa [List.append_nil] at halike

end CleanCut

namespace Reader

variable {α β γ δ ι κ : Type} {i l : Input} {x x' : Reader α} {y y' : Nat → Reader β}

/-- The nesting limit stops a run at the end of the source. -/
def StopsAtEnd (x : Reader α) (i : Input) : Prop :=
  ∃ e m, x i = .error e m ∧ e.kind = .recursionLimitExceeded ∧ ¬ e.Settled

/-- A run comes to a result. -/
def Yields (x : Reader α) (i : Input) : Prop := ∃ a l, x i = .ok a l

/-- A sequence comes to a result only through one of its first part. -/
theorem Yields.of_bind {u : α → Reader γ} (h : Yields (x >>= u) i) :
    ∃ a l, x i = .ok a l ∧ Yields (u a) l := by
  obtain ⟨b, l, hrun⟩ := h
  obtain ⟨a, m, ha, hb⟩ := bind_eq_ok.mp hrun
  exact ⟨a, m, ha, b, l, hb⟩

/-! ### Readers without a limit -/

/-- The limit does not stop a reader anywhere. -/
def Plain (x : Reader α) : Prop := ∀ i e m, x i = .error e m → e.kind ≠ .recursionLimitExceeded

namespace Plain

theorem of_yields (h : ∀ i, Yields x i) : Plain x := by
  intro i e m hrun
  obtain ⟨a, l, ha⟩ := h i
  exact absurd (ha.symm.trans hrun) (by simp)

theorem pure {a : α} : Plain (Pure.pure a : Reader α) := of_yields fun _ => ⟨_, _, rfl⟩

/-- A reader is not stopped when none of its parts is. -/
theorem bind {u : α → Reader γ} (hx : Plain x) (hu : ∀ a, Plain (u a)) : Plain (x >>= u) := by
  intro i e m hrun
  rcases bind_eq_error.mp hrun with hrun | ⟨a, l, _, hrun⟩
  · exact hx i e m hrun
  · exact hu a l e m hrun

theorem ite {p : Prop} [Decidable p] (ht : p → Plain x) (he : ¬ p → Plain x') :
    Plain (if p then x else x') := by
  by_cases hp : p
  · rw [if_pos hp]
    exact ht hp
  · rw [if_neg hp]
    exact he hp

theorem fail {kind : FaultKind} {span : Span} {detail : Option Detail} {note : Option (Note × Span)}
    (hk : kind ≠ .recursionLimitExceeded) : Plain (fail kind span detail note : Reader α) := by
  intro i e m hrun
  obtain ⟨rfl, _⟩ : _ = e ∧ i = m := by simpa [Reader.fail] using hrun
  exact hk

theorem unexpected {kind : FaultKind} (hk : kind ≠ .recursionLimitExceeded) :
    Plain (unexpected kind : Reader α) := by
  intro i e m hrun
  rw [Reader.unexpected] at hrun
  split at hrun
  · obtain ⟨rfl, _⟩ : _ = e ∧ i = m := by simpa using hrun
    simp
  · obtain ⟨rfl, _⟩ : _ = e ∧ i = m := by simpa using hrun
    exact hk

section Looking

variable {c : Char} {p : Char → Bool}

theorem peek? : Plain peek? := of_yields fun _ => ⟨_, _, rfl⟩

theorem offset : Plain offset := of_yields fun _ => ⟨_, _, rfl⟩

theorem here : Plain here := of_yields fun _ => ⟨_, _, rfl⟩

theorem spanFrom {start : Nat} : Plain (spanFrom start) := of_yields fun _ => ⟨_, _, rfl⟩

theorem skip : Plain skip := of_yields fun _ => ⟨_, _, rfl⟩

theorem takeWhile : Plain (takeWhile p) := of_yields fun _ => ⟨_, _, rfl⟩

theorem eat : Plain (eat c) := peek?.bind fun _ => .ite (fun _ => skip.bind fun _ => .pure) fun _ => .pure

theorem blanks : Plain blanks := takeWhile.bind fun _ => .pure

theorem gap : Plain gap := offset.bind fun _ => takeWhile.bind fun _ => spanFrom.bind fun _ => .pure

theorem optionalComma : Plain optionalComma :=
  eat.bind fun _ => .ite (fun _ => .blanks) fun _ => .pure

theorem expect {kind : FaultKind} (hk : kind ≠ .recursionLimitExceeded) : Plain (expect c kind) := by
  refine eat.bind fun _ => .ite (fun _ => .pure) fun _ => peek?.bind fun c? => ?_
  cases c? with
  | none => exact here.bind fun _ => .fail (by simp)
  | some d => exact here.bind fun _ => .fail hk

end Looking

theorem ident : Plain ident := by
  refine offset.bind fun start => peek?.bind fun c? => ?_
  have hend : ∀ name, Plain (Reader.spanFrom start >>= fun span =>
      (Pure.pure ⟨String.ofList name, span⟩ : Reader Ident)) := fun _ => spanFrom.bind fun _ => .pure
  have hname : FaultKind.malformedIdentifier ≠ .recursionLimitExceeded := by simp
  cases c?.filter isQuote with
  | none => exact takeWhile.bind fun _ => .ite (fun _ => .unexpected hname) fun _ => hend _
  | some quote =>
    refine skip.bind fun _ => takeWhile.bind fun _ => .ite (fun _ => .unexpected hname) fun _ => ?_
    exact (eat.bind fun _ => .pure).bind fun _ => hend _

theorem quoted {quote : Char} : Plain (quoted quote) := by
  refine offset.bind fun _ => skip.bind fun _ => ?_
  intro i e m hrun
  simp only at hrun
  split at hrun
  · obtain ⟨rfl, _⟩ : _ = e ∧ i = m := by simpa using hrun
    simp
  · exact absurd hrun (by simp)

theorem integer : Plain integer :=
  offset.bind fun _ => takeWhile.bind fun _ => spanFrom.bind fun _ =>
    .ite (fun _ => .pure) fun _ => .fail (by simp)

theorem reference {scope : Scope} : Plain (reference scope) :=
  offset.bind fun _ => skip.bind fun _ => ident.bind fun _ => spanFrom.bind fun _ => .pure

theorem repeatUpTo {σ : Type} {round : σ → Reader (Round σ α)} (h : ∀ s, Plain (round s)) {rounds : Nat} :
    ∀ s, Plain (repeatUpTo rounds s round) := by
  induction rounds with
  | zero => exact fun _ => .unexpected (by simp)
  | succ rounds ih =>
    refine fun s => (h s).bind fun r => ?_
    cases r with
    | again s => exact ih s
    | done a => exact .pure

theorem parameters {bound : Nat} : Plain (parameters bound) := by
  refine skip.bind fun _ => blanks.bind fun _ => repeatUpTo (fun params => ?_) _
  have hkind : FaultKind.malformedExpression ≠ .recursionLimitExceeded := by simp
  refine eat.bind fun _ => .ite (fun _ => .pure) fun _ => (expect hkind).bind fun _ =>
    ident.bind fun _ => blanks.bind fun _ => peek?.bind fun c? => ?_
  split
  · exact skip.bind fun _ => blanks.bind fun _ => .pure
  · exact .pure
  · exact .unexpected hkind

end Plain

/-! ### At the end of the source -/

/-- At the end of the source a reader misses something. -/
def Starves (x : Reader α) : Prop :=
  ∀ o, ∃ e m, x ⟨o, []⟩ = .error e m ∧ e.kind ≠ .recursionLimitExceeded

/-- At the end of the source the limit does not stop a reader. -/
def Quiet (x : Reader α) : Prop := ∀ o, ¬ StopsAtEnd x ⟨o, []⟩

/-- A reader never comes to a result. -/
def Refuses (x : Reader α) : Prop := ∀ i, ¬ Yields x i

/-- Some readers miss something at the end of the source, or the limit keeps those of the longer
inputs from any result. -/
def Stuck (u : ι → Reader α) (v : κ → Nat → Reader β) : Prop :=
  (∀ a, Starves (u a)) ∨ ∀ᶠ c in atTop, ∀ b, Refuses (v b c)

/-- The limit does not stop some readers at the end of the source, or it keeps those of the longer
inputs from any result. -/
def Firm (u : ι → Reader α) (v : κ → Nat → Reader β) : Prop :=
  (∀ a, Quiet (u a)) ∨ ∀ᶠ c in atTop, ∀ b, Refuses (v b c)

/-- What is behind a reader without a result does not matter. -/
theorem Refuses.bind {u : α → Reader γ} (h : Refuses x) : Refuses (x >>= u) := by
  intro i hy
  obtain ⟨a, l, ha, _⟩ := hy.of_bind
  exact h i ⟨a, l, ha⟩

theorem Refuses.bind_right {u : α → Reader γ} (h : ∀ a, Refuses (u a)) : Refuses (x >>= u) := by
  intro i hy
  obtain ⟨a, l, _, hu⟩ := hy.of_bind
  exact h a l hu

theorem Refuses.repeatUpTo {σ : Type} {round : σ → Reader (Round σ α)} (h : ∀ s, Refuses (round s))
    (rounds : Nat) (s : σ) : Refuses (repeatUpTo rounds s round) := by
  cases rounds with
  | zero =>
    intro i hyields
    obtain ⟨_, _, hrun⟩ := hyields
    exact unexpected_ne_ok hrun
  | succ rounds => exact (h s).bind

namespace Starves

theorem bind {u : α → Reader γ} (h : Starves x) : Starves (x >>= u) := by
  intro o
  obtain ⟨e, m, hrun, hk⟩ := h o
  exact ⟨e, m, bind_eq_error.mpr (.inl hrun), hk⟩

theorem unexpected {kind : FaultKind} : Starves (unexpected kind : Reader α) :=
  fun _ => ⟨_, _, rfl, by simp⟩

theorem expect {c : Char} {kind : FaultKind} : Starves (expect c kind) :=
  fun _ => ⟨_, _, rfl, by simp⟩

theorem ident : Starves ident := fun _ => ⟨_, _, rfl, by simp⟩

theorem repeatUpTo {σ : Type} {round : σ → Reader (Round σ α)} (h : ∀ s, Starves (round s))
    (rounds : Nat) (s : σ) : Starves (repeatUpTo rounds s round) := by
  cases rounds with
  | zero => exact unexpected
  | succ rounds => exact (h s).bind

/-- What misses something is not stopped by the limit. -/
theorem quiet (h : Starves x) : Quiet x := by
  intro o hstops
  obtain ⟨e, m, hrun, hk⟩ := h o
  obtain ⟨e', m', hrun', hk', _⟩ := hstops
  obtain ⟨rfl, _⟩ : e = e' ∧ m = m' := by simpa using hrun.symm.trans hrun'
  exact hk hk'

end Starves

namespace Quiet

theorem of_plain (h : Plain x) : Quiet x := by
  intro o hstops
  obtain ⟨e, m, hrun, hk, _⟩ := hstops
  exact h _ e m hrun hk

theorem pure {a : α} : Quiet (Pure.pure a : Reader α) := of_plain .pure

theorem not_stopsAtEnd (h : Quiet x) (hi : i.rest = []) : ¬ StopsAtEnd x i := by
  obtain ⟨o, v⟩ := i
  obtain rfl : v = [] := hi
  exact h o

/-- The limit does not stop what misses more text behind the last token. -/
theorem not_stopsAtEnd_take {token : List Char} {u : Unit → Reader α} (h : Quiet (u ()))
    (ht : i.Takes token l) (hl : l.rest = []) : ¬ StopsAtEnd (take token.length >>= u) i := by
  rw [StopsAtEnd, Reader.take_bind ht]
  exact h.not_stopsAtEnd hl

section Binds

variable {u : α → Reader γ} {v : Unit → Reader γ} {w : Bool → Reader γ} {s : Gap → Reader γ}

theorem blanks_bind (h : Quiet (v ())) : Quiet (blanks >>= v) := fun o => h o

theorem optionalComma_bind (h : Quiet (v ())) : Quiet (optionalComma >>= v) := fun o => h o

theorem gap_bind (h : ∀ gap, Quiet (s gap)) : Quiet (gap >>= s) := fun o => h _ o

theorem eat_bind {c : Char} (h : Quiet (w false)) : Quiet (eat c >>= w) := fun o => h o

end Binds

end Quiet

namespace Stuck

variable {u : ι → Reader α} {v : κ → Nat → Reader β}

theorem bind {f : ι → α → Reader γ} {g : κ → β → Nat → Reader δ} (h : Stuck u v) :
    Stuck (fun a => u a >>= f a) (fun b c => v b c >>= fun r => g b r c) := by
  rcases h with h | h
  · exact .inl fun a => (h a).bind
  · refine .inr ?_
    filter_upwards [h] with c hc
    exact fun b => (hc b).bind

theorem blanks_bind (h : Stuck u v) :
    Stuck (fun a => blanks >>= fun _ => u a) (fun b c => blanks >>= fun _ => v b c) := by
  rcases h with h | h
  · exact .inl fun a o => h a o
  · refine .inr ?_
    filter_upwards [h] with c hc
    exact fun b => .bind_right fun _ => hc b

/-- The readers may be the same for all that was read before. -/
theorem of_unit {x : Reader α} {y : Nat → Reader β}
    (h : Stuck (fun _ : Unit => x) fun (_ : Unit) c => y c) :
    Stuck (fun _ : ι => x) fun (_ : κ) c => y c := by
  rcases h with h | h
  · exact .inl fun _ => h ()
  · refine .inr ?_
    filter_upwards [h] with c hc
    exact fun _ => hc ()

/-- The first bound does not matter. -/
theorem of_succ (h : Stuck u fun b c => v b (c + 1)) : Stuck u v := by
  refine h.imp id fun h => ?_
  rwa [← Filter.map_add_atTop_eq_nat 1]

/-- The bounds may be others, as long as they grow. -/
theorem comp {r : Nat → Nat} (hr : Tendsto r atTop atTop) (h : Stuck u v) :
    Stuck u fun b c => v b (r c) :=
  h.imp id hr.eventually

/-- One level further in, the limit stops the readers on every input or on none. -/
theorem nested {n : Nesting} {inner : Nesting → Reader α} {inner' : Nat → Nesting → Reader β}
    (h : Starves (inner n.deeper)) :
    Stuck (fun _ : ι => nested n inner) fun (_ : κ) c => Reader.nested n (inner' c) := by
  unfold Reader.nested
  cases n.exhausted? with
  | none => exact .inl fun _ => h
  | some limit =>
    refine .inr (.of_forall fun c b i hyields => ?_)
    obtain ⟨_, _, hrun⟩ := hyields
    exact absurd hrun (by simp [Reader.here_bind, fail])

theorem firm (h : Stuck u v) : Firm u v := h.imp (fun h a => (h a).quiet) id

end Stuck

theorem Firm.quiet {u : ι → Reader α} {v : κ → Nat → Reader β} (h : ∀ a, Quiet (u a)) : Firm u v :=
  .inl h

/-! ### Runs on longer inputs -/

/-- Where the limit stops a reader at the end of the source, it keeps the readers of a family from
a result on longer inputs, unless the cut is not clean. -/
def Bars (x : Reader α) (y : Nat → Reader β) (i : Input) : Prop :=
  StopsAtEnd x i → ∀ more, CleanCut i.rest more → ∀ᶠ c in atTop, ¬ Yields (y c) (i.append more)

namespace Bars

variable {f : α → β}

theorem of_not (h : ¬ StopsAtEnd x i) : Bars x y i := fun hx => absurd hx h

theorem of_plain (h : Plain x) : Bars x y i := by
  refine of_not fun hstops => ?_
  obtain ⟨e, m, hrun, hk, _⟩ := hstops
  exact h i e m hrun hk

/-- At the end, where the limit does not stop a reader, there is nothing to show. -/
theorem of_quiet (hi : i.rest = []) (h : Quiet x) : Bars x y i := of_not (h.not_stopsAtEnd hi)

/-- It is enough to know the readers where they run. -/
theorem of_run {x' : Reader γ} {y' : Nat → Reader δ} {text : List Char} (h : Bars x' y' l)
    (ht : i.rest = text ++ l.rest) (hx : StopsAtEnd x i → StopsAtEnd x' l)
    (hy : ∀ more, CleanCut i.rest more → ∀ c, Yields (y c) (i.append more) →
      Yields (y' c) (l.append more)) : Bars x y i := by
  intro hstops more hcut
  have hcut' : CleanCut l.rest more := by
    rw [ht] at hcut
    exact hcut.of_append text
  filter_upwards [h (hx hstops) more hcut'] with c hc
  exact fun hyields => hc (hy more hcut c hyields)

theorem congr (hy : ∀ᶠ c in atTop, y' c = y c) (h : Bars x y' i) : Bars x y i := by
  intro hstops more hcut
  filter_upwards [hy, h hstops more hcut] with c hc hnot
  rwa [← hc]

/-- The first bound does not matter. -/
theorem of_succ (h : Bars x (fun c => y (c + 1)) i) : Bars x y i := by
  intro hstops more hcut
  have hsucc := h hstops more hcut
  rwa [← Filter.map_add_atTop_eq_nat 1]

/-- The bounds may be others, as long as they grow. -/
theorem comp {r : Nat → Nat} (hr : Tendsto r atTop atTop) (h : Bars x y i) :
    Bars x (fun c => y (r c)) i :=
  fun hstops more hcut => hr.eventually (h hstops more hcut)

theorem pure {a : α} : Bars (Pure.pure a : Reader α) y i := of_plain .pure

/-- By cases on the reader that is stopped: the first one, or the second one with something left for
it or with nothing left. -/
theorem bind_of_end {u : α → Reader γ} {v : β → Nat → Reader δ} (hk : Keeps f x y i) (hx : Bars x y i)
    (hend : ∀ a l, x i = .ok a l → l.rest = [] → StopsAtEnd (u a) l → ∀ more, CleanCut i.rest more →
      ∀ᶠ c in atTop, ¬ Yields (y c >>= fun b => v b c) (i.append more))
    (hu : ∀ a l, x i = .ok a l → l.rest.length ≤ i.rest.length → l.rest ≠ [] →
      Bars (u a) (v (f a)) l) :
    Bars (x >>= u) (fun c => y c >>= fun b => v b c) i := by
  intro hstops more hcut
  obtain ⟨e, m, hrun, hkind⟩ := hstops
  rcases bind_eq_error.mp hrun with hrun | ⟨a, l, ha, hrun⟩
  · filter_upwards [hx ⟨e, m, hrun, hkind⟩ more hcut] with c hc
    intro hyields
    obtain ⟨b, k, hb, _⟩ := hyields.of_bind
    exact hc ⟨b, k, hb⟩
  by_cases hl : l.rest = []
  · exact hend a l ha hl ⟨e, m, hrun, hkind⟩ more hcut
  · obtain ⟨text, ht⟩ := hk.exists_takes ha
    have hcut' : CleanCut l.rest more := by
      rw [ht.rest] at hcut
      exact hcut.of_append text
    filter_upwards [hk.append ha (hcut'.alike hl),
      hu a l ha (hk.length_le ha) hl ⟨e, m, hrun, hkind⟩ more hcut'] with c hc hnot
    intro hyields
    obtain ⟨b, k, hb, hv⟩ := hyields.of_bind
    obtain ⟨rfl, rfl⟩ := ok_inj.mp (hc.symm.trans hb)
    exact hnot hv

/-- If the second reader is stopped with nothing left for it, it is stopped whatever it is to read. -/
theorem bind {u : α → Reader γ} {v : β → Nat → Reader δ} (hk : Keeps f x y i) (hx : Bars x y i)
    (hfirm : Firm u v) (hu : ∀ a l, x i = .ok a l → l.rest.length ≤ i.rest.length → l.rest ≠ [] →
      Bars (u a) (v (f a)) l) :
    Bars (x >>= u) (fun c => y c >>= fun b => v b c) i := by
  refine bind_of_end hk hx (fun a l _ hl hstops more _ => ?_) hu
  rcases hfirm with hquiet | hrefuses
  · exact absurd hstops ((hquiet a).not_stopsAtEnd hl)
  · filter_upwards [hrefuses] with c hc
    exact Refuses.bind_right hc _

/-- The limit does not stop what only looks back. -/
theorem bind_still {u : α → Reader γ} {v : β → Nat → Reader δ} (hu : ∀ a l, Yields (u a) l)
    (h : Bars x y i) : Bars (x >>= u) (fun c => y c >>= fun b => v b c) i := by
  refine h.of_run (List.nil_append i.rest).symm (fun hstops => ?_) fun more _ c hyields => ?_
  · obtain ⟨e, m, hrun, hkind⟩ := hstops
    rcases bind_eq_error.mp hrun with hrun | ⟨a, l, _, hrun⟩
    · exact ⟨e, m, hrun, hkind⟩
    · obtain ⟨r, l', hr⟩ := hu a l
      exact absurd (hr.symm.trans hrun) (by simp)
  · obtain ⟨b, l, hb, _⟩ := hyields.of_bind
    exact ⟨b, l, hb⟩

theorem map {u : α → γ} {v : β → δ} (h : Bars x y i) :
    Bars (u <$> x) (fun c => v <$> y c) i := by
  simp only [map_eq_pure_bind]
  exact h.bind_still fun _ _ => ⟨_, _, rfl⟩

theorem ite {p : Prop} [Decidable p] (ht : p → Bars x y i) (he : ¬ p → Bars x' y' i) :
    Bars (if p then x else x') (fun c => if p then y c else y' c) i := by
  by_cases hp : p
  · simp only [if_pos hp]
    exact ht hp
  · simp only [if_neg hp]
    exact he hp

section Looking

variable {u : α → Reader γ} {v : β → Nat → Reader δ} {c : Char}

/-- A reader that only looks, at what more text does not change. -/
theorem look_bind {look : Reader α} {look' : Reader β} {a : α} {b : β} (ha : look i = .ok a i)
    (hb : ∀ more, CleanCut i.rest more → look' (i.append more) = .ok b (i.append more))
    (h : Bars (u a) (v b) i) :
    Bars (look >>= u) (fun c => look' >>= fun b => v b c) i := by
  refine h.of_run (List.nil_append i.rest).symm (fun hstops => ?_) fun more hcut c hyields => ?_
  · obtain ⟨e, m, hrun, hkind⟩ := hstops
    refine ⟨e, m, ?_, hkind⟩
    rcases bind_eq_error.mp hrun with hrun | ⟨a', l, ha', hrun⟩
    · exact absurd (ha.symm.trans hrun) (by simp)
    · obtain ⟨rfl, rfl⟩ := ok_inj.mp (ha.symm.trans ha')
      exact hrun
  · obtain ⟨b', l, hb', hv⟩ := hyields.of_bind
    obtain ⟨rfl, rfl⟩ := ok_inj.mp ((hb more hcut).symm.trans hb')
    exact hv

theorem offset_bind {u : Nat → Reader γ} {v : Nat → Nat → Reader δ}
    (h : Bars (u i.offset) (v i.offset) i) :
    Bars (offset >>= u) (fun c => offset >>= fun o => v o c) i :=
  look_bind rfl (fun _ _ => rfl) h

theorem here_bind {u : Span → Reader γ} {v : Span → Nat → Reader δ} (hi : i.rest ≠ [])
    (h : Bars (u i.here) (v i.here) i) :
    Bars (here >>= u) (fun c => here >>= fun span => v span c) i := by
  refine look_bind rfl (fun more _ => ?_) h
  have hhere : (i.append more).here = i.here :=
    Carries.here_shift (k := 0) rfl (Input.head?_append hi more).symm
  exact congrArg (EStateM.Result.ok · (i.append more)) hhere

theorem peek?_bind {u : Option Char → Reader γ} {v : Option Char → Nat → Reader δ}
    (hi : i.rest ≠ []) (h : Bars (u i.rest.head?) (v i.rest.head?) i) :
    Bars (peek? >>= u) (fun c => peek? >>= fun c? => v c? c) i := by
  refine look_bind rfl (fun more _ => ?_) h
  exact congrArg (EStateM.Result.ok · (i.append more)) (Input.head?_append hi more)

theorem looksAt_bind {token : List Char} {u : Bool → Reader γ} {v : Bool → Nat → Reader δ}
    (hmore : ∀ more, CleanCut i.rest more →
      token.isPrefixOf (i.append more).rest = token.isPrefixOf i.rest)
    (h : Bars (u (token.isPrefixOf i.rest)) (v (token.isPrefixOf i.rest)) i) :
    Bars (looksAt token >>= u) (fun c => looksAt token >>= fun b => v b c) i := by
  refine look_bind rfl (fun more hcut => ?_) h
  exact congrArg (EStateM.Result.ok · (i.append more)) (hmore more hcut)

theorem take_bind {token : List Char} {u : Unit → Reader γ} {v : Unit → Nat → Reader δ}
    (ht : i.Takes token l) (h : Bars (u ()) (v ()) l) :
    Bars (take token.length >>= u) (fun c => take token.length >>= fun a => v a c) i := by
  refine h.of_run ht.rest (fun hstops => ?_) fun more _ c hyields => ?_
  · rwa [StopsAtEnd, Reader.take_bind ht] at hstops
  · rwa [Yields, Reader.take_bind (ht.append more)] at hyields

theorem skip_bind {u : Unit → Reader γ} {v : Unit → Nat → Reader δ} (hc : i.rest.head? = some c)
    (h : ∀ l, i.Takes [c] l → Bars (u ()) (v ()) l) :
    Bars (skip >>= u) (fun n => skip >>= fun a => v a n) i := by
  obtain ⟨l, hl⟩ := Input.exists_takes_head hc
  exact take_bind hl (h l hl)

/-- By cases on what comes next. -/
theorem eat_bind {u : Bool → Reader γ} {v : Bool → Nat → Reader δ} (hi : i.rest ≠ [])
    (ht : ∀ l, i.Takes [c] l → Bars (u true) (v true) l)
    (hf : i.rest.head? ≠ some c → Bars (u false) (v false) i) :
    Bars (eat c >>= u) (fun n => eat c >>= fun b => v b n) i := by
  by_cases hc : i.rest.head? = some c
  · obtain ⟨l, hl⟩ := Input.exists_takes_head hc
    refine (ht l hl).of_run hl.rest (fun hstops => ?_) fun more _ n hyields => ?_
    · rwa [StopsAtEnd, Carries.eat_bind_of_head hc, Reader.skip_bind hl] at hstops
    · rwa [Yields, Carries.eat_bind_of_head (Input.head?_append_of_head? hc more),
        Reader.skip_bind (hl.append more)] at hyields
  · refine look_bind (a := false) ?_ (fun more _ => ?_) (hf hc)
    · exact eat_eq_ok.mpr (.inr ⟨hc, rfl, rfl⟩)
    · refine eat_eq_ok.mpr (.inr ⟨?_, rfl, rfl⟩)
      rwa [Input.head?_append hi]

/-- Behind blanks there is something left, or the source has ended. -/
theorem blanks_bind {u : Unit → Reader γ} {v : Unit → Nat → Reader δ}
    (hfirm : Firm u v)
    (hu : ∀ l : Input, l.rest.length ≤ i.rest.length → l.rest ≠ [] → Bars (u ()) (v ()) l) :
    Bars (blanks >>= u) (fun n => blanks >>= fun a => v a n) i :=
  bind (.const fun _ => .blanks) (of_plain .blanks) hfirm fun _ l _ => hu l

end Looking

/-- A composite does not hide the limit. -/
theorem within {composite : Composite} {opener opener' : Span} (h : Bars x y i) :
    Bars (within composite opener x) (fun c => Reader.within composite opener' (y c)) i := by
  refine h.of_run (List.nil_append i.rest).symm (fun hstops => ?_) fun more _ c hyields => ?_
  · obtain ⟨e, m, hrun, hk, hopen⟩ := hstops
    cases hxi : x i with
    | ok a l =>
      rw [within_eq_ok.mpr hxi] at hrun
      exact absurd hrun (by simp)
    | error fault left =>
      by_cases hend : fault.kind = .endOfInput
      · simp only [Reader.within, hxi, hend, if_true, unterminated, Reader.here_bind, fail,
          EStateM.Result.error.injEq] at hrun
        rw [← hrun.1] at hk
        exact absurd hk (by simp)
      · obtain ⟨rfl, rfl⟩ : fault = e ∧ left = m := by
          simpa using (within_eq_error hxi hend).symm.trans hrun
        exact ⟨fault, left, hxi, hk, hopen⟩
  · obtain ⟨b, l, hb⟩ := hyields
    exact ⟨b, l, within_eq_ok.mp hb⟩

theorem nested {n : Nesting} {inner : Nesting → Reader α} {inner' : Nat → Nesting → Reader β}
    (h : Bars (inner n.deeper) (fun c => inner' c n.deeper) i) :
    Bars (nested n inner) (fun c => Reader.nested n (inner' c)) i := by
  unfold Reader.nested
  cases n.exhausted? with
  | none => exact h
  | some limit =>
    refine fun _ _ _ => .of_forall fun c hyields => ?_
    obtain ⟨_, _, hrun⟩ := hyields
    exact absurd hrun (by simp [Reader.here_bind, fail])

/-- By induction on the rounds of the reader that is stopped. A round may count on the rounds behind
it once it has taken a character. -/
theorem repeatUpTo {σ τ : Type} {round : σ → Reader (Round σ α)}
    {round' : Nat → τ → Reader (Round τ β)} {limit : Nat}
    (hstep : ∀ rounds (r : Nat → Nat) s s' i, i.rest.length < limit →
      (∀ s s' (l : Input), l.rest.length < i.rest.length →
        Bars (repeatUpTo rounds s round) (fun c => Reader.repeatUpTo (r c) s' (round' c)) l) →
      Bars (Reader.repeatUpTo (rounds + 1) s round)
        (fun c => Reader.repeatUpTo (r c + 1) s' (round' c)) i) {rounds : Nat} :
    ∀ {r : Nat → Nat} {s : σ} {s' : τ} {i : Input}, Tendsto r atTop atTop → i.rest.length < limit →
      i.rest.length < rounds → Bars (Reader.repeatUpTo rounds s round)
        (fun c => Reader.repeatUpTo (r c) s' (round' c)) i := by
  induction rounds with
  | zero => exact fun _ _ hi => absurd hi (Nat.not_lt_zero _)
  | succ rounds ih =>
    intro r s s' i hr hl hi
    have hpred : Tendsto (fun c => r c - 1) atTop atTop := (Filter.tendsto_sub_atTop_nat 1).comp hr
    have hround := hstep rounds (fun c => r c - 1) s s' i hl fun _ _ l hlt =>
      ih hpred (by omega) (by omega)
    refine congr ?_ hround
    filter_upwards [hr.eventually_ge_atTop 1] with c hc
    rw [Nat.sub_add_cancel hc]

end Bars

end Reader

end LocaleText
