import LocaleText.Proofs.Reading.Terminal
import LocaleText.Proofs.Shift

/-!
# What a reader does elsewhere

What a reader does is decided by the text that it takes and by what comes right behind it. The same
text elsewhere, with anything behind it that begins alike, is read the same way.

* `Alike` says when two texts look the same to a reader that stops before them
* `Fault.Settled` are the faults that nothing behind them can mend
* `Carries` says what one run of a reader tells about the runs on other inputs
* `Carries.bind`, `.within`, `.nested` and `.repeatUpTo` are the steps that readers consist of

Only the two-character operators whose first character is no operator make a reader look past the
next character and leave it where it is. `Alike` speaks of them, and everything else of the next
character alone.
-/

namespace LocaleText

/-! ### Texts that begin alike -/

/-- A text that is not empty has the first character. -/
theorem head?_append_congr {text rest rest' : List Char} (h : text ≠ []) :
    (text ++ rest).head? = (text ++ rest').head? := by
  cases text with
  | nil => exact absurd rfl h
  | cons c text => rfl

def BinaryOp.pairs : List BinaryOp := [.or, .and, .eq, .notEq]

/-- Two texts look the same to a reader that stops before them: they begin with the same character,
and with the same operator. -/
structure Alike (v v' : List Char) : Prop where
  head : v.head? = v'.head?
  operator : ∀ op ∈ BinaryOp.pairs, op.token <+: v ↔ op.token <+: v'

/-- Two texts look the same to a reader that stops before the last character of a text before
them. -/
def Joins (text v v' : List Char) : Prop := ∀ c ∈ text.getLast?, Alike (c :: v) (c :: v')

namespace Alike

variable {v v' : List Char} {c : Char}

theorem refl (v : List Char) : Alike v v := ⟨rfl, fun _ _ => Iff.rfl⟩

/-- Whether an operator of two characters comes next is told by two characters. -/
theorem token_prefix_cons {op : BinaryOp} (hop : op ∈ BinaryOp.pairs) :
    op.token <+: c :: v ↔ ∃ d, op.token = [c, d] ∧ v.head? = some d := by
  have htwo : ∀ op ∈ BinaryOp.pairs, ∃ a b, op.token = [a, b] := by
    intro op hop
    simp only [BinaryOp.pairs, List.mem_cons, List.not_mem_nil, or_false] at hop
    rcases hop with rfl | rfl | rfl | rfl <;> exact ⟨_, _, rfl⟩
  obtain ⟨a, b, hab⟩ := htwo op hop
  rw [hab]
  cases v with
  | nil => simp
  | cons d ds => simp [List.cons_prefix_cons, eq_comm]

/-- Behind one common character, the next character is all that matters. -/
theorem cons (h : v.head? = v'.head?) : Alike (c :: v) (c :: v') := by
  refine ⟨rfl, ?_⟩
  intro op hop
  rw [token_prefix_cons hop, token_prefix_cons hop, h]

/-- Behind the same text two texts look the same as they do alone. -/
theorem append (text : List Char) (h : Alike v v') : Alike (text ++ v) (text ++ v') := by
  induction text with
  | nil => exact h
  | cons c text ih => exact cons ih.head

/-- What stops a run of characters is seen in the first character. -/
theorem nextNot {p : Char → Bool} (h : Alike v v') (hv : NextNot p v) : NextNot p v' := by
  intro c hc
  exact hv c (by rw [h.head]; exact hc)

end Alike

namespace Joins

variable {v v' text : List Char} {c : Char}

theorem of_head (h : v.head? = v'.head?) : Joins text v v' := fun _ _ => .cons h

/-- Together with the text before them, which is not empty. -/
theorem alike (h : Joins text v v') (ht : text ≠ []) : Alike (text ++ v) (text ++ v') := by
  cases text with
  | nil => exact absurd rfl ht
  | cons c text =>
    cases text with
    | nil => exact h c rfl
    | cons d text => exact .cons rfl

theorem of_append (front : List Char) (h : Joins (front ++ text) v v') : Joins text v v' := by
  intro c hc
  refine h c ?_
  rw [List.getLast?_append, Option.mem_def.mp hc]
  rfl

end Joins

/-! ### Faults and the text before them -/

/-- A fault that lies in characters of the source, and not at its end: nothing behind it mends it. -/
def Fault.Settled (e : Fault) : Prop := e.span.start < e.span.stop ∧ e.kind ≠ .unterminatedString

/-- The kinds of the faults that more text might mend. -/
def FaultKind.unsettled : List FaultKind :=
  [.endOfInput, .unterminatedComposite, .unterminatedString, .recursionLimitExceeded]

/-- The end of what is left. -/
def Input.atEnd (i : Input) : Input := ⟨i.finish, []⟩

/-- A fault arises from a text at the front of an input. A fault at the end of the source leaves
nothing, and only a fault at the end arises from no text. A second default arises from its mark and
the member behind it. -/
structure Arises (i : Input) (e : Fault) (m : Input) (text rest : List Char) : Prop where
  split : i.rest = text ++ rest
  nil : text = [] → rest = [] ∧ ¬ e.Settled
  ordered : e.span.start ≤ e.span.stop
  stop : e.kind ≠ .duplicateDefault → e.span.stop = i.offset + byteLength text
  finish : e.kind = .endOfInput → rest = [] ∧ m = i.atEnd
  unsettled : ¬ e.Settled → e.kind ∈ FaultKind.unsettled
  marked : e.kind = .duplicateDefault → 1 < text.length

/-- What the text behind a settled fault may be, so that the fault is not mended: an operator must
not be formed, unless the fault is a second default. -/
def Fault.Stays (e : Fault) (text rest rest' : List Char) : Prop :=
  e.kind = .duplicateDefault ∨ Joins text rest rest'

theorem Input.Takes.atEnd {i l : Input} {text : List Char} (h : i.Takes text l) :
    l.atEnd = i.atEnd := by
  simp only [Input.atEnd, Input.finish, h.rest, h.offset, byteLength_append, Nat.add_assoc]

/-- A fault that arises behind a text arises from it as well. -/
theorem Arises.behind {i l m : Input} {e : Fault} {front text rest : List Char}
    (ht : i.Takes front l) (h : Arises l e m text rest) : Arises i e m (front ++ text) rest := by
  refine ⟨?_, ?_, h.ordered, ?_, ?_, h.unsettled, ?_⟩
  · rw [ht.rest, h.split, List.append_assoc]
  · intro hnil
    exact h.nil (List.append_eq_nil_iff.mp hnil).2
  · intro hk
    rw [h.stop hk, ht.offset, byteLength_append, Nat.add_assoc]
  · intro hk
    rw [← ht.atEnd]
    exact h.finish hk
  · intro hk
    rw [List.length_append]
    exact Nat.lt_of_lt_of_le (h.marked hk) (Nat.le_add_left ..)

/-- What the text behind a fault may be does not depend on the text before the one it arises from. -/
theorem Fault.Stays.of_append {e : Fault} {text rest rest' : List Char} (front : List Char)
    (h : e.Stays (front ++ text) rest rest') : e.Stays text rest rest' :=
  h.imp id (·.of_append front)

/-- A text from which a settled fault arises looks the same with anything behind it that lets the
fault stay. -/
theorem Arises.alike {i m : Input} {e : Fault} {text rest rest' : List Char}
    (h : Arises i e m text rest) (hs : e.Settled) (hr : e.Stays text rest rest') :
    Alike i.rest (text ++ rest') := by
  rw [h.split]
  rcases hr with hk | hr
  · obtain ⟨c, d, cs, rfl⟩ : ∃ c d cs, text = c :: d :: cs := by
      match text, h.marked hk with
      | c :: d :: cs, _ => exact ⟨c, d, cs, rfl⟩
    exact .cons rfl
  · exact hr.alike fun hnil => (h.nil hnil).2 hs

namespace Reader

variable {α β σ : Type} {i l m : Input} {c : Char}

/-- What a run of a reader on an input tells about a reader that is to do the same elsewhere, `k`
bytes further on, on inputs shorter than a bound.

A result carries over to every input that begins with the text taken and goes on alike; `f` says
what becomes of it. A fault carries over to every input that begins with the text it arises from and
goes on with the same character. A settled fault at least keeps the other reader from a result, also
if another character follows. -/
structure Carries (bound k : Nat) (f : α → β) (x : Reader α) (y : Reader β) (i : Input) : Prop where
  ok : ∀ {a l}, x i = .ok a l → ∃ text, i.Takes text l ∧ ∀ rest, Alike l.rest rest →
    (text ++ rest).length < bound →
    y ⟨i.offset + k, text ++ rest⟩ = .ok (f a) ⟨l.offset + k, rest⟩
  error : ∀ {e m}, x i = .error e m → ∃ text rest, Arises i e m text rest ∧
    (∀ rest', rest.head? = rest'.head? → (text ++ rest').length < bound →
      ∃ m', y ⟨i.offset + k, text ++ rest'⟩ = .error (e.shift k) m' ∧
        (e.kind = .endOfInput → m' = ⟨m.offset + k, []⟩)) ∧
    (e.Settled → ∀ rest', e.Stays text rest rest' → (text ++ rest').length < bound →
      ∀ b l, y ⟨i.offset + k, text ++ rest'⟩ ≠ .ok b l)

namespace Carries

variable {bound bound' k : Nat} {f : α → β} {x x' : Reader α} {y y' : Reader β}

theorem mono (hb : bound ≤ bound') (h : Carries bound' k f x y i) : Carries bound k f x y i := by
  constructor
  · intro a l hx
    obtain ⟨text, ht, hy⟩ := h.ok hx
    exact ⟨text, ht, fun rest ha hlen => hy rest ha (by omega)⟩
  · intro e m hx
    obtain ⟨text, rest, ht, hsame, hnot⟩ := h.error hx
    exact ⟨text, rest, ht, fun rest' hr hlen => hsame rest' hr (by omega),
      fun hs rest' hr hlen => hnot hs rest' hr (by omega)⟩

/-- Inputs shorter than nothing tell nothing about the second reader. -/
theorem of_zero (h : Carries bound k f x y' i) (hb : bound = 0) : Carries bound k f x y i := by
  subst hb
  constructor
  · intro a l hx
    obtain ⟨text, ht, _⟩ := h.ok hx
    exact ⟨text, ht, fun _ _ hlen => absurd hlen (Nat.not_lt_zero _)⟩
  · intro e m hx
    obtain ⟨text, rest, ht, _⟩ := h.error hx
    exact ⟨text, rest, ht, fun _ _ hlen => absurd hlen (Nat.not_lt_zero _),
      fun _ _ _ hlen => absurd hlen (Nat.not_lt_zero _)⟩

/-- It is enough to know the readers where they run: the first on the input, the second on inputs
with the same next character. -/
theorem of_eq (h : Carries bound k f x' y' i) (hx : x i = x' i)
    (hy : ∀ j, j.offset = i.offset + k → i.rest.head? = j.rest.head? → y j = y' j) :
    Carries bound k f x y i := by
  constructor
  · intro a l hrun
    rw [hx] at hrun
    obtain ⟨text, ht, hsame⟩ := h.ok hrun
    refine ⟨text, ht, fun rest ha hlen => ?_⟩
    rw [← hsame rest ha hlen]
    refine hy _ rfl ?_
    rw [ht.rest]
    exact (ha.append text).head
  · intro e m hrun
    rw [hx] at hrun
    obtain ⟨text, rest, ht, hsame, hnot⟩ := h.error hrun
    refine ⟨text, rest, ht, fun rest' hr hlen => ?_, fun hs rest' hr hlen => ?_⟩
    · rw [hy _ rfl (by rw [ht.split, List.head?_append, List.head?_append, hr])]
      exact hsame rest' hr hlen
    · have hne : text ≠ [] := fun hnil => (ht.nil hnil).2 hs
      rw [hy _ rfl (by rw [ht.split]; exact head?_append_congr hne)]
      exact hnot hs rest' hr hlen

/-! ### Sequences -/

/-- A reader that only yields a result. -/
theorem pure {a : α} {b : β} (h : b = f a) :
    Carries bound k f (Pure.pure a : Reader α) (Pure.pure b) i := by
  constructor
  · intro a' l hx
    obtain ⟨rfl, rfl⟩ := pure_eq_ok.mp hx
    refine ⟨[], .refl i, fun rest _ _ => ?_⟩
    rw [h]
    rfl
  · intro e m hx
    exact absurd hx (by simp [Pure.pure, EStateM.pure])

/-- By cases on where the run fails: the second reader starts where the first one has stopped, and
what it looks at there begins alike. What the first one has taken is not counted for the second. -/
theorem bind_shorter {γ δ : Type} {g : γ → δ} {u : α → Reader γ} {v : β → Reader δ}
    (hx : Carries bound k f x y i)
    (h : ∀ a l text, x i = .ok a l → i.Takes text l →
      Carries (bound - text.length) k g (u a) (v (f a)) l) :
    Carries bound k g (x >>= u) (y >>= v) i := by
  -- the first reader carries over to what the second one carries over to
  have hfirst : ∀ {a m text rest}, x i = .ok a m → i.Takes text m → Alike m.rest rest →
      (text ++ rest).length < bound →
      (y >>= v) ⟨i.offset + k, text ++ rest⟩ = v (f a) ⟨m.offset + k, rest⟩ := by
    intro a m text rest hrun ht ha hlen
    obtain ⟨text', ht', hy⟩ := hx.ok hrun
    obtain rfl : text' = text := List.append_cancel_right (ht'.rest.symm.trans ht.rest)
    show EStateM.bind y v _ = _
    rw [EStateM.bind, hy rest ha hlen]
  have hshort : ∀ {text rest : List Char}, (text ++ rest).length < bound →
      rest.length < bound - text.length := by
    intro text rest hlen
    rw [List.length_append] at hlen
    omega
  constructor
  · intro b l hrun
    obtain ⟨a, m, hxm, hum⟩ := bind_eq_ok.mp hrun
    obtain ⟨text, ht, -⟩ := hx.ok hxm
    obtain ⟨text', ht', hy'⟩ := (h a m text hxm ht).ok hum
    refine ⟨text ++ text', ht.trans ht', fun rest ha hlen => ?_⟩
    rw [List.append_assoc] at hlen ⊢
    have halike : Alike m.rest (text' ++ rest) := by
      rw [ht'.rest]
      exact ha.append text'
    rw [hfirst hxm ht halike hlen]
    exact hy' rest ha (hshort hlen)
  · intro e l hrun
    rcases bind_eq_error.mp hrun with hxe | ⟨a, m, hxm, hum⟩
    · obtain ⟨text, rest, ht, hsame, hnot⟩ := hx.error hxe
      refine ⟨text, rest, ht, fun rest' hr hlen => ?_, fun hs rest' hr hlen b l' hok => ?_⟩
      · obtain ⟨m', hm', hend⟩ := hsame rest' hr hlen
        exact ⟨m', bind_eq_error.mpr (.inl hm'), hend⟩
      · obtain ⟨a, m, hym, _⟩ := bind_eq_ok.mp hok
        exact hnot hs rest' hr hlen a m hym
    · obtain ⟨text, ht, -⟩ := hx.ok hxm
      obtain ⟨text', rest, ht', hsame, hnot⟩ := (h a m text hxm ht).error hum
      refine ⟨text ++ text', rest, ht'.behind ht, fun rest' hr hlen => ?_,
        fun hs rest' hr hlen => ?_⟩
      · rw [List.append_assoc] at hlen ⊢
        have halike : Alike m.rest (text' ++ rest') := by
          rw [ht'.split]
          cases text' with
          | nil =>
            obtain rfl := (ht'.nil rfl).1
            rw [List.head?_nil, eq_comm, List.head?_eq_none_iff] at hr
            rw [hr]
            exact .refl _
          | cons c cs => exact (Joins.of_head hr).alike (List.cons_ne_nil c cs)
        obtain ⟨m', hm', hend⟩ := hsame rest' hr (hshort hlen)
        exact ⟨m', by rw [hfirst hxm ht halike hlen]; exact hm', hend⟩
      · have hstays := hr.of_append text
        rw [List.append_assoc] at hlen ⊢
        intro b l'
        rw [hfirst hxm ht (ht'.alike hs hstays) hlen]
        exact hnot hs rest' hstays (hshort hlen) b l'

/-- A sequence does elsewhere what it does here, if its parts do and the first does not give back
what was taken. -/
theorem bind {γ δ : Type} {g : γ → δ} {u : α → Reader γ} {v : β → Reader δ}
    (hx : Carries bound k f x y i)
    (h : ∀ a l, x i = .ok a l → l.rest.length ≤ i.rest.length →
      Carries bound k g (u a) (v (f a)) l) :
    Carries bound k g (x >>= u) (y >>= v) i := by
  refine hx.bind_shorter fun a l text hrun ht => ?_
  have hlen := ht.length
  exact (h a l hrun (by omega)).mono (Nat.sub_le ..)

theorem map {γ δ : Type} {g : γ → δ} {u : α → γ} {v : β → δ} (hx : Carries bound k f x y i)
    (h : ∀ a, v (f a) = g (u a)) : Carries bound k g (u <$> x) (v <$> y) i := by
  rw [map_eq_pure_bind, map_eq_pure_bind]
  exact hx.bind fun a _ _ _ => .pure (h a)

theorem ite {p : Prop} [Decidable p] {x' : Reader α} {y' : Reader β}
    (ht : p → Carries bound k f x y i) (he : ¬ p → Carries bound k f x' y' i) :
    Carries bound k f (if p then x else x') (if p then y else y') i := by
  by_cases hp : p
  · rw [if_pos hp, if_pos hp]
    exact ht hp
  · rw [if_neg hp, if_neg hp]
    exact he hp

/-- Behind a character that is taken, an input is shorter by one. -/
theorem skip_bind {γ δ : Type} {g : γ → δ} {u : Unit → Reader γ} {v : Unit → Reader δ}
    (hc : i.rest.head? = some c)
    (h : ∀ l, i.Takes [c] l → Carries bound k g (u ()) (v ()) l) :
    Carries (bound + 1) k g (skip >>= u) (skip >>= v) i := by
  obtain ⟨l, hl⟩ := Input.exists_takes_head hc
  have hskip : ∀ rest, (skip >>= v) ⟨i.offset + k, c :: rest⟩ = v () ⟨l.offset + k, rest⟩ := by
    intro rest
    have hj : (⟨i.offset + k, c :: rest⟩ : Input).Takes [c] ⟨l.offset + k, rest⟩ :=
      ⟨rfl, by rw [hl.offset, Nat.add_right_comm]⟩
    exact Reader.skip_bind hj v
  constructor
  · intro b m hrun
    rw [Reader.skip_bind hl] at hrun
    obtain ⟨text, ht, hy⟩ := (h l hl).ok hrun
    refine ⟨c :: text, hl.trans ht, fun rest ha hlen => ?_⟩
    rw [List.cons_append, hskip]
    exact hy rest ha (by simpa using hlen)
  · intro e m hrun
    rw [Reader.skip_bind hl] at hrun
    obtain ⟨text, rest, ht, hsame, hnot⟩ := (h l hl).error hrun
    refine ⟨c :: text, rest, ht.behind hl, fun rest' hr hlen => ?_, fun hs rest' hr hlen => ?_⟩
    · rw [List.cons_append, hskip]
      exact hsame rest' hr (by simpa using hlen)
    · rw [List.cons_append, hskip]
      exact hnot hs rest' (hr.of_append [c]) (by simpa using hlen)

/-! ### Looking -/

section Looking

variable {γ δ : Type} {g : γ → δ}

theorem peek?_bind {u : Option Char → Reader γ} {v : Option Char → Reader δ}
    (h : Carries bound k g (u i.rest.head?) (v i.rest.head?) i) :
    Carries bound k g (peek? >>= u) (peek? >>= v) i := by
  refine h.of_eq rfl ?_
  intro j _ hj
  rw [hj, Reader.peek?_bind]

theorem offset_bind {u : Nat → Reader γ} {v : Nat → Reader δ}
    (h : Carries bound k g (u i.offset) (v (i.offset + k)) i) :
    Carries bound k g (offset >>= u) (offset >>= v) i := by
  refine h.of_eq rfl ?_
  intro j hj _
  rw [← hj, Reader.offset_bind]

theorem spanFrom_bind {start : Nat} {u : Span → Reader γ} {v : Span → Reader δ}
    (h : Carries bound k g (u ⟨start, i.offset⟩) (v (Span.shift k ⟨start, i.offset⟩)) i) :
    Carries bound k g (spanFrom start >>= u) (spanFrom (start + k) >>= v) i := by
  refine h.of_eq rfl ?_
  intro j hj _
  rw [Reader.spanFrom_bind, hj]
  rfl

theorem here_shift {j : Input} (ho : j.offset = i.offset + k) (hj : i.rest.head? = j.rest.head?) :
    j.here = i.here.shift k := by
  unfold Input.here
  cases hi : i.rest with
  | nil =>
    rw [hi, List.head?_nil, eq_comm, List.head?_eq_none_iff] at hj
    rw [hj, ho]
    rfl
  | cons c cs =>
    cases hr : j.rest with
    | nil => simp [hi, hr] at hj
    | cons d ds =>
      obtain rfl : c = d := by simpa [hi, hr] using hj
      simp only [ho, Span.shift, Nat.add_right_comm]

theorem here_bind {u : Span → Reader γ} {v : Span → Reader δ}
    (h : Carries bound k g (u i.here) (v (i.here.shift k)) i) :
    Carries bound k g (here >>= u) (here >>= v) i := by
  refine h.of_eq rfl ?_
  intro j ho hj
  rw [Reader.here_bind, here_shift ho hj]

/-- Looking for a token that the next character alone decides. -/
theorem looksAt_bind {token : List Char} {u : Bool → Reader γ} {v : Bool → Reader δ}
    (hj : ∀ rest : List Char, i.rest.head? = rest.head? →
      token.isPrefixOf i.rest = token.isPrefixOf rest)
    (h : Carries bound k g (u (token.isPrefixOf i.rest)) (v (token.isPrefixOf i.rest)) i) :
    Carries bound k g (looksAt token >>= u) (looksAt token >>= v) i := by
  refine h.of_eq rfl ?_
  intro j _ hhead
  rw [Reader.looksAt_bind, hj j.rest hhead]

end Looking

/-! ### Faults -/

/-- A fault at the next character is settled, and one at the end of the source is not. -/
theorem fault {e : Fault} (hx : x i = .error e i)
    (hy : ∀ j, j.offset = i.offset + k → i.rest.head? = j.rest.head? → y j = .error (e.shift k) j)
    (hspan : e.span = i.here) (hend : i.rest = [] → e.kind ∈ FaultKind.unsettled)
    (hchar : i.rest ≠ [] → e.kind ≠ .endOfInput ∧ e.kind ≠ .unterminatedString)
    (hk : e.kind ≠ .duplicateDefault) :
    Carries bound k f x y i := by
  constructor
  · intro a l hrun
    exact absurd (hx.symm.trans hrun) (by simp)
  · intro e' m hrun
    obtain ⟨rfl, rfl⟩ : e = e' ∧ i = m := by simpa [hx] using hrun
    cases hi : i.rest with
    | nil =>
      rw [Input.here, hi] at hspan
      have hopen : ¬ e.Settled := by
        intro hs
        rw [Fault.Settled, hspan] at hs
        exact absurd hs.1 (Nat.lt_irrefl _)
      refine ⟨[], [], ⟨hi, fun _ => ⟨rfl, hopen⟩, by rw [hspan]; exact Nat.le_refl _,
        fun _ => by rw [hspan]; rfl, fun _ => ⟨rfl, ?_⟩, fun _ => hend hi, fun h => absurd h hk⟩,
        fun rest' hr _ => ?_, fun hs => absurd hs hopen⟩
      · obtain ⟨o, v⟩ := i
        obtain rfl : v = [] := hi
        rfl
      · rw [List.head?_nil, eq_comm, List.head?_eq_none_iff] at hr
        rw [hr]
        exact ⟨_, hy _ rfl (by rw [hi]; rfl), fun _ => rfl⟩
    | cons c cs =>
      rw [Input.here, hi] at hspan
      obtain ⟨heof, hstring⟩ := hchar (by rw [hi]; exact List.cons_ne_nil c cs)
      have hs : e.Settled := by
        rw [Fault.Settled, hspan]
        exact ⟨Nat.lt_add_of_pos_right c.utf8Size_pos, hstring⟩
      have hhead : ∀ rest' : List Char, i.rest.head? = ([c] ++ rest').head? := by
        intro rest'
        rw [hi]
        rfl
      refine ⟨[c], cs, ⟨hi, fun hnil => absurd hnil (List.cons_ne_nil c []), Nat.le_of_lt hs.1,
        fun _ => by rw [hspan]; rfl, fun hk => absurd hk heof, fun hopen => absurd hs hopen,
        fun h => absurd h hk⟩, fun rest' _ _ => ?_, fun _ rest' _ _ b l => ?_⟩
      · exact ⟨_, hy _ rfl (hhead rest'), fun hk => absurd hk heof⟩
      · rw [hy ⟨i.offset + k, [c] ++ rest'⟩ rfl (hhead rest')]
        simp

/-- A fault raised at the next character, with any detail and note. -/
theorem fail_here {kind : FaultKind} {detail : Option Detail} {note note' : Option (Note × Span)}
    (hnote : note' = note.map fun n => (n.1, n.2.shift k))
    (hend : i.rest = [] → kind ∈ FaultKind.unsettled)
    (hchar : i.rest ≠ [] → kind ≠ .endOfInput ∧ kind ≠ .unterminatedString)
    (hk : kind ≠ .duplicateDefault) : Carries bound k f (here >>= fun span => (fail kind span detail note : Reader α))
      (here >>= fun span => fail kind span detail note') i := by
  refine .fault (e := ⟨kind, i.here, detail, note⟩) rfl ?_ rfl hend hchar hk
  intro j ho hj
  rw [Reader.here_bind, here_shift ho hj, hnote]
  rfl

/-- The fault of a character that does not belong there; at the end it is another one. -/
theorem unexpected {kind : FaultKind}
    (hk : kind ≠ .endOfInput ∧ kind ≠ .unterminatedString ∧ kind ≠ .duplicateDefault) :
    Carries bound k f (unexpected kind : Reader α) (Reader.unexpected kind) i := by
  cases hi : i.rest with
  | nil =>
    refine .fault (e := ⟨.endOfInput, i.here, none, none⟩) ?_ ?_ rfl (fun _ => List.mem_cons_self ..) ?_
      (by simp)
    · simp only [Reader.unexpected, hi]
    · intro j ho hj
      rw [hi, List.head?_nil, eq_comm, List.head?_eq_none_iff] at hj
      simp only [Reader.unexpected, hj]
      rw [here_shift ho (by rw [hi, hj])]
      rfl
    · intro hne
      exact absurd hi hne
  | cons c cs =>
    refine .fault (e := ⟨kind, i.here, some (.found c), none⟩) ?_ ?_ rfl ?_
      (fun _ => ⟨hk.1, hk.2.1⟩) hk.2.2
    · simp only [Reader.unexpected, hi]
    · intro j ho hj
      cases hr : j.rest with
      | nil => simp [hi, hr] at hj
      | cons d ds =>
        obtain rfl : c = d := by simpa [hi, hr] using hj
        simp only [Reader.unexpected, hr]
        rw [here_shift ho (by rw [hi, hr]; rfl)]
        rfl
    · intro hnil
      rw [hi] at hnil
      exact absurd hnil (List.cons_ne_nil c cs)

/-! ### Composites, nesting and repetition -/

/-- A composite takes the blame only for the end of the source, and then where its part has
stopped. -/
theorem within {composite : Composite} {opener : Span} (hx : Carries bound k f x y i) :
    Carries bound k f (within composite opener x)
      (Reader.within composite (opener.shift k) y) i := by
  constructor
  · intro a l hrun
    obtain ⟨text, ht, hy⟩ := hx.ok (within_eq_ok.mp hrun)
    exact ⟨text, ht, fun rest ha hlen => within_eq_ok.mpr (hy rest ha hlen)⟩
  · intro e m hrun
    have hnot : ∀ {text rest'}, (∀ b l, y ⟨i.offset + k, text ++ rest'⟩ ≠ .ok b l) → ∀ b l,
        Reader.within composite (opener.shift k) y ⟨i.offset + k, text ++ rest'⟩ ≠ .ok b l :=
      fun h b l hok => h b l (within_eq_ok.mp hok)
    cases hxi : x i with
    | ok a l =>
      rw [within_eq_ok.mpr hxi] at hrun
      exact absurd hrun (by simp)
    | error fault left =>
      obtain ⟨text, rest, ht, hsame, hsettled⟩ := hx.error hxi
      by_cases hk : fault.kind = .endOfInput
      · obtain ⟨rfl, rfl⟩ := ht.finish hk
        have hstop := ht.stop (by rw [hk]; decide)
        rw [within_eq_error_of_endOfInput hxi hk rfl] at hrun
        obtain ⟨rfl, rfl⟩ : _ = e ∧ i.atEnd = m := by simpa using hrun
        have hopen : ∀ note, ¬ Fault.Settled ⟨.unterminatedComposite, .empty i.atEnd.offset,
            some (.expected composite.closer), note⟩ := fun _ hs => absurd hs.1 (Nat.lt_irrefl _)
        have hend : i.atEnd.offset = i.offset + byteLength text := by
          rw [← List.append_nil text, ← ht.split]
          rfl
        refine ⟨text, [], ⟨ht.split, fun _ => ⟨rfl, hopen _⟩, Nat.le_refl _, fun _ => hend,
          fun hk => absurd hk (by simp), fun _ => by simp [FaultKind.unsettled], fun hk => absurd hk (by simp)⟩,
          fun rest' hr hlen => ?_, fun hs => absurd hs (hopen _)⟩
        obtain ⟨m', hy, hm'⟩ := hsame rest' hr hlen
        obtain rfl := hm' hk
        exact ⟨_, within_eq_error_of_endOfInput hy hk rfl, fun hk => absurd hk (by simp)⟩
      · rw [within_eq_error hxi hk] at hrun
        obtain ⟨rfl, rfl⟩ : fault = e ∧ left = m := by simpa using hrun
        refine ⟨text, rest, ht, fun rest' hr hlen => ?_, fun hs rest' hr hlen =>
          hnot (hsettled hs rest' hr hlen)⟩
        obtain ⟨m', hy, -⟩ := hsame rest' hr hlen
        exact ⟨m', within_eq_error hy hk, fun h => absurd h hk⟩

/-- One level further in, or the same limit on both sides. -/
theorem nested {n : Nesting} {inner : Nesting → Reader α} {inner' : Nesting → Reader β}
    (h : Carries bound k f (inner n.deeper) (inner' n.deeper) i) :
    Carries bound k f (nested n inner) (Reader.nested n inner') i := by
  unfold Reader.nested
  cases n.exhausted? with
  | none => exact h
  | some limit =>
    refine .fail_here rfl ?_ ?_ (by simp)
    · intro _
      simp [FaultKind.unsettled]
    · intro _
      simp

/-- What becomes of the outcome of a round. -/
def mapRound {σ τ α β : Type} (f : σ → τ) (g : α → β) : Round σ α → Round τ β
  | .again s => .again (f s)
  | .done a => .done (g a)

/-- By induction on the bound of the repetition: every round but the last leaves less to the rounds
behind it. -/
theorem repeatUpTo {τ : Type} {f : σ → τ} {g : α → β} {round : σ → Reader (Round σ α)}
    {round' : τ → Reader (Round τ β)} {limit : Nat} (hs : Shortens limit round)
    (h : ∀ s i, i.rest.length < limit →
      Carries bound k (mapRound f g) (round s) (round' (f s)) i) {rounds : Nat} :
    ∀ {bound' rounds' : Nat} {s : σ} {i : Input}, i.rest.length < limit → i.rest.length < rounds →
      bound' ≤ rounds' → bound' ≤ bound →
      Carries bound' k g (repeatUpTo rounds s round) (Reader.repeatUpTo rounds' (f s) round') i := by
  induction rounds with
  | zero =>
    intro bound' rounds' s i _ hi
    exact absurd hi (Nat.not_lt_zero _)
  | succ rounds ih =>
    intro bound' rounds' s i hl hi hb hb'
    have hstep : ∀ rounds', bound' - 1 ≤ rounds' → Carries bound' k g
        (Reader.repeatUpTo (rounds + 1) s round) (Reader.repeatUpTo (rounds' + 1) (f s) round') i := by
      intro rounds' hle
      refine ((h s i hl).mono hb').bind_shorter ?_
      intro r l text hr ht
      cases r with
      | again s' =>
        have hlt := hs s i s' l hl hr
        have hlen := ht.length
        exact ih (by omega) (by omega) (by omega) (by omega)
      | done a => exact .pure rfl
    cases rounds' with
    | zero => exact (hstep 0 (by omega)).of_zero (by omega)
    | succ rounds' => exact hstep rounds' (by omega)

end Carries

end Reader

end LocaleText
