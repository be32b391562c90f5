import LocaleText.Proofs.Node.Order
import Mathlib.Data.List.Forall2

/-!
# A run of blanks in the place of another one

A run of blanks that stands somewhere in a text gives way to another one. Where a text is cut next
to a character that is no blank, the run lies on one side of the cut.

* `Tight` are the texts without blanks
* `Respaced run o text text'`: at most the blanks at the span `run` differ; `text` starts at `o`
* `Respaced.part`, `Respaced.gap` and `Respaced.token` cut off the last piece of a text
* `StringContent.respaced`, `Separator.respaced` and their companions are the tokens of the grammar
* `Keyed.Alike` compares keyed lists entry by entry, and `Keyed.Alike.foldl_insert` builds them up
* `Node.Untouched` are the nodes below which no string holds the run
-/

namespace LocaleText

def Tight (text : List Char) : Prop := ∀ c ∈ text, isBlank c = false

instance (text : List Char) : Decidable (Tight text) :=
  decidable_of_iff (text.all (fun c => !isBlank c) = true) (by simp [Tight])

/-- A text with at most the blanks at a span replaced: some blanks by some blanks. -/
inductive Respaced (run : Span) (o : Nat) : List Char → List Char → Prop
  | same {text : List Char} : Respaced run o text text
  | blanks {front w w' back : List Char} : Blanks w → Blanks w' → w ≠ [] → w' ≠ [] →
      run = extent (o + byteLength front) w →
      Respaced run o (front ++ w ++ back) (front ++ w' ++ back)

section Texts

variable {run : Span} {o : Nat} {text text' s t : List Char}

theorem blanks_append : Blanks (s ++ t) ↔ Blanks s ∧ Blanks t := List.forall_mem_append

/-- A text that ends with another character than a blank does not end with blanks. -/
theorem Ended.eq_nil_of_blanks (h : Ended (s ++ t)) (hb : Blanks t) : t = [] := by
  obtain ⟨front, c, ht, hc⟩ := h
  rcases List.eq_nil_or_concat t with rfl | ⟨t', d, rfl⟩
  · rfl
  · rw [List.concat_eq_append, ← List.append_assoc] at ht
    obtain rfl := List.head_eq_of_cons_eq (List.append_inj_right' ht rfl)
    rw [hb d (by simp)] at hc
    exact absurd hc (by decide)

/-- A text that may only begin with another character than a blank does not begin with blanks. -/
theorem NextNot.eq_nil_of_blanks (h : NextNot isBlank (s ++ t)) (hb : Blanks s) : s = [] := by
  cases s with
  | nil => rfl
  | cons c cs =>
    have hc := hb c (List.mem_cons_self ..)
    rw [nextNot_cons.mp h] at hc
    exact absurd hc (by decide)

namespace Respaced

/-- A text that is cut next to a character that is no blank. -/
theorem split (h : Respaced run o (s ++ t) text') (hcut : Ended s ∨ NextNot isBlank t) :
    ∃ s' t', text' = s' ++ t' ∧ Respaced run o s s' ∧ Respaced run (o + byteLength s) t t' := by
  generalize hst : s ++ t = text at h
  cases h with
  | same => exact ⟨s, t, hst.symm, .same, .same⟩
  | @blanks front w w' back hw hw' hne hne' hrun =>
    have hbefore : ∀ rest, s = front ++ w ++ rest → back = rest ++ t → ∃ s' t',
        front ++ w' ++ back = s' ++ t' ∧ Respaced run o s s' ∧
          Respaced run (o + byteLength s) t t' := by
      rintro rest rfl rfl
      exact ⟨front ++ w' ++ rest, t, by simp, .blanks hw hw' hne hne' hrun, .same⟩
    have hbehind : ∀ rest, front = s ++ rest → t = rest ++ w ++ back → ∃ s' t',
        front ++ w' ++ back = s' ++ t' ∧ Respaced run o s s' ∧
          Respaced run (o + byteLength s) t t' := by
      rintro rest rfl rfl
      rw [byteLength_append, ← Nat.add_assoc] at hrun
      exact ⟨s, rest ++ w' ++ back, by simp, .same, .blanks hw hw' hne hne' hrun⟩
    rcases List.append_eq_append_iff.mp hst with ⟨rest, hfront, rfl⟩ | ⟨rest, hs, hback⟩
    · rcases List.append_eq_append_iff.mp hfront with ⟨w₁, rfl, rfl⟩ | ⟨rest', rfl, rfl⟩
      · -- the run lies over the cut, and so it has nothing on one side of it
        obtain ⟨hw₁, hrest⟩ := blanks_append.mp hw
        have hone : w₁ = [] ∨ rest = [] := by
          rcases hcut with hs | ht
          · exact .inl (hs.eq_nil_of_blanks hw₁)
          · exact .inr (ht.eq_nil_of_blanks hrest)
        rcases hone with rfl | rfl
        · exact hbehind [] (by simp) (by simp)
        · exact hbefore [] (by simp) (by simp)
      · exact hbehind rest' rfl rfl
    · exact hbefore rest hs hback

theorem nil (h : Respaced run o [] text') : text' = [] := by
  generalize ht : [] = text at h
  cases h with
  | same => rfl
  | blanks _ _ hne _ _ => simp [hne] at ht

/-- A text without blanks stays as it is. -/
theorem eq_of_tight (h : Respaced run o text text') (ht : Tight text) : text' = text := by
  cases h with
  | same => rfl
  | @blanks _ w _ _ hw _ hne _ _ =>
    obtain ⟨c, hc⟩ := List.exists_mem_of_ne_nil w hne
    have hnot := ht c (by simp [hc])
    rw [hw c hc] at hnot
    exact absurd hnot (by decide)

/-- A text that does not hold the run stays as it is. -/
theorem eq_of_not_within (h : Respaced run o text text') (hrun : ¬ run.Within (extent o text)) :
    text' = text := by
  cases h with
  | same => rfl
  | blanks _ _ _ _ he =>
    refine absurd ?_ hrun
    rw [he]
    constructor <;> simp only [extent, byteLength_append] <;> omega

/-- Blanks stay blanks, and some stay some. -/
theorem of_blanks (h : Respaced run o text text') (hg : Blanks text) :
    Blanks text' ∧ (text' = [] → text = []) := by
  cases h with
  | same => exact ⟨hg, id⟩
  | blanks _ hw' _ hne' _ =>
    simp only [blanks_append] at hg ⊢
    exact ⟨⟨⟨hg.1.1, hw'⟩, hg.2⟩, fun hnil => by simp [hne'] at hnil⟩

/-- A text that begins with something else begins as before. -/
theorem head?_eq (h : Respaced run o text text') (hb : NextNot isBlank text) :
    text'.head? = text.head? := by
  cases h with
  | same => rfl
  | @blanks front w _ back hw _ hne _ _ =>
    cases front with
    | nil =>
      rw [List.nil_append] at hb
      exact absurd (hb.eq_nil_of_blanks hw) hne
    | cons c cs => rfl

/-! ### The last piece of a text -/

/-- A part that begins with no blank. -/
theorem part (h : Respaced run o (s ++ t) text') (hb : NextNot isBlank t) :
    ∃ s' t', text' = s' ++ t' ∧ Respaced run o s s' ∧ Respaced run (o + byteLength s) t t' :=
  h.split (.inr hb)

/-- A gap behind something that ends with no blank. -/
theorem gap {gap : List Char} (h : Respaced run o (s ++ gap) text') (hs : Ended s)
    (hg : Blanks gap) :
    ∃ s' gap', text' = s' ++ gap' ∧ Respaced run o s s' ∧ Blanks gap' ∧ (gap' = [] → gap = []) := by
  obtain ⟨s', gap', rfl, hs', hgap⟩ := h.split (.inl hs)
  exact ⟨s', gap', rfl, hs', hgap.of_blanks hg⟩

/-- A token. -/
theorem token {token : List Char} (h : Respaced run o (s ++ token) text')
    (ht : Tight token) :
    ∃ s', text' = s' ++ token ∧ Respaced run o s s' := by
  have hcut : NextNot isBlank token := fun c hc => ht c (List.mem_of_mem_head? hc)
  obtain ⟨s', token', rfl, hs, htoken⟩ := h.part hcut
  exact ⟨s', by rw [htoken.eq_of_tight ht], hs⟩

end Respaced

/-! ### Tokens of the grammar -/

theorem nextNot_congr {p : Char → Bool} (h : t.head? = s.head?) (hs : NextNot p s) : NextNot p t :=
  fun c hc => hs c (h ▸ hc)

theorem NextNot.append {p : Char → Bool} (hs : NextNot p s) (ht : NextNot p t) :
    NextNot p (s ++ t) := by
  cases s with
  | nil => exact ht
  | cons c cs => exact hs

theorem IsName.tight (h : IsName text) : Tight text :=
  fun c hc => isBlank_of_isWordChar (h.2 c hc)

theorem NameText.tight {name : String} {ending : Ending} (h : NameText text name ending) :
    Tight text := by
  cases h with
  | bare hn => exact hn.tight
  | opened hn hq => exact List.forall_mem_cons.mpr ⟨isBlank_of_isQuote hq, hn.tight⟩
  | quoted hn hq =>
    exact List.forall_mem_cons.mpr ⟨isBlank_of_isQuote hq, List.forall_mem_append.mpr
      ⟨hn.tight, List.forall_mem_singleton.mpr (isBlank_of_isQuote hq)⟩⟩

/-- Blanks count as little as nothing, however many they are: the backslashes before them end. -/
theorem stringContent_blanks {quote : Char} (hq : isQuote quote = true) {w : List Char}
    {count : Nat} (hw : Blanks w) (hne : w ≠ []) :
    StringContent quote count (w ++ s) ↔ StringContent quote 0 s := by
  induction w generalizing count with
  | nil => exact absurd rfl hne
  | cons c w ih =>
    have hc : isBlank c = true := hw c (List.mem_cons_self ..)
    have hquote : c ≠ quote := (ne_of_class hq (isQuote_of_isBlank hc)).symm
    have hbackslash : c ≠ '\\' := ne_of_class hc (by decide)
    rw [List.cons_append, stringContent_cons, backslashesBehind, if_neg hbackslash]
    cases w with
    | nil => simp [hquote]
    | cons d ds =>
      rw [ih (fun c hc => hw c (List.mem_cons_of_mem _ hc)) (by simp)]
      simp [hquote]

/-- Blanks are neither quotes nor backslashes. -/
theorem StringContent.respaced {quote : Char} (hq : isQuote quote = true) {count : Nat}
    (h : StringContent quote count text) (hr : Respaced run o text text') :
    StringContent quote count text' := by
  cases hr with
  | same => exact h
  | @blanks front w w' back hw hw' hne hne' hrun =>
    clear hrun
    induction front generalizing count with
    | nil => exact (stringContent_blanks hq hw' hne').mpr ((stringContent_blanks hq hw hne).mp h)
    | cons c front ih =>
      obtain ⟨hc, hrest⟩ := stringContent_cons.mp h
      exact stringContent_cons.mpr ⟨hc, ih hrest⟩

theorem KeyText.respaced {name : String} (h : KeyText text name) (hr : Respaced run o text text') :
    KeyText text' name := by
  obtain ⟨hname, hgap, hgap'⟩ := h
  obtain ⟨_, _, rfl, hr₁, hblanks', -⟩ := hr.gap (.concat _ (by decide)) hgap'
  obtain ⟨_, rfl, hr₂⟩ := hr₁.token (by decide)
  obtain ⟨_, _, rfl, hr₃, hblanks, -⟩ := hr₂.gap hname.ended hgap
  rw [hr₃.eq_of_tight hname.tight]
  exact ⟨hname, hblanks, hblanks'⟩

/-- A separator, with or without a comma, separates still. -/
theorem Separator.respaced {ending : Ending} {gap next separator : List Char}
    (h : Separator ending gap next separator) (hr : Respaced run o (s ++ separator) text') :
    ∃ s' separator', text' = s' ++ separator' ∧ Respaced run o s s' ∧
      ∀ gap' next', (gap' = [] → gap = []) → next'.head? = next.head? →
        Separator ending gap' next' separator' := by
  cases h with
  | comma hblanks =>
    rw [← List.append_assoc] at hr
    obtain ⟨_, blanks', rfl, hr₁, hblanks', -⟩ := hr.gap (.concat _ (by decide)) hblanks
    obtain ⟨s', rfl, hr₂⟩ := hr₁.token (by decide)
    exact ⟨s', [','] ++ blanks', by simp, hr₂, fun _ _ _ _ => .comma hblanks'⟩
  | omitted hapart =>
    rw [List.append_nil] at hr
    refine ⟨text', [], by simp, hr, fun gap' next' hgap hhead => .omitted ⟨fun hnil => ?_, ?_⟩⟩
    · exact nextNot_congr hhead (hapart.clear (hgap hnil))
    · exact nextNot_congr hhead hapart.sign

/-! ### How parts begin and end -/

section Parts

variable {n : Nesting}

theorem SpellsExpr.ended {e : Expr} {ending : Ending} : SpellsExpr n o text e ending → Ended text
  | .mk _ h => h.ended

/-- A list begins with a part of it, and blanks are in front of it. -/
theorem SpellsItems.begins {es : List Expr} (h : SpellsItems n o text es) :
    NextNot isBlank text := by
  have hclosed : NextNot isBlank (text ++ ']' :: []) := h.nextNot_isBlank
  exact nextNot_of_append hclosed

theorem SpellsMembers.begins {ms : List Member} (h : SpellsMembers n o text ms) :
    NextNot isBlank text := by
  have hclosed : NextNot isBlank (text ++ '\x7d' :: []) := h.nextNot_isBlank
  exact nextNot_of_append hclosed

theorem SpellsArguments.begins {es : List Expr} (h : SpellsArguments n o text es) :
    NextNot isBlank text := by
  cases h with
  | none => exact nextNot_nil isBlank
  | some h => exact h.starts.nextNot_isBlank

theorem SpellsValue.begins {v : Value} (h : SpellsValue n o text v) : NextNot isBlank text := by
  obtain ⟨c, rest, rfl, hc⟩ := h.trimmed.begins
  exact nextNot_cons.mpr hc

theorem KeyText.begins {name : String} (h : KeyText text name) : NextNot isBlank text := by
  obtain ⟨c, cs, rfl, hc⟩ := h.exists_cons
  exact nextNot_cons.mpr (key_head hc).1

end Parts

end Texts

/-! ### Lists under keys -/

/-- Entries under the same keys, in the same order, that are related one by one. -/
def Keyed.Alike {α : Type} (R : α → α → Prop) : Keyed α → Keyed α → Prop :=
  List.Forall₂ fun entry entry' => entry'.1 = entry.1 ∧ R entry.2 entry'.2

section Keyed

variable {α β : Type} {R : α → α → Prop} {entries entries' : Keyed α} {key : String} {v v' : α}
  {k : β → String} {f : β → α} {written written' : List β}

/-- Keyed lists stay alike when alike values are put under a key. -/
theorem Keyed.Alike.insert (h : Alike R entries entries') (hv : R v v') :
    Alike R (entries.insert key v) (entries'.insert key v') := by
  induction h with
  | nil => exact .cons ⟨rfl, hv⟩ .nil
  | @cons entry entry' rest rest' he hrest ih =>
    obtain ⟨name, old⟩ := entry
    obtain ⟨name', old'⟩ := entry'
    obtain ⟨hname, hold⟩ := he
    obtain rfl : name' = name := hname
    by_cases hkey : name' = key
    · rw [Keyed.insert, Keyed.insert, if_pos hkey, if_pos hkey]
      exact .cons ⟨rfl, hv⟩ hrest
    · rw [Keyed.insert, Keyed.insert, if_neg hkey, if_neg hkey]
      exact .cons ⟨rfl, hold⟩ ih

/-- A later value takes the place of an earlier one on both sides. -/
theorem Keyed.Alike.foldl_insert
    (hw : List.Forall₂ (fun b b' => k b' = k b ∧ R (f b) (f b')) written written')
    (h : Alike R entries entries') :
    Alike R (written.foldl (fun entries b => entries.insert (k b) (f b)) entries)
      (written'.foldl (fun entries b => entries.insert (k b) (f b)) entries') := by
  induction hw generalizing entries entries' with
  | nil => exact h
  | cons hb _ ih =>
    rw [List.foldl_cons, List.foldl_cons, hb.1]
    exact ih (h.insert hb.2)

/-- Values that are alike under a condition, where the condition holds of all of them. -/
theorem Keyed.Alike.map_eq {p : α → Prop} {g : α → β}
    (h : Alike (fun v v' => p v → g v' = g v) entries entries')
    (hp : ∀ entry ∈ entries, p entry.2) :
    entries'.map (fun entry => (entry.1, g entry.2)) =
      entries.map fun entry => (entry.1, g entry.2) := by
  induction h with
  | nil => rfl
  | cons he _ ih =>
    obtain ⟨hentry, hrest⟩ := List.forall_mem_cons.mp hp
    rw [List.map_cons, List.map_cons, ih hrest, he.1, he.2 hentry]

end Keyed

/-! ### Nodes -/

namespace Node

/-- No string below a node, if it is one or holds one, has the run within it. -/
def Untouched (run : Span) (node : Node) : Prop :=
  ∀ content quote s, node.Reaches (.value (.string content quote s)) → ¬ run.Within s

variable {run : Span} {node next : Node}

/-- What is below a node is below what holds the node. -/
theorem Untouched.child (h : node.Untouched run) (hn : next ∈ node.children) : next.Untouched run :=
  fun content quote s hr => h content quote s (.child hn hr)

theorem Untouched.row (h : node.Untouched run) (hn : next ∈ node.row) : next.Untouched run :=
  h.child (List.mem_append_left _ hn)

theorem Untouched.keyed (h : node.Untouched run) (hn : next ∈ node.keyed) : next.Untouched run :=
  h.child (List.mem_append_right _ hn)

end Node

end LocaleText
