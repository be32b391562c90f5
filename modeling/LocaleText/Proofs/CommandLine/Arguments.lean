import LocaleText.CommandLine.Run
import Mathlib.Data.List.Basic

/-!
# Calls of commands on sources

What the arguments of `ast` and `check` ask for: paths, and among them, in any order, a nesting
limit and a choice of colours. A limit is a number of 32 bits, written in decimal.

* `readNumber_toString` says that numbers are read back
* `IsPath` are the paths that are not taken for options
* `Asks` says what arguments ask for, one rule for each way in which something is given
* `Progress.Sound` is the state between two parameters, and `Progress.said` is what has been read
* `Sound.path` and `Sound.option` are the steps: one more path, and an option with its value
* `foldlM_readArgument` runs the steps, by induction on what is asked for
* `readArguments_of_asks` says that the arguments are understood as they are meant
-/

namespace LocaleText.CommandLine

/-! ### Numbers -/

/-- Further digits do not make a number smaller, so a number that is too large is found at any
digit. -/
theorem le_ofDigitChars (digits : List Char) (n : Nat) : n ≤ Nat.ofDigitChars 10 digits n := by
  induction digits generalizing n with
  | nil => exact Nat.le_refl n
  | cons c digits ih =>
    rw [Nat.ofDigitChars_cons]
    exact Nat.le_trans (by omega) (ih _)

/-- Digits are read up to the largest number. -/
theorem readDigits_eq_ok {largest : Nat} {excess : String} {digits : List Char} (hne : digits ≠ [])
    (hdigits : ∀ c ∈ digits, c.isDigit = true) (h : Nat.ofDigitChars 10 digits 0 ≤ largest) :
    readDigits largest excess digits = .ok (Nat.ofDigitChars 10 digits 0) := by
  rw [readDigits, if_neg (by simpa using hne)]
  generalize 0 = n at h ⊢
  clear hne
  induction digits generalizing n with
  | nil => rfl
  | cons c digits ih =>
    rw [Nat.ofDigitChars_cons] at h ⊢
    have hnext := Nat.le_trans (le_ofDigitChars digits _) h
    rw [List.foldlM_cons, if_neg (by simp [hdigits c (List.mem_cons_self ..)]),
      if_neg (Nat.not_lt.mpr hnext)]
    exact ih (fun d hd => hdigits d (List.mem_cons_of_mem c hd)) _ h

/-- A number that is written in decimal is read. -/
theorem readNumber_toString {bound n : Nat} (hn : n < bound) (h : n < UInt64.size / 2) :
    readNumber bound (toString n) = .ok n := by
  have hdigits : ∀ c ∈ Nat.toDigits 10 n, c.isDigit = true := fun c hc =>
    Nat.isDigit_of_mem_toDigits (by decide) (by decide) hc
  have hvalue := Nat.ofDigitChars_ten_toDigits (n := n)
  have hsigned : readSigned (toString n) = .ok (n : Int) := by
    have hread : readDigits (UInt64.size / 2 - 1) "number too large to fit in target type"
        (Nat.toDigits 10 n) = .ok n := by
      rw [readDigits_eq_ok Nat.toDigits_ne_nil hdigits (by rw [hvalue]; omega), hvalue]
    rw [readSigned, Nat.toString_eq_repr, Nat.toList_repr]
    -- the first character is a digit, and so no sign
    split
    · rename_i hnil
      exact absurd hnil Nat.toDigits_ne_nil
    · rename_i digits hsign
      exact absurd (hdigits '-' (by rw [hsign]; exact List.mem_cons_self ..)) (by decide)
    · rename_i digits hsign
      exact absurd (hdigits '+' (by rw [hsign]; exact List.mem_cons_self ..)) (by decide)
    · rw [hread]
      rfl
  rw [readNumber, hsigned]
  have hroom : (decide (0 ≤ (n : Int)) && decide ((n : Int) < bound)) = true := by simp [hn]
  show (if _ then pure (n : Int).toNat else throw _ : Except String Nat) = _
  rw [if_pos hroom]
  rfl

/-! ### What arguments ask for -/

/-- A path that is not taken for an option. A lone dash stands for the standard input. -/
def IsPath (path : String) : Prop :=
  path ≠ "" ∧ (path = "-" ∨ path.toList.head? ≠ some '-')

def colourWord (coloured : Bool) : String := if coloured then "always" else "never"

/-- What arguments ask for: paths in order, a nesting limit and a choice of colours. -/
inductive Asks : List String → Option UInt32 → Option Bool → List String → Prop
  | nil : Asks [] none none []
  | path {path : String} {paths arguments : List String} {depth : Option UInt32}
      {coloured : Option Bool} :
      IsPath path → Asks paths depth coloured arguments →
      Asks (path :: paths) depth coloured (path :: arguments)
  | depth {n : UInt32} {paths arguments : List String} {coloured : Option Bool} :
      Asks paths none coloured arguments →
      Asks paths (some n) coloured ("--max-depth" :: toString n.toNat :: arguments)
  | coloured {b : Bool} {paths arguments : List String} {depth : Option UInt32} :
      Asks paths depth none arguments →
      Asks paths depth (some b) ("--color" :: colourWord b :: arguments)

/-! ### Given parameters -/

namespace Given

variable {given : Given} {p : Parameter} {words : List String} {name : String}

theorem has_eq_false : given.has name = false ↔ ∀ g ∈ given, g.1.name ≠ name := by
  simp [has]

theorem has_eq_false_of_values (h : ∀ g ∈ given, g.2 ≠ []) (hv : given.values name = []) :
    given.has name = false := by
  rw [has_eq_false]
  intro g hg hname
  refine h g hg (List.flatMap_eq_nil_iff.mp hv g ?_)
  simpa [hname] using hg

/-- A parameter that was not given has no values. -/
theorem values_of_has (h : given.has name = false) : given.values name = [] := by
  rw [has_eq_false] at h
  have hnone : (given.filter fun g => g.1.name = name) = [] := by
    simpa [List.filter_eq_nil_iff] using h
  rw [values, hnone]
  rfl

/-- The values of a parameter are gathered from the front. -/
theorem values_cons (g : Parameter × List String) (given : Given) :
    values (g :: given) name = (if g.1.name = name then g.2 else []) ++ given.values name := by
  by_cases h : g.1.name = name <;> simp [values, h]

/-- A parameter has one entry at most, so values are added once. -/
theorem values_add (hnodup : (given.map fun g => g.1.name).Nodup) :
    (given.add p words).values name =
      given.values name ++ if p.name = name then words else [] := by
  rw [add]
  split
  · rename_i hhas
    induction given with
    | nil => simp [has] at hhas
    | cons g rest ih =>
      obtain ⟨q, old⟩ := g
      rw [List.map_cons, List.nodup_cons] at hnodup
      rw [List.map_cons, values_cons, values_cons]
      by_cases hq : q.name = p.name
      · have hrest : has rest p.name = false := by
          rw [has_eq_false]
          intro g hg hname
          exact hnodup.1 (List.mem_map.mpr ⟨g, hg, hname.trans hq.symm⟩)
        have hsame : ∀ f, (∀ g ∈ rest, f g = g) → rest.map f = rest :=
          fun _ hf => (List.map_congr_left hf).trans (List.map_id rest)
        rw [hsame]
        · by_cases hn : p.name = name
          · have hnone : Given.values rest name = [] := hn ▸ values_of_has hrest
            simp [hq, hn, hnone]
          · simp [hq, hn]
        · exact fun g hg => if_neg (has_eq_false.mp hrest g hg)
      · have hhas' : has rest p.name = true := by simpa [has, hq] using hhas
        rw [ih hnodup.2 hhas']
        by_cases hn : q.name = name
        · simp [hq, List.append_assoc]
        · simp [hq, List.append_assoc]
  · by_cases hn : p.name = name <;> simp [values, hn]

theorem names_add : ((given.add p words).map fun g => g.1.name) =
    if given.has p.name then given.map fun g => g.1.name
    else (given.map fun g => g.1.name) ++ [p.name] := by
  rw [add]
  split
  · rw [List.map_map]
    refine List.map_congr_left fun g _ => ?_
    obtain ⟨q, old⟩ := g
    by_cases hq : q.name = p.name <;> simp [hq]
  · simp

/-- What is there after values were added: what was there before, and the parameter with the new
values. -/
theorem mem_add {g : Parameter × List String} (h : g ∈ given.add p words) :
    (∃ old, (g.1, old) ∈ given ∧ (g.2 = old ∨ g.2 = old ++ words)) ∨ g = (p, words) := by
  rw [add] at h
  split at h
  · obtain ⟨⟨q, old⟩, hmem, rfl⟩ := List.mem_map.mp h
    by_cases hq : q.name = p.name
    · exact .inl ⟨old, by simpa [hq] using hmem, by simp [hq]⟩
    · exact .inl ⟨old, by simpa [hq] using hmem, by simp [hq]⟩
  · rcases List.mem_append.mp h with hmem | hlast
    · exact .inl ⟨g.2, hmem, .inl rfl⟩
    · exact .inr (List.mem_singleton.mp hlast)

end Given

/-! ### Progress -/

namespace Progress

variable {progress : Progress} {c : Command} {p : Parameter} {name : String}

/-- What has been read for a parameter, the values that are being collected included. -/
def said (progress : Progress) (name : String) : List String :=
  progress.given.values name ++
    progress.pending.elim [] fun g => if g.1.name = name then g.2 else []

/-- Values that a parameter may be given. -/
structure Accepted (given : Given) (g : Parameter × List String) : Prop where
  takesValue : g.1.takesValue = true
  values : g.2 ≠ []
  checked : ∀ v ∈ g.2, g.1.checkValue v = .ok ()
  once : g.1.many = true ∨ given.has g.1.name = false
  free : g.1.excludes = []

/-- No option waits for its value, and all that has been read is in order. -/
structure Sound (c : Command) (progress : Progress) : Prop where
  operandsOnly : progress.operandsOnly = false
  waiting : progress.waiting = false
  nodup : (progress.given.map fun g => g.1.name).Nodup
  given : ∀ g ∈ progress.given, g.2 ≠ [] ∧ g.1.excludes = []
  pending : ∀ g ∈ progress.pending, g.1 ∈ c.parameters ∧ Accepted progress.given g

/-- Nothing has been read, and so all that has been read is in order. -/
theorem sound_start : Sound c start where
  operandsOnly := rfl
  waiting := rfl
  nodup := List.nodup_nil
  given := fun _ hg => absurd hg (List.not_mem_nil)
  pending := fun _ hg => absurd hg (by simp [start])

theorem forM_checkValue {words : List String} (h : ∀ v ∈ words, p.checkValue v = .ok ()) :
    words.forM p.checkValue = .ok () := by
  induction words with
  | nil => rfl
  | cons v words ih =>
    rw [List.forM_eq_forM] at ih ⊢
    rw [List.forM_cons, h v (List.mem_cons_self ..)]
    exact ih fun w hw => h w (List.mem_cons_of_mem v hw)

/-- What is being collected is accepted, and nothing that has been read gets lost. -/
theorem Sound.settle (h : progress.Sound c) : ∃ progress', progress.settle = .ok progress' ∧
    progress'.Sound c ∧ progress'.pending = none ∧ ∀ name, progress'.said name = progress.said name := by
  cases hp : progress.pending with
  | none =>
    refine ⟨{ progress with waiting := false }, by simp only [Progress.settle, hp]; rfl, ?_, hp,
      fun _ => rfl⟩
    exact { h with waiting := rfl }
  | some g =>
    obtain ⟨p, words⟩ := g
    obtain ⟨-, hg⟩ := h.pending _ hp
    refine ⟨{ progress with given := progress.given.add p words, pending := none, waiting := false },
      ?_, ?_, rfl, ?_⟩
    · have hmissing : (p.takesValue && words.isEmpty) = false := by simp [hg.values]
      have honce : (!p.many && progress.given.has p.name) = false := by
        rcases hg.once with hmany | hhas
        · rw [show p.many = true from hmany]
          rfl
        · rw [show progress.given.has p.name = false from hhas, Bool.and_false]
      simp only [Progress.settle, hp, accept, hmissing, honce, forM_checkValue hg.checked]
      rfl
    · refine ⟨h.operandsOnly, rfl, ?_, ?_, fun _ hn => absurd hn (by simp)⟩
      · show List.Nodup (List.map _ (progress.given.add p words))
        rw [Given.names_add]
        split
        · exact h.nodup
        · rename_i hhas
          rw [Bool.not_eq_true, Given.has_eq_false] at hhas
          refine List.nodup_append.mpr ⟨h.nodup, List.pairwise_singleton .., ?_⟩
          intro name hname name' hname'
          obtain ⟨g, hg', rfl⟩ := List.mem_map.mp hname
          rw [List.mem_singleton.mp hname']
          exact hhas g hg'
      · intro g hmem
        rcases Given.mem_add hmem with ⟨old, hold, hwords⟩ | rfl
        · obtain ⟨hne, hfree⟩ := h.given _ hold
          refine ⟨?_, hfree⟩
          rcases hwords with hwords | hwords
          · rw [hwords]
            exact hne
          · rw [hwords]
            exact List.append_ne_nil_of_left_ne_nil hne words
        · exact ⟨hg.values, hg.free⟩
    · intro name
      simp [said, hp, Given.values_add h.nodup]

theorem Sound.has_eq_false (h : progress.Sound c) (hsaid : progress.said name = []) :
    progress.given.has name = false :=
  Given.has_eq_false_of_values (fun g hg => (h.given g hg).1)
    (List.append_eq_nil_iff.mp hsaid).1

theorem Sound.pending_any_eq_false (h : progress.Sound c) (hsaid : progress.said name = []) :
    (progress.pending.any fun g => g.1.name = name) = false := by
  cases hp : progress.pending with
  | none => rfl
  | some g =>
    have hne := (h.pending _ hp).2.values
    have hnil := (List.append_eq_nil_iff.mp hsaid).2
    by_cases hn : g.1.name = name
    · exact absurd (by simpa [hp, hn] using hnil) hne
    · simp [hn]

/-! ### Steps -/

/-- An argument that does not begin with a dash, or is a lone dash, is a value or an operand. -/
theorem readArgument_of_plain {argument : String} (ho : progress.operandsOnly = false)
    (hplain : argument = "-" ∨ argument.toList.head? ≠ some '-') :
    readArgument c progress argument =
      match progress.waiting, progress.pending with
      | true, some (p, words) =>
        .ok { progress with pending := some (p, words ++ [argument]), waiting := false }
      | _, _ => readOperand c progress argument := by
  rw [readArgument, ho, if_neg (by decide)]
  rcases hplain with rfl | hhead
  · rfl
  · split
    · rename_i h
      exact absurd (by rw [h]; rfl) hhead
    · rename_i h
      exact absurd (by rw [h]; rfl) hhead
    · rename_i h
      exact absurd (by rw [h]; rfl) hhead
    · rfl

/-- An operand is put behind those of the same parameter that are being collected. -/
theorem readOperand_of_joined {words : List String} {operand : String} (hc : c.operand? = some p)
    (hpending : progress.pending = some (p, words)) (hmany : p.many = true) :
    readOperand c progress operand =
      .ok { progress with pending := some (p, words ++ [operand]) } := by
  simp [readOperand, hc, hpending, hmany, pure, Except.pure]

/-- The first operand of a collection settles what has been collected before. -/
theorem readOperand_of_first {settled : Progress} {operand : String} (hc : c.operand? = some p)
    (hother : ∀ q words, progress.pending = some (q, words) → ¬ (p.many = true ∧ q.name = p.name))
    (hfirst : (!p.many && (progress.given.has p.name ||
      progress.pending.any fun g => g.1.name = p.name)) = false)
    (hrun : progress.settle = .ok settled) :
    readOperand c progress operand = .ok { settled with pending := some (p, [operand]) } := by
  have hsettle : (if (!p.many && (progress.given.has p.name ||
      progress.pending.any fun g => g.1.name = p.name)) = true then
        throw (.mistake (.unexpected operand []))
      else progress.settle >>= fun progress =>
        pure { progress with pending := some (p, [operand]) } : Except Stop Progress) =
      .ok { settled with pending := some (p, [operand]) } := by
    rw [hfirst, hrun]
    rfl
  simp only [readOperand, hc]
  cases hpending : progress.pending with
  | none =>
    rw [hpending] at hsettle
    exact hsettle
  | some g =>
    obtain ⟨q, words⟩ := g
    have hnot : ¬ (p.many && decide (q.name = p.name)) = true := by
      simpa using hother q words hpending
    rw [hpending] at hsettle
    simp only [hnot]
    exact hsettle

/-- A path is put behind those that have been read. -/
theorem Sound.path {path : String} (h : progress.Sound c) (hc : c.operand? = some p)
    (hp : p ∈ c.parameters) (hunique : ∀ q ∈ c.parameters, q.name = p.name → q = p)
    (hdomain : p.domain = .path) (hfree : p.excludes = []) (hpath : IsPath path)
    (honce : p.many = true ∨ progress.said p.name = []) :
    ∃ progress', readArgument c progress path = .ok progress' ∧ progress'.Sound c ∧
      ∀ name, progress'.said name = progress.said name ++ if p.name = name then [path] else [] := by
  have htakes : p.takesValue = true := by simp [Parameter.takesValue, hdomain]
  have hchecked : p.checkValue path = .ok () := by
    have hne : path.isEmpty = false := by simpa using hpath.1
    simp only [Parameter.checkValue, hdomain, hne]
    rfl
  rw [readArgument_of_plain h.operandsOnly hpath.2, h.waiting]
  by_cases hjoin : ∃ words, progress.pending = some (p, words) ∧ p.many = true
  · obtain ⟨words, hpending, hmany⟩ := hjoin
    refine ⟨{ progress with pending := some (p, words ++ [path]) }, ?_, ?_, ?_⟩
    · exact readOperand_of_joined hc hpending hmany
    · obtain ⟨-, hwords⟩ := h.pending _ hpending
      refine { h with pending := fun g hg => ?_ }
      obtain rfl := Option.some.inj hg
      refine ⟨hp, { hwords with values := by simp, checked := fun v hv => ?_ }⟩
      rcases List.mem_append.mp hv with hv | hv
      · exact hwords.checked v hv
      · rw [List.mem_singleton.mp hv, hchecked]
    · intro name
      by_cases hn : p.name = name <;> simp [said, hpending, hn, List.append_assoc]
  · -- the path begins a new collection
    obtain ⟨settled, hrun, hs, hnone, hsaid⟩ := h.settle
    refine ⟨{ settled with pending := some (p, [path]) }, ?_, ?_, ?_⟩
    · refine readOperand_of_first hc (fun q words hpending hboth => ?_) ?_ hrun
      · obtain rfl := hunique q (h.pending _ hpending).1 hboth.2
        exact hjoin ⟨words, hpending, hboth.1⟩
      · rcases honce with hmany | hnil
        · rw [hmany]
          rfl
        · rw [h.has_eq_false hnil, h.pending_any_eq_false hnil]
          simp
    · refine { hs with pending := fun g hg => ?_ }
      obtain rfl := Option.some.inj hg
      refine ⟨hp, htakes, by simp, by simpa using hchecked, ?_, hfree⟩
      exact honce.imp id fun hnil => hs.has_eq_false (by rw [hsaid, hnil])
    · intro name
      rw [← hsaid name]
      simp [said, hnone]

/-- An option is read together with its value, which comes behind it. -/
theorem Sound.option {argument value : String} {text : List Char} (h : progress.Sound c)
    (hargument : argument.toList = '-' :: '-' :: text) (hne : text ≠ [])
    (hcut : cutAtEquals text = (p.name, none))
    (hfind : (c.options.find? fun q => q.name = p.name) = some p) (htakes : p.takesValue = true)
    (hfree : p.excludes = []) (hplain : value.toList.head? ≠ some '-')
    (hchecked : p.checkValue value = .ok ()) (hsaid : progress.said p.name = []) :
    ∃ progress', [argument, value].foldlM (readArgument c) progress = .ok progress' ∧
      progress'.Sound c ∧
      ∀ name, progress'.said name = progress.said name ++ if p.name = name then [value] else [] := by
  obtain ⟨settled, hrun, hs, hnone, hsame⟩ := h.settle
  have hname : readArgument c progress argument =
      .ok { settled with pending := some (p, []), waiting := true } := by
    rw [readArgument, h.operandsOnly, if_neg (by decide), hargument]
    split
    · rename_i hdashes
      exact absurd (List.cons.inj (List.cons.inj hdashes).2).2 hne
    · rename_i hdashes
      obtain rfl := (List.cons.inj (List.cons.inj hdashes).2).2
      simp only [readLong, hcut, hfind, htakes, if_true, takeOption, hrun]
      rfl
    · rename_i hlong hdashes
      exact absurd (List.cons.inj (List.cons.inj hdashes).2).1.symm hlong
    · rename_i hlong
      exact absurd rfl (hlong '-' text)
  have hvalue : readArgument c { settled with pending := some (p, []), waiting := true } value =
      .ok { settled with pending := some (p, [value]), waiting := false } := by
    rw [readArgument_of_plain (by exact hs.operandsOnly) (.inr hplain)]
    rfl
  refine ⟨{ settled with pending := some (p, [value]), waiting := false }, ?_, ?_, ?_⟩
  · rw [List.foldlM_cons, hname]
    show [value].foldlM (readArgument c) _ = _
    rw [List.foldlM_cons, hvalue]
    rfl
  · refine { hs with waiting := rfl, pending := fun g hg => ?_ }
    obtain rfl := Option.some.inj hg
    refine ⟨List.mem_of_mem_filter (List.mem_of_find?_eq_some hfind), htakes, by simp,
      by simpa using hchecked, .inr (hs.has_eq_false (by rw [hsame, hsaid])), hfree⟩
  · intro name
    rw [← hsame name]
    simp [said, hnone]

end Progress

/-! ### Whole calls -/

variable {c : Command} {paths arguments : List String} {depth : Option UInt32}
  {coloured : Option Bool} {progress : Progress}

/-- A command that reads sources: its operand is a path, and it has the options for a nesting limit
and for colours. -/
structure ReadsSources (c : Command) (p : Parameter) : Prop where
  operand : c.operand? = some p
  mem : p ∈ c.parameters
  unique : ∀ q ∈ c.parameters, q.name = p.name → q = p
  name : p.name = "FILE"
  domain : p.domain = .path
  free : p.excludes = []
  depth : (c.options.find? fun q => q.name = depthOption.name) = some depthOption
  colour : (c.options.find? fun q => q.name = colourOption.name) = some colourOption
  optional : ∀ q ∈ c.parameters, q.required = true → q = p

theorem checkValue_depth (n : UInt32) : depthOption.checkValue (toString n.toNat) = .ok () := by
  have hn : n.toNat < UInt32.size := n.toNat_lt
  have hread : readNumber UInt32.size (toString n.toNat) = .ok n.toNat :=
    readNumber_toString hn (Nat.lt_trans hn (by decide))
  simp only [Parameter.checkValue, depthOption, hread]
  rfl

theorem checkValue_colour (b : Bool) : colourOption.checkValue (colourWord b) = .ok () := by
  cases b <;> rfl

/-- A number in decimal does not look like an option. -/
theorem head?_toString_ne (n : Nat) : (toString n).toList.head? ≠ some '-' := by
  rw [Nat.toString_eq_repr, Nat.toList_repr]
  intro h
  have hdigit := Nat.isDigit_of_mem_toDigits (b := 10) (by decide) (by decide) (List.mem_of_head? h)
  exact absurd hdigit (by decide)

/-- What arguments say about a parameter. -/
def saidOf (paths : List String) (depth : Option UInt32) (coloured : Option Bool) (name : String) :
    List String :=
  if name = "FILE" then paths
  else if name = depthOption.name then (depth.map fun n => toString n.toNat).toList
  else if name = colourOption.name then (coloured.map colourWord).toList
  else []

/-- By induction on the arguments: each path and each option is read as it comes. -/
theorem foldlM_readArgument {p : Parameter} (hc : ReadsSources c p)
    (h : Asks paths depth coloured arguments) (hs : progress.Sound c)
    (hpaths : p.many = true ∨ (progress.said "FILE" ++ paths).length ≤ 1)
    (hdepth : depth.isSome = true → progress.said depthOption.name = [])
    (hcolour : coloured.isSome = true → progress.said colourOption.name = []) :
    ∃ progress', arguments.foldlM (readArgument c) progress = .ok progress' ∧ progress'.Sound c ∧
      ∀ name, progress'.said name = progress.said name ++ saidOf paths depth coloured name := by
  induction h generalizing progress with
  | nil => exact ⟨progress, rfl, hs, fun name => by simp [saidOf]⟩
  | @path path paths arguments depth coloured hpath _ ih =>
    have honce : p.many = true ∨ progress.said p.name = [] := by
      refine hpaths.imp id fun hlen => ?_
      rw [hc.name, ← List.length_eq_zero_iff]
      simp only [List.length_append, List.length_cons] at hlen
      omega
    obtain ⟨next, hrun, hnext, hsaid⟩ :=
      hs.path hc.operand hc.mem hc.unique hc.domain hc.free hpath honce
    simp only [hc.name] at hsaid
    obtain ⟨progress', hrest, hs', hsaid'⟩ := ih hnext (hpaths.imp id fun hlen => by
        rw [hsaid, if_pos rfl]
        simpa using hlen)
      (fun h => by rw [hsaid, hdepth h]; rfl) (fun h => by rw [hsaid, hcolour h]; rfl)
    refine ⟨progress', ?_, hs', fun name => ?_⟩
    · rw [List.foldlM_cons, hrun]
      exact hrest
    · rw [hsaid', hsaid, List.append_assoc]
      by_cases hn : name = "FILE"
      · simp [saidOf, hn]
      · simp [saidOf, hn, Ne.symm hn]
  | @depth n paths arguments coloured _ ih =>
    have hargument : ("--max-depth" : String).toList = '-' :: '-' :: "max-depth".toList := rfl
    obtain ⟨next, hrun, hnext, hsaid⟩ := hs.option hargument (by decide) (by decide) hc.depth rfl rfl
      (head?_toString_ne n.toNat) (checkValue_depth n) (hdepth rfl)
    obtain ⟨progress', hrest, hs', hsaid'⟩ := ih hnext (hpaths.imp id fun hlen => by
        rw [hsaid, if_neg (by decide), List.append_nil]
        exact hlen)
      (fun h => absurd h (by decide)) (fun h => by rw [hsaid, hcolour h]; rfl)
    refine ⟨progress', ?_, hs', fun name => ?_⟩
    · exact (List.foldlM_append (l := [_, _])).trans (by rw [hrun]; exact hrest)
    · rw [hsaid', hsaid, List.append_assoc]
      by_cases hn : name = depthOption.name
      · subst hn
        rfl
      · simp [saidOf, hn, Ne.symm hn]
  | @coloured b paths arguments depth _ ih =>
    have hargument : ("--color" : String).toList = '-' :: '-' :: "color".toList := rfl
    have hword : (colourWord b).toList.head? ≠ some '-' := by cases b <;> decide
    obtain ⟨next, hrun, hnext, hsaid⟩ := hs.option hargument (by decide) (by decide) hc.colour rfl rfl
      hword (checkValue_colour b) (hcolour rfl)
    obtain ⟨progress', hrest, hs', hsaid'⟩ := ih hnext (hpaths.imp id fun hlen => by
        rw [hsaid, if_neg (by decide), List.append_nil]
        exact hlen)
      (fun h => by rw [hsaid, hdepth h]; rfl) (fun h => absurd h (by decide))
    refine ⟨progress', ?_, hs', fun name => ?_⟩
    · exact (List.foldlM_append (l := [_, _])).trans (by rw [hrun]; exact hrest)
    · rw [hsaid', hsaid, List.append_assoc]
      by_cases hn : name = colourOption.name
      · subst hn
        rfl
      · simp [saidOf, hn, Ne.symm hn]

/-- What is given fits together when nothing excludes anything. -/
theorem checkGiven_eq_ok {given : Given} {p : Parameter} (hc : ReadsSources c p)
    (hfree : ∀ g ∈ given, g.1.excludes = []) (hgiven : given.has p.name = true) :
    checkGiven c given = .ok () := by
  have hrivals : ∀ g ∈ given, rivals given g.1 = [] := by
    intro g hg
    rw [rivals, List.filter_eq_nil_iff]
    intro q hq
    obtain ⟨g', hg', rfl⟩ := List.mem_map.mp hq
    simp [hfree g hg, hfree g' hg']
  have hmissing : (c.parameters.find? fun q => q.required && !given.has q.name) = none := by
    rw [List.find?_eq_none]
    intro q hq hboth
    rw [Bool.and_eq_true] at hboth
    obtain rfl := hc.optional q hq hboth.1
    simp [hgiven] at hboth
  simp only [checkGiven, hmissing]
  split
  · rename_i mistake hclash
    obtain ⟨g, hg, hconflict⟩ := List.mem_filterMap.mp (List.mem_of_head? hclash)
    simp [hrivals g hg] at hconflict
  · rfl

/-- The arguments are understood as they are meant. -/
theorem readArguments_of_asks {p : Parameter} (hc : ReadsSources c p)
    (h : Asks paths depth coloured arguments) (hne : paths ≠ [])
    (hpaths : p.many = true ∨ paths.length ≤ 1) :
    ∃ given, readArguments c arguments = .ok given ∧
      ∀ name, given.values name = saidOf paths depth coloured name := by
  obtain ⟨progress, hrun, hs, hsaid⟩ := foldlM_readArgument hc h Progress.sound_start hpaths
    (fun _ => rfl) (fun _ => rfl)
  obtain ⟨settled, hsettle, hs', hnone, hsaid'⟩ := hs.settle
  have hvalues : ∀ name, settled.given.values name = saidOf paths depth coloured name := by
    intro name
    have hall : settled.said name = saidOf paths depth coloured name := by
      rw [hsaid', hsaid]
      rfl
    simpa [Progress.said, hnone] using hall
  have hhas : settled.given.has p.name = true := by
    by_contra hnot
    have hnil := Given.values_of_has (Bool.eq_false_iff.mpr hnot)
    rw [hvalues, hc.name] at hnil
    exact hne hnil
  refine ⟨settled.given, ?_, hvalues⟩
  rw [readArguments, hrun]
  show (progress.settle >>= _) = _
  rw [hsettle]
  show (checkGiven c settled.given >>= _) = _
  rw [checkGiven_eq_ok hc (fun g hg => (hs'.given g hg).2) hhas]
  rfl

end LocaleText.CommandLine
