import LocaleText.Proofs.CommandLine.Arguments

/-!
# Checking sources in order

`check` reads sources one after another and stops at the first one that is at fault. What it says of
that source is what `ast` says of it, whatever comes behind it.

* `Sources` are the files and the standard input in bytes
* `Sources.behind` is what is left of them once some paths have been loaded: the standard input can
  be read once
* `Sources.AllRead` says that paths, taken in order, can all be read
* `load_eq` and `reads_iff` say what loading a path comes to
* `runCheck_eq` is the run over the paths, by induction on those that can be read
* `check_eq_first_failure` is the comparison of the two commands, from the arguments to the outcome
-/

namespace LocaleText.CommandLine

/-! ### Sources -/

/-- What the paths of a call lead to: bytes, or a reason why there are none. -/
structure Sources where
  files : String → Except ReadError ByteArray
  stdin : Except ReadError ByteArray

namespace Sources

variable (sources : Sources)

/-- The surroundings in which a command finds the sources. -/
def surroundings : Surroundings :=
  ⟨fun path => sources.files path >>= decodeText, sources.stdin >>= decodeText⟩

def content (path : String) : Except ReadError ByteArray :=
  if path = "-" then sources.stdin else sources.files path

/-- What is left once some paths have been loaded: the first dash takes all of the standard input. -/
def behind (paths : List String) : Sources :=
  if "-" ∈ paths then { sources with stdin := .ok .empty } else sources

/-- A path stands for a text that can be read. -/
def Reads (limit : Option Nat) (path : String) : Prop :=
  ∃ bytes text resource, sources.content path = .ok bytes ∧ String.fromUTF8? bytes = some text ∧
    Resource.read limit text = .ok resource

/-- Paths that are loaded one after another can all be read. -/
def AllRead (limit : Option Nat) : Sources → List String → Prop
  | _, [] => True
  | sources, path :: paths => sources.Reads limit path ∧ AllRead limit (sources.behind [path]) paths

/-- Paths are loaded one at a time. -/
theorem behind_cons (path : String) (paths : List String) :
    sources.behind (path :: paths) = (sources.behind [path]).behind paths := by
  by_cases hpath : path = "-"
  · by_cases hpaths : "-" ∈ paths <;> simp [behind, hpath, hpaths]
  · by_cases hpaths : "-" ∈ paths <;> simp [behind, Ne.symm hpath, hpaths]

variable {sources} in
/-- If all paths can be read, then each one from what those before it leave. -/
theorem AllRead.of_append {limit : Option Nat} {before behind : List String} {path : String}
    (h : sources.AllRead limit (before ++ path :: behind)) :
    (sources.behind before).Reads limit path := by
  induction before generalizing sources with
  | nil => exact h.1
  | cons other before ih =>
    rw [behind_cons]
    exact ih h.2

/-- Loading a path yields its text, and leaves the sources behind it. -/
theorem load_eq (path : String) :
    Surroundings.load (.ofOperand path) sources.surroundings =
      (sources.content path >>= decodeText, (sources.behind [path]).surroundings) := by
  by_cases hpath : path = "-"
  · simp only [Origin.ofOperand, content, behind, hpath, if_true, List.mem_singleton]
    rfl
  · simp only [Origin.ofOperand, content, behind, hpath, if_false, List.mem_singleton, Ne.symm hpath]
    rfl

/-- A path can be read when a command finds no fault with what it loads for it. -/
theorem reads_iff {settings : Settings} {path : String} :
    sources.Reads settings.limit path ↔ ∃ resource,
      readLoaded settings (.ofOperand path) (sources.content path >>= decodeText) = .ok resource := by
  constructor
  · intro h
    obtain ⟨bytes, text, resource, hcontent, htext, hread⟩ := h
    refine ⟨resource, ?_⟩
    have hloaded : (sources.content path >>= decodeText) = .ok text := by
      rw [hcontent]
      show decodeText bytes = _
      rw [decodeText, htext]
    rw [hloaded]
    show (Resource.read settings.limit text).mapError _ = _
    rw [hread]
    rfl
  · intro h
    obtain ⟨resource, h⟩ := h
    cases hcontent : sources.content path with
    | error reason =>
      rw [hcontent] at h
      exact absurd h (by simp [readLoaded, bind, Except.bind])
    | ok bytes =>
      rw [hcontent] at h
      cases htext : String.fromUTF8? bytes with
      | none =>
        exact absurd h (by simp [readLoaded, bind, Except.bind, decodeText, htext])
      | some text =>
        have hloaded : ((.ok bytes : Except ReadError ByteArray) >>= decodeText) = .ok text := by
          show decodeText bytes = _
          rw [decodeText, htext]
        rw [hloaded] at h
        cases hread : Resource.read settings.limit text with
        | error e =>
          exact absurd h (by simp [readLoaded, hread, Except.mapError])
        | ok r => exact ⟨bytes, text, r, hcontent, htext, hread⟩

end Sources

/-! ### Commands -/

variable {sources : Sources} {settings : Settings} {path : String}

theorem runAst_eq (view : View) (origin : Origin) (s : Surroundings) :
    (runAst Surroundings.load settings view origin s).1 =
      match readLoaded settings origin (Surroundings.load origin s).1 with
      | .ok resource => .success (view.show resource)
      | .error message => .failure message := by
  show ((match readLoaded settings origin (Surroundings.load origin s).1 with
    | .ok resource => pure (.success (view.show resource))
    | .error message => pure (.failure message) : StateM Surroundings Outcome)
      (Surroundings.load origin s).2).1 = _
  cases readLoaded settings origin (Surroundings.load origin s).1 <;> rfl

/-- One source, and then the others with what it leaves. -/
theorem runCheck_cons (origin : Origin) (origins : List Origin) (s : Surroundings) :
    (runCheck Surroundings.load settings (origin :: origins) s).1 =
      match readLoaded settings origin (Surroundings.load origin s).1 with
      | .ok _ => (runCheck Surroundings.load settings origins (Surroundings.load origin s).2).1
      | .error message => .failure message := by
  show ((match readLoaded settings origin (Surroundings.load origin s).1 with
    | .ok _ => runCheck Surroundings.load settings origins
    | .error message => pure (.failure message) : StateM Surroundings Outcome)
      (Surroundings.load origin s).2).1 = _
  cases readLoaded settings origin (Surroundings.load origin s).1 <;> rfl

/-- By induction on the paths: a path that can be read is passed over, and at the first one that
cannot, `check` ends as `ast` does. -/
theorem runCheck_eq (settings : Settings) (paths : List String) (sources : Sources) :
    (sources.AllRead settings.limit paths ∧
      (runCheck Surroundings.load settings (paths.map Origin.ofOperand) sources.surroundings).1 =
        .success "") ∨
    ∃ before path behind message, paths = before ++ path :: behind ∧
      sources.AllRead settings.limit before ∧
      ¬ (sources.behind before).Reads settings.limit path ∧
      (runCheck Surroundings.load settings (paths.map Origin.ofOperand) sources.surroundings).1 =
        .failure message ∧
      ∀ view, (runAst Surroundings.load settings view (.ofOperand path)
        (sources.behind before).surroundings).1 = .failure message := by
  induction paths generalizing sources with
  | nil => exact .inl ⟨trivial, rfl⟩
  | cons path paths ih =>
    rw [List.map_cons, runCheck_cons, sources.load_eq]
    cases hread : readLoaded settings (.ofOperand path) (sources.content path >>= decodeText) with
    | ok resource =>
      have hreads := sources.reads_iff.mpr ⟨resource, hread⟩
      rcases ih (sources.behind [path]) with ⟨hall, hrun⟩ |
        ⟨before, culprit, behind, message, rfl, hall, hnot, hrun, hast⟩
      · exact .inl ⟨⟨hreads, hall⟩, hrun⟩
      · rw [← sources.behind_cons] at hnot hast
        exact .inr ⟨path :: before, culprit, behind, message, rfl, ⟨hreads, hall⟩, hnot, hrun, hast⟩
    | error message =>
      refine .inr ⟨[], path, paths, message, rfl, trivial, fun hreads => ?_, rfl, fun view => ?_⟩
      · obtain ⟨resource, hok⟩ := sources.reads_iff.mp hreads
        simp [hread] at hok
      · show (runAst Surroundings.load settings view (.ofOperand path) sources.surroundings).1 = _
        rw [runAst_eq, sources.load_eq, hread]

/-! ### Calls -/

variable {paths arguments : List String} {depth : Option UInt32} {coloured : Option Bool}

theorem readsSources_ast : ∃ p, ReadsSources ast p :=
  ⟨_, rfl, by decide, by decide, rfl, rfl, rfl, rfl, rfl, by decide⟩

theorem readsSources_check : ∃ p, ReadsSources check p ∧ p.many = true :=
  ⟨_, ⟨rfl, by decide, by decide, rfl, rfl, rfl, rfl, rfl, by decide⟩, rfl⟩

/-- The settings that arguments ask for. -/
def settingsOf (depth : Option UInt32) (coloured : Option Bool) : Settings :=
  ⟨limitOf (depth.map UInt32.toNat), coloured = some true⟩

theorem settings_of_values {given : Given}
    (h : ∀ name, given.values name = saidOf paths depth coloured name) :
    given.settings = settingsOf depth coloured := by
  have hdepth : ((given.value? depthOption.name).bind fun text =>
      (readNumber UInt32.size text).toOption) = depth.map UInt32.toNat := by
    rw [Given.value?, h]
    cases depth with
    | none => rfl
    | some n =>
      have hn : n.toNat < UInt32.size := n.toNat_lt
      show (readNumber UInt32.size (toString n.toNat)).toOption = _
      rw [readNumber_toString hn (Nat.lt_trans hn (by decide))]
      rfl
  have hcolour : decide (given.value? colourOption.name = some "always") =
      decide (coloured = some true) := by
    rw [Given.value?, h]
    cases coloured with
    | none => rfl
    | some b =>
      rw [show saidOf paths depth (some b) colourOption.name = [colourWord b] from rfl]
      cases b <;> decide
  simp only [Given.settings, settingsOf, hdepth, hcolour]

/-- From the arguments to the run over the paths. -/
theorem runIn_check (h : Asks paths depth coloured arguments) (hne : paths ≠ [])
    (s : Surroundings) : runIn s (check.name :: arguments) =
      (runCheck Surroundings.load (settingsOf depth coloured) (paths.map Origin.ofOperand) s).1 := by
  obtain ⟨p, hc, hmany⟩ := readsSources_check
  obtain ⟨given, hread, hvalues⟩ := readArguments_of_asks hc h hne (.inl hmany)
  have hcall : callOf (check.name :: arguments) = .run check given := by
    show callCommand check arguments = _
    rw [callCommand, hread]
  have hcheck : runCommand Surroundings.load check given = runCheck Surroundings.load given.settings
      ((given.values "FILE").map Origin.ofOperand) := by
    rw [runCommand, if_pos rfl]
  have hpaths : given.values "FILE" = paths := hvalues "FILE"
  rw [runIn, run, hcall]
  show (runCommand Surroundings.load check given s).1 = _
  rw [hcheck, settings_of_values hvalues, hpaths]

theorem runIn_ast (h : Asks [path] depth coloured arguments) (s : Surroundings) :
    ∃ view, runIn s (ast.name :: arguments) =
      (runAst Surroundings.load (settingsOf depth coloured) view (.ofOperand path) s).1 := by
  obtain ⟨p, hc⟩ := readsSources_ast
  obtain ⟨given, hread, hvalues⟩ :=
    readArguments_of_asks hc h (List.cons_ne_nil path []) (.inr (Nat.le_refl 1))
  have hcall : callOf (ast.name :: arguments) = .run ast given := by
    show callCommand ast arguments = _
    rw [callCommand, hread]
  have horigin : given.origin? = some (.ofOperand path) := by
    have htext : given.value? "text" = none := by
      rw [Given.value?, hvalues]
      rfl
    have hfile : given.value? "FILE" = some path := by
      rw [Given.value?, hvalues]
      rfl
    rw [Given.origin?, htext, hfile]
    rfl
  refine ⟨given.view, ?_⟩
  rw [runIn, run, hcall]
  have hast : runCommand Surroundings.load ast given =
      runAst Surroundings.load given.settings given.view (.ofOperand path) := by
    rw [runCommand, if_neg (by decide), horigin]
  show (runCommand Surroundings.load ast given s).1 = _
  rw [hast, settings_of_values hvalues]

/-- `check` writes nothing to its output. It succeeds in silence exactly when all paths, taken in
order, can be read; otherwise it ends as `ast` does at the first path that cannot, whatever the paths
behind it are. -/
theorem check_eq_first_failure (sources : Sources) (h : Asks paths depth coloured arguments)
    (hne : paths ≠ []) :
    (runIn sources.surroundings (check.name :: arguments)).stdout = "" ∧
    ((runIn sources.surroundings (check.name :: arguments)).code = 0 ∧
        (runIn sources.surroundings (check.name :: arguments)).stderr = "" ↔
      sources.AllRead (limitOf (depth.map UInt32.toNat)) paths) ∧
    (¬ sources.AllRead (limitOf (depth.map UInt32.toNat)) paths →
      ∃ before path behind stderr, paths = before ++ path :: behind ∧
        sources.AllRead (limitOf (depth.map UInt32.toNat)) before ∧
        ¬ (sources.behind before).Reads (limitOf (depth.map UInt32.toNat)) path ∧
        runIn sources.surroundings (check.name :: arguments) = ⟨"", stderr, 1⟩ ∧
        ∀ arguments', Asks [path] depth coloured arguments' →
          runIn (sources.behind before).surroundings (ast.name :: arguments') = ⟨"", stderr, 1⟩) := by
  rw [runIn_check h hne]
  rcases runCheck_eq (settingsOf depth coloured) paths sources with ⟨hall, hrun⟩ |
    ⟨before, path, behind, message, rfl, hall, hnot, hrun, hast⟩
  · rw [hrun]
    exact ⟨rfl, ⟨fun _ => hall, fun _ => ⟨rfl, rfl⟩⟩, fun h => absurd hall h⟩
  · rw [hrun]
    refine ⟨rfl, ⟨fun h => absurd h.1 Nat.one_ne_zero, fun hread => ?_⟩, fun _ =>
      ⟨before, path, behind, message, rfl, hall, hnot, rfl, fun arguments' h' => ?_⟩⟩
    · exact absurd (Sources.AllRead.of_append hread) hnot
    · obtain ⟨view, hview⟩ := runIn_ast h' (sources.behind before).surroundings
      rw [hview, hast]
      rfl

/-- The standard input is read, and the file behind it is missing. -/
theorem check_missing_behind_stdin :
    Asks ["-", "a.l20n"] (some 3) (some true)
        ["--max-depth", "3", "-", "--color", "always", "a.l20n"] ∧
      ["-", "a.l20n"] ≠ [] ∧
      ∃ before path behind stderr, ["-", "a.l20n"] = before ++ path :: behind ∧
        Sources.AllRead (some 3) ⟨fun _ => .error .missing, .ok .empty⟩ before ∧
        ¬ (Sources.behind ⟨fun _ => .error .missing, .ok .empty⟩ before).Reads (some 3) path ∧
        runIn (Sources.surroundings ⟨fun _ => .error .missing, .ok .empty⟩)
          ["check", "--max-depth", "3", "-", "--color", "always", "a.l20n"] = ⟨"", stderr, 1⟩ ∧
        ∀ arguments', Asks [path] (some 3) (some true) arguments' →
          runIn (Sources.behind ⟨fun _ => .error .missing, .ok .empty⟩ before).surroundings
            ("ast" :: arguments') = ⟨"", stderr, 1⟩ := by
  have hasks : Asks ["-", "a.l20n"] (some 3) (some true)
      ["--max-depth", "3", "-", "--color", "always", "a.l20n"] :=
    .depth (n := 3) (.path ⟨by decide, .inl rfl⟩ (.coloured (b := true)
      (.path ⟨by decide, .inr (by decide)⟩ .nil)))
  refine ⟨hasks, by decide, (check_eq_first_failure _ hasks (by decide)).2.2 ?_⟩
  intro hall
  obtain ⟨-, ⟨bytes, _, _, hcontent, -⟩, -⟩ := hall
  exact absurd hcontent (by simp [Sources.content, Sources.behind])

end LocaleText.CommandLine
