import LocaleText.Proofs.Excerpt.Line
import LocaleText.Report

/-!
# The mark that a location is taken from

A report names the line and the column of the leftmost primary mark in the first line that has one.

* `location?_of_entries` finds it among all marks
* `Stretch.marks_eq_cons` says that a span over several lines has its first mark where it starts
* `location?_markLines` says that the location is where the primary callout starts, when all other
  callouts lie within one line each
-/

namespace LocaleText

/-! ### Marks by lines -/

section Entries

variable {entries others : List (Nat × Mark)} {k n : Nat} {m : Mark}

/-- The marks of a line among all marks, from left to right. -/
def marksAt (entries : List (Nat × Mark)) (n : Nat) : List Mark :=
  ((entries.filter fun entry => entry.1 = n).map Prod.snd).mergeSort fun m m' => m.start.le m'.start

/-- The primary marks of a line are those among the primary marks. -/
theorem filter_primary_marksAt (entries : List (Nat × Mark)) (n : Nat) :
    ((marksAt entries n).filter Mark.primary).Perm
      (((entries.filter fun entry => entry.2.primary).filter fun entry => entry.1 = n).map
        Prod.snd) := by
  have hsort : (marksAt entries n).Perm ((entries.filter fun entry => entry.1 = n).map Prod.snd) :=
    List.mergeSort_perm _ _
  refine (hsort.filter _).trans (.of_eq ?_)
  rw [List.filter_map, List.filter_filter, List.filter_filter]
  exact congrArg (List.map Prod.snd) (List.filter_congr fun _ _ => Bool.and_comm ..)

/-- The one primary mark in the topmost line that has any. -/
theorem filter_primary_marksAt_first
    (hp : entries.filter (fun entry => entry.2.primary) = (k, m) :: others)
    (ho : ∀ entry ∈ others, k < entry.1) : (marksAt entries k).filter Mark.primary = [m] := by
  have hperm := filter_primary_marksAt entries k
  have hnone : others.filter (fun entry => entry.1 = k) = [] := by
    rw [List.filter_eq_nil_iff]
    intro entry hentry
    have hlt := ho entry hentry
    simp only [decide_eq_true_eq]
    omega
  rw [hp, List.filter_cons_of_pos (by simp), hnone] at hperm
  exact List.perm_singleton.mp hperm

theorem any_primary_marksAt_above
    (hp : entries.filter (fun entry => entry.2.primary) = (k, m) :: others)
    (ho : ∀ entry ∈ others, k < entry.1) (hn : n < k) : (marksAt entries n).any Mark.primary = false := by
  have hperm := filter_primary_marksAt entries n
  have hnone : ((k, m) :: others).filter (fun entry => entry.1 = n) = [] := by
    rw [List.filter_eq_nil_iff]
    intro entry hentry
    simp only [decide_eq_true_eq]
    rcases List.mem_cons.mp hentry with rfl | hentry
    · exact Nat.ne_of_gt hn
    · have hlt := ho entry hentry
      omega
  rw [hp, hnone, List.map_nil] at hperm
  rw [List.any_eq_false]
  intro mark hmark hprimary
  have hmem := List.mem_filter.mpr ⟨hmark, hprimary⟩
  rw [hperm.eq_nil] at hmem
  exact absurd hmem (by simp)

/-- The location is that of the primary mark in the topmost line. -/
theorem location?_of_entries {lines : List SourceLine} {line : SourceLine}
    (hlines : lines.Pairwise fun l l' => l.number < l'.number) (hline : line ∈ lines)
    (hk : line.number = k) (hp : entries.filter (fun entry => entry.2.primary) = (k, m) :: others)
    (ho : ∀ entry ∈ others, k < entry.1) :
    SyntaxError.location? ((lines.map fun line => ⟨line, marksAt entries line.number⟩).filter
      fun l => !l.marks.isEmpty) = some ⟨k, m.start.char + 1⟩ := by
  obtain ⟨above, below, rfl⟩ := List.append_of_mem hline
  have hfirst := filter_primary_marksAt_first hp ho
  have hany : (marksAt entries k).any Mark.primary = true := by
    rw [List.any_eq_true]
    have hmem : m ∈ (marksAt entries k).filter Mark.primary := by simp [hfirst]
    exact ⟨m, (List.mem_filter.mp hmem).1, (List.mem_filter.mp hmem).2⟩
  have hnonempty : (marksAt entries k).isEmpty = false := by
    cases hmarks : marksAt entries k with
    | nil =>
      rw [hmarks] at hany
      exact absurd hany (by simp)
    | cons _ _ => rfl
  have hfind : ((((above ++ line :: below).map fun line =>
      (⟨line, marksAt entries line.number⟩ : MarkedLine)).filter fun l => !l.marks.isEmpty).find?
      fun l => l.marks.any Mark.primary) = some ⟨line, marksAt entries k⟩ := by
    rw [List.find?_filter, List.map_append, List.map_cons, List.find?_append,
      List.find?_eq_none.mpr, Option.none_or, List.find?_cons_of_pos]
    · rw [hk]
    · simp [hk, hany, hnonempty]
    · intro l hl
      obtain ⟨l', hl', rfl⟩ := List.mem_map.mp hl
      have hlt := (List.pairwise_append.mp hlines).2.2 l' hl' line (List.mem_cons_self ..)
      rw [hk] at hlt
      simp [any_primary_marksAt_above hp ho hlt]
  rw [SyntaxError.location?, hfind]
  simp only [Option.bind_eq_bind, Option.bind_some, hfirst, List.mergeSort_singleton]
  rw [← hk]
  rfl

end Entries

/-! ### Spans over several lines -/

namespace Stretch

variable {s : Stretch} {lines : List SourceLine}

theorem layer_singleton (first last : Point) (label : String) :
    layer [⟨1, first, last, true, label, false⟩] = [⟨1, first, last, true, label, false⟩] := by
  simp [layer, push, same]

/-- A stretch has its first mark where it starts, and all others further down. -/
theorem marks_eq_cons (lines : List SourceLine) (hs : s.covered = false) (hlt : s.start.line < s.stop.line) :
    ∃ others, s.marks lines = (s.start.line, s.opening) :: others ∧
      ∀ entry ∈ others, s.start.line < entry.1 ∧ entry.2.primary = s.primary := by
  simp only [marks, hs, Bool.false_eq_true, if_false, List.cons_append, List.nil_append]
  refine ⟨_, rfl, ?_⟩
  intro entry hentry
  simp only [List.append_assoc, List.mem_append, List.mem_map, List.mem_singleton] at hentry
  rcases hentry with ⟨number, hnumber, rfl⟩ | hlast | rfl
  · rw [numbersFrom, List.mem_range'_1] at hnumber
    exact ⟨hnumber.1, rfl⟩
  · split at hlast
    · rename_i hshown
      simp only [Bool.and_eq_true, decide_eq_true_eq] at hshown
      rw [List.mem_singleton] at hlast
      rw [hlast]
      refine ⟨?_, rfl⟩
      show s.start.line < s.stop.line - 1
      omega
    · exact absurd hlast (by simp)
  · exact ⟨hlt, rfl⟩

end Stretch

/-! ### Callouts -/

/-- A span starts in the line that its first byte is in. -/
theorem startPoint_line {lines : List SourceLine} {span : Span} :
    (startPoint lines span).line = (lineAt lines span.start).number := by
  simp only [startPoint, pointAt]
  split <;> rfl

namespace Callout

variable {a : Callout} {lines : List SourceLine}

theorem ends_fst : (a.ends lines).1 = startPoint lines a.span := by
  have hfirst : (locate lines a.span).1 = startPoint lines a.span := by
    simp only [locate]
    split
    · rfl
    · split <;> rfl
  rw [← hfirst]
  simp only [ends]
  split <;> rfl

theorem ends_snd_line : (a.ends lines).2.line = if a.span.start = a.span.stop then
    (lineAt lines a.span.start).number else (lineAt lines a.span.stop).number := by
  have hlast : (a.ends lines).2.line = (locate lines a.span).2.line := by
    simp only [ends]
    split <;> rfl
  rw [hlast]
  simp only [locate]
  split
  · exact startPoint_line
  · split <;> rfl

/-- A callout lies within one line. -/
def InLine (lines : List SourceLine) (a : Callout) : Prop :=
  (a.ends lines).1.line = (a.ends lines).2.line

theorem mark?_of_inLine (h : a.InLine lines) : a.mark? lines =
    some ⟨(a.ends lines).1, (a.ends lines).2, a.primary, some a.label, .single⟩ :=
  if_pos h

/-- A callout within one line is a mark there and no stretch. -/
theorem stretch?_of_inLine (h : a.InLine lines) : a.stretch? lines = none := if_pos h

theorem mark?_of_not_inLine (h : ¬ a.InLine lines) : a.mark? lines = none := if_neg h

theorem stretch?_of_not_inLine (h : ¬ a.InLine lines) : a.stretch? lines =
    some ⟨1, (a.ends lines).1, (a.ends lines).2, a.primary, a.label, false⟩ :=
  if_neg h

end Callout

/-- All marks of some callouts, with the numbers of their lines. -/
def markEntries (lines : List SourceLine) (callouts : List Callout) : List (Nat × Mark) :=
  (callouts.filterMap (Callout.mark? lines)).map (fun m => (m.start.line, m)) ++
    (stretchesOf lines callouts).flatMap (Stretch.marks lines)

theorem markLines_eq (lines : List SourceLine) (callouts : List Callout) :
    markLines lines callouts = (lines.map fun line =>
      ⟨line, marksAt (markEntries lines callouts) line.number⟩).filter fun l => !l.marks.isEmpty :=
  rfl

section Callouts

variable {lines : List SourceLine} {a : Callout} {others : List Callout}

/-- Callouts that are not primary and lie within a line each have no primary mark. -/
theorem filter_primary_others (h : ∀ b ∈ others, b.primary = false ∧ b.InLine lines) :
    ((others.filterMap (Callout.mark? lines)).map fun m => (m.start.line, m)).filter
      (fun entry => entry.2.primary) = [] := by
  rw [List.filter_eq_nil_iff]
  intro entry hentry
  obtain ⟨m, hm, rfl⟩ := List.mem_map.mp hentry
  obtain ⟨b, hb, hmark⟩ := List.mem_filterMap.mp hm
  rw [Callout.mark?_of_inLine (h b hb).2] at hmark
  rw [← Option.some.inj hmark, (h b hb).1]
  exact Bool.false_ne_true

theorem filterMap_stretch?_others (h : ∀ b ∈ others, b.primary = false ∧ b.InLine lines) :
    others.filterMap (Callout.stretch? lines) = [] := by
  rw [List.filterMap_eq_nil_iff]
  exact fun b hb => Callout.stretch?_of_inLine (h b hb).2

/-- The topmost primary mark stands where the primary callout starts. By cases on whether that one
lies within one line. -/
theorem filter_primary_markEntries (ha : a.primary = true)
    (hle : (a.ends lines).1.line ≤ (a.ends lines).2.line)
    (h : ∀ b ∈ others, b.primary = false ∧ b.InLine lines) :
    ∃ m below, (markEntries lines (a :: others)).filter (fun entry => entry.2.primary) =
        ((a.ends lines).1.line, m) :: below ∧ m.start = (a.ends lines).1 ∧
      ∀ entry ∈ below, (a.ends lines).1.line < entry.1 := by
  by_cases hin : a.InLine lines
  · have hstretch : stretchesOf lines (a :: others) = [] := by
      rw [stretchesOf, List.filterMap_cons_none (Callout.stretch?_of_inLine hin),
        filterMap_stretch?_others h]
      simp [Stretch.layer]
    refine ⟨⟨(a.ends lines).1, (a.ends lines).2, a.primary, some a.label, .single⟩, [], ?_, rfl,
      by simp⟩
    rw [markEntries, hstretch, List.flatMap_nil, List.append_nil,
      List.filterMap_cons_some (Callout.mark?_of_inLine hin), List.map_cons,
      List.filter_cons_of_pos (by exact ha), filter_primary_others h]
  · have hstretch : stretchesOf lines (a :: others) =
        [⟨1, (a.ends lines).1, (a.ends lines).2, true, a.label, false⟩] := by
      rw [stretchesOf, List.filterMap_cons_some (Callout.stretch?_of_not_inLine hin),
        filterMap_stretch?_others h, ha, Stretch.layer_singleton]
    have hlt : (a.ends lines).1.line < (a.ends lines).2.line := Nat.lt_of_le_of_ne hle hin
    obtain ⟨below, hmarks, hbelow⟩ := Stretch.marks_eq_cons
      (s := ⟨1, (a.ends lines).1, (a.ends lines).2, true, a.label, false⟩) lines rfl hlt
    refine ⟨Stretch.opening ⟨1, (a.ends lines).1, (a.ends lines).2, true, a.label, false⟩, below, ?_,
      rfl, fun entry hentry => (hbelow entry hentry).1⟩
    rw [markEntries, hstretch, List.flatMap_singleton, hmarks, List.filter_append,
      List.filterMap_cons_none (Callout.mark?_of_not_inLine hin), filter_primary_others h,
      List.nil_append, List.filter_cons_of_pos rfl,
      List.filter_eq_self.mpr fun entry hentry => (hbelow entry hentry).2]

end Callouts

/-- The location is where the primary callout starts, when it does not run upwards and all others
lie within one line each. -/
theorem location?_markLines {source : List Char} {a : Callout} {others : List Callout}
    (ha : a.primary = true)
    (hle : (a.ends (sourceLines source)).1.line ≤ (a.ends (sourceLines source)).2.line)
    (h : ∀ b ∈ others, b.primary = false ∧ b.InLine (sourceLines source)) :
    SyntaxError.location? (markLines (sourceLines source) (a :: others)) =
      some ⟨(startPoint (sourceLines source) a.span).line,
        (startPoint (sourceLines source) a.span).char + 1⟩ := by
  obtain ⟨m, below, hprimary, hstart, hbelow⟩ := filter_primary_markEntries ha hle h
  have hline : (lineAt (sourceLines source) a.span.start).number =
      (a.ends (sourceLines source)).1.line := by
    rw [Callout.ends_fst, startPoint_line]
  rw [markLines_eq, location?_of_entries (pairwise_sourceLines source)
    (lineAt_mem (sourceLines_ne_nil source) a.span.start) hline hprimary hbelow, hstart,
    Callout.ends_fst]

end LocaleText
