import LookML.Proofs.Parser.Blame
import LookML.Proofs.Parser.Lossless
import LookML.Proofs.Running
import LookML.Proofs.Scan.Placement
import LookML.Proofs.Text.Trim
import LookML.Report

/-!
# Lines of errors — a parse error shows a line of its source

The lines of a source are the texts between its line feeds.  Every parse error points to one of
them, and the place of a line is its characters up to the carriage returns at its end, whether or
not a line feed follows.  Places are read off pieces, so the pieces of a source are compared with
its lines: each line but the last is a piece with its line feed.
-/

namespace LookML

open Token (lineFeeds lineFeeds_append lineFeeds_eq_zero)

namespace Report

/-! ## Lines -/

/-- The lines of a source, without the line feeds between them. -/
def lines (source : String) : List (List Char) :=
  source.toList.splitOn '\n'

def lineCount (source : String) : Nat :=
  1 + lineFeeds source.toList

/-- Some lines with a line feed behind each. -/
def ended (lines : List (List Char)) : List Char :=
  lines.flatMap fun line => line ++ ['\n']

/-- A line without the carriage returns at its end. -/
def withoutReturns (line : List Char) : List Char :=
  Text.dropTrailing (· == '\r') line

/-- Whether a line ends before `rest`: at the end of the source, or at a line feed. -/
def EndsLine (rest : List Char) : Prop :=
  rest = [] ∨ ∃ more, rest = '\n' :: more

/-- The characters of a source at a place. -/
def Span.charsOf (place : Span) (source : String) : List Char :=
  (source.toList.drop place.start).take (place.stop - place.start)

theorem ended_cons (line : List Char) (lines : List (List Char)) :
    ended (line :: lines) = (line ++ ['\n']) ++ ended lines :=
  List.flatMap_cons

theorem ended_cons_append (line : List Char) (lines : List (List Char)) (text : List Char) :
    ended (line :: lines) ++ text = line ++ '\n' :: (ended lines ++ text) := by
  simp [ended_cons]

/-- Lines are split off with their line feeds. -/
theorem splitOn_ended {before : List (List Char)} (h : ∀ line ∈ before, '\n' ∉ line)
    (text : List Char) : (ended before ++ text).splitOn '\n' = before ++ text.splitOn '\n' := by
  induction before with
  | nil => rfl
  | cons line before ih =>
    rw [List.forall_mem_cons] at h
    rw [ended_cons_append, List.splitOn_append_cons_self_of_not_mem h.1, ih h.2]
    rfl

/-- Behind as many lines as there are line feeds to end them, a text has one more line. -/
theorem exists_line : ∀ {n : Nat} {text : List Char}, n ≤ lineFeeds text →
    ∃ before line rest, text = ended before ++ (line ++ rest) ∧ before.length = n ∧
      (∀ l ∈ before, '\n' ∉ l) ∧ '\n' ∉ line ∧ EndsLine rest
  | 0, text, _ => by
    by_cases hfeed : '\n' ∈ text
    · obtain ⟨line, more, rfl, hline⟩ := List.eq_append_cons_of_mem hfeed
      exact ⟨[], line, _, rfl, rfl, by simp, hline, .inr ⟨more, rfl⟩⟩
    · exact ⟨[], text, [], by simp [ended], rfl, by simp, hfeed, .inl rfl⟩
  | n + 1, text, h => by
    have hfeed : '\n' ∈ text := by
      refine Classical.not_not.mp fun hno => ?_
      rw [lineFeeds_eq_zero hno] at h
      exact Nat.not_succ_le_zero n h
    -- The first line ends at the first line feed, and the others are in what is left.
    obtain ⟨first, more, rfl, hfirst⟩ := List.eq_append_cons_of_mem hfeed
    have hmore : n ≤ lineFeeds more := by
      rw [lineFeeds_append, lineFeeds_eq_zero hfirst, Nat.zero_add] at h
      simpa [lineFeeds] using h
    obtain ⟨before, line, rest, rfl, rfl, hbefore, hline, hrest⟩ := exists_line hmore
    exact ⟨first :: before, line, rest, (ended_cons_append _ _ _).symm, rfl,
      List.forall_mem_cons.mpr ⟨hfirst, hbefore⟩, hline, hrest⟩

/-- The line that a text begins with is split off, and is the last one only if it ends the text. -/
theorem exists_splitOn {line rest : List Char} (h : '\n' ∉ line) (hrest : EndsLine rest) :
    ∃ after, (line ++ rest).splitOn '\n' = line :: after ∧ (after = [] → rest = []) := by
  rcases hrest with rfl | ⟨more, rfl⟩
  · exact ⟨[], by rw [List.append_nil, List.splitOn_eq_singleton h], fun _ => rfl⟩
  · exact ⟨more.splitOn '\n', List.splitOn_append_cons_self_of_not_mem h more,
      fun hnil => absurd hnil (List.splitOn_ne_nil _ _)⟩

/-! ## Pieces -/

theorem pieces_append {line : List Char} (h : '\n' ∉ line) (text : List Char) :
    pieces (line ++ '\n' :: text) = (line ++ ['\n']) :: pieces text := by
  induction line with
  | nil => simp [pieces]
  | cons c line ih =>
    rw [List.mem_cons, not_or] at h
    rw [List.cons_append, pieces, if_neg (Ne.symm h.1), ih h.2]
    rfl

/-- A text without line feeds is one piece, or none. -/
theorem pieces_of_notMem {line : List Char} (h : '\n' ∉ line) :
    pieces line = if line = [] then [] else [line] := by
  induction line with
  | nil => rfl
  | cons c line ih =>
    rw [List.mem_cons, not_or] at h
    rw [pieces, if_neg (Ne.symm h.1), ih h.2]
    cases line <;> rfl

/-- The place of a line behind others is its place in the pieces from there on. -/
theorem placeOf_ended {before : List (List Char)} (h : ∀ line ∈ before, '\n' ∉ line)
    (start : Nat) (text : List Char) :
    placeOf start (pieces (ended before ++ text)) (before.length + 1) =
      placeOf (start + (ended before).length) (pieces text) 1 := by
  induction before generalizing start with
  | nil => rfl
  | cons line before ih =>
    rw [List.forall_mem_cons] at h
    rw [ended_cons_append, pieces_append h.1, List.length_cons, placeOf, Nat.add_sub_cancel,
      ih h.2, ended_cons, Nat.add_assoc, ← List.length_append]
    simp

/-- Of a line break only the carriage returns are left where no line feed is. -/
theorem dropTrailing_isBreak {line : List Char} (h : '\n' ∉ line) :
    Text.dropTrailing isBreak line = withoutReturns line := by
  refine Text.dropTrailing_congr fun c hc => ?_
  have hne : c ≠ '\n' := fun hn => h (hn ▸ hc)
  simp [isBreak, hne]

/-- The first line of a text takes its place up to its carriage returns. -/
theorem placeOf_first {line rest : List Char} (h : '\n' ∉ line) (hrest : EndsLine rest)
    (start : Nat) : placeOf start (pieces (line ++ rest)) 1 =
      ⟨start, start + (withoutReturns line).length⟩ := by
  rcases hrest with rfl | ⟨more, rfl⟩
  · -- A last line that is empty is no piece, and its place is where the pieces end.
    rw [List.append_nil, pieces_of_notMem h]
    split
    · rename_i hnil
      rw [hnil]
      rfl
    · rw [placeOf, dropTrailing_isBreak h]
  · rw [pieces_append h, placeOf, Text.dropTrailing_concat rfl, dropTrailing_isBreak h]

/-- At the place of a line are its characters up to its carriage returns. -/
theorem charsOf_line {source : String} {before line rest : List Char}
    (h : source.toList = before ++ (line ++ rest)) :
    Span.charsOf ⟨before.length, before.length + (withoutReturns line).length⟩ source =
      withoutReturns line := by
  have hline : withoutReturns line <+: line ++ rest :=
    (Text.dropTrailing_isPrefix _ line).trans (List.prefix_append line rest)
  rw [Span.charsOf, h, List.drop_left, Nat.add_sub_cancel_left]
  exact (List.prefix_iff_eq_take.mp hline).symm

/-! ## Errors -/

theorem lexError_points {source : String} {e : LexError} (h : tokenize source = .error e) :
    1 ≤ e.line ∧ e.line ≤ lineCount source := by
  obtain ⟨before, text, line, hsource, -, hu⟩ := Token.tokenize_eq_error_iff_unfinished.mp h
  have hline : e.line = 1 + lineFeeds before := by
    cases hu with
    | string => rfl
    | expression hk => exact congrArg (1 + ·) (Token.lineFeeds_append_key hk before)
  rw [hline, lineCount, hsource, lineFeeds_append]
  omega

theorem token_points {source : String} {token : Token} (h : token ∈ (scan source).tokens) :
    1 ≤ token.line ∧ token.line ≤ lineCount source := by
  rw [← Token.map_token_placed] at h
  obtain ⟨p, hp, rfl⟩ := List.mem_map.mp h
  obtain ⟨before, hsource, hline⟩ := Token.isOn_placed source p hp
  rw [hline, lineCount, hsource, lineFeeds_append]
  omega

/-- A source that is not parsed is refused on one of its lines. -/
theorem error_points {source : String} {e : ParseError} (h : parse source = .error e) :
    e.PointsTo fun n => 1 ≤ n ∧ n ≤ lineCount source := by
  rw [parse_eq] at h
  cases ht : tokenize source with
  | error e' =>
    rw [ht] at h
    obtain rfl := Except.error.inj h
    exact ⟨e'.line, rfl, lexError_points ht⟩
  | ok tokens =>
    rw [ht] at h
    obtain ⟨-, rfl⟩ := Token.tokenize_eq_ok_iff.mp ht
    exact pointsTo_of_parseTokens ⟨Nat.le_refl 1, Nat.le_add_right 1 _⟩
      (fun token htoken => token_points htoken) h

/-- Every parse error points into its source: to one of its lines.  The place of a line, its number
counted from 1, is where its characters up to its carriage returns are.  It lies in the source,
reaches over no line feed, and is empty at the end for a last line that is empty. -/
theorem lineSpan_of_parse_error :
    (∀ source e, parse source = .error e →
      ∃ n, e.line? = some n ∧ 1 ≤ n ∧ n ≤ lineCount source) ∧
    ∀ source n, 1 ≤ n → n ≤ lineCount source → ∃ before line after,
      lines source = before ++ line :: after ∧ before.length + 1 = n ∧
      lineSpan source n =
        ⟨(ended before).length, (ended before).length + (withoutReturns line).length⟩ ∧
      (lineSpan source n).charsOf source = withoutReturns line ∧
      (lineSpan source n).stop ≤ source.length ∧
      '\n' ∉ (lineSpan source n).charsOf source ∧
      (line = [] → after = [] → lineSpan source n = ⟨source.length, source.length⟩) := by
  refine ⟨fun source e h => error_points h, fun source n h1 hn => ?_⟩
  have hle : n - 1 ≤ lineFeeds source.toList := by
    rw [lineCount] at hn
    omega
  obtain ⟨before, line, rest, hsource, hbefore, hbefores, hline, hrest⟩ := exists_line hle
  have hspan : lineSpan source n =
      ⟨(ended before).length, (ended before).length + (withoutReturns line).length⟩ := by
    rw [lineSpan, hsource, show n = before.length + 1 by omega, placeOf_ended hbefores,
      placeOf_first hline hrest, Nat.zero_add]
  obtain ⟨after, hafter, hlast⟩ := exists_splitOn hline hrest
  have hchars := charsOf_line hsource
  have hlength : source.length = (ended before).length + (line.length + rest.length) := by
    rw [← String.length_toList, hsource, List.length_append, List.length_append]
  have hshort : (withoutReturns line).length ≤ line.length := Text.length_dropTrailing_le _ line
  rw [hspan, hchars]
  refine ⟨before, line, after, ?_, by omega, rfl, rfl, by dsimp only; omega, ?_, ?_⟩
  · rw [lines, hsource, splitOn_ended hbefores, hafter]
  · exact fun hmem => hline ((Text.dropTrailing_isPrefix _ line).subset hmem)
  · -- With no line after it the line ends the source.
    rintro rfl rfl
    simp [hlength, hlast rfl, withoutReturns, Text.dropTrailing]

end Report

/-- No comma in a list, on a line with a wide character and two carriage returns, and an empty last
line. -/
def Samples.uncommaed : String :=
  "view: a \x7b\r\n  é: [b c]\r\r\n\x7d\n"

open Report in
theorem Report.lineSpan_of_parse_error_uncommaed :
    (∃ e n, parse Samples.uncommaed = .error e ∧ e.line? = some n ∧ 1 ≤ n ∧
      n ≤ lineCount Samples.uncommaed) ∧
    (∃ line ∈ lines Samples.uncommaed,
      (lineSpan Samples.uncommaed 2).charsOf Samples.uncommaed = withoutReturns line ∧
      (lineSpan Samples.uncommaed 2).stop ≤ Samples.uncommaed.length) ∧
    lineSpan Samples.uncommaed 2 = ⟨11, 21⟩ ∧ lineSpan Samples.uncommaed 4 = ⟨26, 26⟩ := by
  refine ⟨?_, ?_, by decide +kernel, by decide +kernel⟩
  · have hfails : (parse Samples.uncommaed).isOk = false := by decide +kernel
    cases he : parse Samples.uncommaed with
    | ok d => simp [he, Except.isOk, Except.toBool] at hfails
    | error e =>
      obtain ⟨n, hline, hn⟩ := lineSpan_of_parse_error.1 _ e he
      exact ⟨e, n, rfl, hline, hn⟩
  · obtain ⟨before, line, after, hlines, -, -, hchars, hstop, -⟩ :=
      lineSpan_of_parse_error.2 Samples.uncommaed 2 (by decide) (by decide +kernel)
    exact ⟨line, by simp [hlines], hchars, hstop⟩

end LookML
