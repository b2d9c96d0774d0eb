import LookML.Proofs.Parser.Leaves
import LookML.Proofs.Scan.Lines

/-!
# Places — where the leaves of a document stand in its source

What a document has before its items, the leaves of its walk and what it has after them make up
its source.  So the place of a leaf is found by adding up what is written before it, and the line
of a leaf is the one of that place.
-/

namespace LookML

open Token (lineFeeds LinesFrom lineAfter linesFrom_append)

/-- The text of a document up to the value of `leaf`, if `earlier` are the leaves before it. -/
def Document.textBefore (d : Document) (earlier : List Leaf) (leaf : Leaf) : String :=
  d.before ++ String.join (earlier.map Leaf.print) ++ leaf.before

/-- The value of a leaf is read on the line that the tokens before it reach. -/
theorem Leaf.ReadFrom.line?_eq {leaf : Leaf} {run : List Token} {line : Nat}
    (h : leaf.ReadFrom run) (hl : LinesFrom line run) :
    leaf.line? = some (line + lineFeeds leaf.before.toList) := by
  obtain ⟨-, hb, -, -, hline, -, -⟩ := h
  obtain ⟨hfirst, -⟩ := (linesFrom_append.mp (linesFrom_append.mp hl).2).1
  rw [hline, hfirst, lineAfter, hb]

/-- Each leaf of a parsed document has a line, and it is the line of its source on which the value
of the leaf starts: one more than the number of line feeds before that place. -/
theorem line?_of_parse {source : String} {d : Document} (h : parse source = .ok d)
    {earlier later : List Leaf} {leaf : Leaf} (hl : d.leaves = earlier ++ leaf :: later) :
    (∃ rest, source = d.textBefore earlier leaf ++ (leaf.written ++ rest)) ∧
      leaf.line? = some (1 + lineFeeds (d.textBefore earlier leaf).toList) := by
  obtain ⟨before, run, after, last, ht, hsource, -, hbefore, hcovers, -, -⟩ := leaves_of_parse h
  rw [hl] at hcovers
  obtain ⟨front, mid, back, rfl, hfront, hmid, -⟩ := hcovers.split
  constructor
  · refine ⟨leaf.after ++ Token.sourceAll (back ++ after), ?_⟩
    simp only [← hsource, Document.textBefore, Token.sourceAll_append, hbefore, hfront.sourceAll,
      hmid.sourceAll, Leaf.print, String.append_assoc]
  · have hlines := (linesFrom_append.mp (Token.linesFrom_of_tokenize ht).2).2
    have hmid' := (linesFrom_append.mp (linesFrom_append.mp (linesFrom_append.mp hlines).1).2).1
    rw [hmid.line?_eq hmid', lineAfter, lineAfter, hbefore, hfront.sourceAll]
    simp [Document.textBefore, Token.source, Lexeme.source, Nat.add_assoc]

/-- Both kinds of line break, an expression and a quoted literal of two lines each. -/
def Samples.folded : String :=
  "# c\r\nview: v \x7b\r\n sql: a\nb;;\n label: \"x\ny\" hidden: yes\n\x7d\n"

theorem line?_of_parse_folded :
    ∃ d leaf, parse Samples.folded = .ok d ∧
      d.leaves = d.leaves.take 12 ++ leaf :: d.leaves.drop 13 ∧ leaf.value = "yes" ∧
      leaf.line? = some 6 ∧
      leaf.line? = some (1 + lineFeeds (d.textBefore (d.leaves.take 12) leaf).toList) := by
  have hok : ((parse Samples.folded).toOption.bind (·.leaves[12]?)).map
      (fun leaf => (leaf.value, leaf.line?)) = some ("yes", some 6) := by decide +kernel
  cases hd : parse Samples.folded with
  | error e => simp [hd, Except.toOption] at hok
  | ok d =>
    simp only [hd, Except.toOption, Option.bind_some, Option.map_eq_some_iff,
      Prod.mk.injEq] at hok
    obtain ⟨leaf, hleaf, hvalue, hline⟩ := hok
    obtain ⟨hlt, rfl⟩ := List.getElem?_eq_some_iff.mp hleaf
    have hsplit : d.leaves = d.leaves.take 12 ++ d.leaves[12] :: d.leaves.drop 13 := by
      rw [← List.drop_eq_getElem_cons hlt, List.take_append_drop]
    exact ⟨d, d.leaves[12], rfl, hsplit, hvalue, hline, (line?_of_parse hd hsplit).2⟩

end LookML
