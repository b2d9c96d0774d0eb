import LookML.Parser.Grammar

/-!
# Parse — from a source to its document
-/

namespace LookML

/-- What parsing a source gives, and what happened on the way. -/
structure Parsed where
  tokens : List Token
  /-- What the parser did, in order; nothing if the scan stopped. -/
  log : List Parser.Entry
  result : Except ParseError Document

/-- Parses a sequence of tokens.  A document matches or fails, so the last case does not arise. -/
def parseTokens (tokens : List Token) : Except ParseError Document × List Parser.Entry :=
  match Parser.document (.ofTokens tokens) with
  | .matched document next => (.ok document, next.log.reverse)
  | .failed e next => (.error e, next.log.reverse)
  | .unmatched next => (.error (next.errorOf .endOfStream), next.log.reverse)

/-- Parses a source and keeps what happened on the way. -/
def parseLogged (source : String) : Parsed :=
  let scan := scan source
  match scan.error? with
  | some e => { tokens := scan.tokens, log := [], result := .error (.lexical e) }
  | none =>
    let (result, log) := parseTokens scan.tokens
    { tokens := scan.tokens, log, result }

/-- The document of a source. -/
def parse (source : String) : Except ParseError Document :=
  (parseLogged source).result

end LookML
