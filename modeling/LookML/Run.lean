import LookML.Arguments
import LookML.Json.Read
import LookML.Json.Write
import LookML.Load
import LookML.Outline
import LookML.Report
import LookML.Value.Json

/-!
# Run — the command as a function

A command reads one input and prints one text.  Its exit code tells a parse error, an error of
conversion and an error of reading apart.
-/

namespace LookML

/-- What a command leaves behind. -/
structure Outcome where
  exit : Nat
  stdout : String := ""
  stderr : String := ""
deriving DecidableEq, Repr

namespace Outcome

/-- A command that prints `stdout`. -/
def success (stdout : String) : Outcome :=
  { exit := 0, stdout }

/-- A command that ends with an error. -/
def failure (exit : Nat) (message : String) : Outcome :=
  { exit, stderr := "error: " ++ message ++ "\n" }

/-- A source that does not parse. -/
def parseError : Nat := 1

/-- A source or a JSON input that has no other form, or arguments that make no sense. -/
def conversionError : Nat := 2

/-- An input that cannot be read. -/
def readError : Nat := 3

end Outcome

/-- What reading an input gives. -/
inductive Input where
  | text (text : String)
  | missing
  | directory
  /-- The path goes on below a file. -/
  | notDirectory
  /-- The path, or a name in it, is too long. -/
  | nameTooLong
  /-- Its bytes are not UTF-8. -/
  | notText
  /-- It cannot be read for another reason. -/
  | unreadable (reason : String)
deriving DecidableEq, Repr

namespace Input

/-- The input that bytes make, which have to be UTF-8. -/
def ofBytes (bytes : ByteArray) : Input :=
  match String.fromUTF8? bytes with
  | some source => text source
  | none => notText

/-- The text of an input, or why there is none. -/
def read : Input → Except String String
  | text source => .ok source
  | missing => .error "No such file or directory (os error 2)"
  | directory => .error "Is a directory (os error 21)"
  | notDirectory => .error "Not a directory (os error 20)"
  | nameTooLong => .error "File name too long (os error 36)"
  | notText => .error "stream did not contain valid UTF-8"
  | unreadable reason => .error reason

end Input

namespace Command

/-- What an input is called when it cannot be read. -/
def inputName (command : Command) : String :=
  if command.input = "-" then "stdin" else command.input

/-- What an input is called in a report. -/
def sourceName (command : Command) : String :=
  if command.input = "-" then "<stdin>" else command.input

def printJson (command : Command) (value : Value) : Outcome :=
  let json := value.toJson
  .success ((if command.compact then json.compact else json.pretty 0) ++ "\n")

/-- Prints the source for JSON input. -/
def convertJson (text : String) : Outcome :=
  match Json.read? text with
  | none => { exit := Outcome.conversionError, stderr := "error: invalid JSON input" }
  | some json =>
    match Value.ofJson json with
    | .error e => .failure Outcome.conversionError e.message
    | .ok value =>
      match dump value with
      | .error e => .failure Outcome.conversionError (e.message ++ ": " ++ e.message)
      | .ok text => .success (text ++ "\n")

def printDocument (command : Command) (document : Document) : Outcome :=
  match command.output with
  | .tree => .success (document.outline ++ "\n")
  | .format => .success document.print
  | _ =>
    match document.project.1 with
    | .ok value => command.printJson value
    | .error e =>
      .failure Outcome.conversionError
        ("cannot convert " ++ command.sourceName ++ " to plain data: " ++ e.message)

/-- Carries out a command on the text of its input. -/
def runOn (command : Command) (source : String) : Outcome :=
  if command.output = .fromJson then convertJson source
  else
    match parse source with
    | .error e =>
      { exit := Outcome.parseError, stderr := e.report command.sourceName source }
    | .ok document => command.printDocument document

def run (command : Command) (input : Input) : Outcome :=
  match input.read with
  | .ok source => command.runOn source
  | .error reason =>
    .failure Outcome.readError ("failed to read " ++ command.inputName ++ ": " ++ reason)

end Command

namespace Request

def versionText : String :=
  "lkml 0.1.0\n"

def helpText : String :=
  "Parse LookML files and convert them to and from plain data\n\n" ++
  "Usage: lkml [OPTIONS] <INPUT>\n\n" ++
  "Arguments:\n" ++
  "  <INPUT>  Input file path (or \"-\" for stdin)\n\n" ++
  "Options:\n" ++
  "      --tree       Print the syntax tree\n" ++
  "      --format     Print the source written back out from its syntax tree\n" ++
  "      --from-json  Read JSON and write it out as LookML\n" ++
  "      --compact    Single-line JSON output\n" ++
  "  -h, --help       Print help\n" ++
  "  -V, --version    Print version\n"

/-- Answers a request; `open?` reads an input by its name. -/
def answer {m : Type → Type} [Monad m] (request : Request) (open? : String → m Input) :
    m Outcome :=
  match request with
  | .run command => do return command.run (← open? command.input)
  | .help => return .success helpText
  | .version => return .success versionText
  | .usage => return { exit := Outcome.conversionError, stderr := "usage" }

end Request

end LookML
