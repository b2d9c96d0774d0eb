/-!
# Arguments — the command line

One argument is the input.  Options start with a hyphen, and two hyphens alone end them; three
options choose what is printed and exclude each other.
-/

namespace LookML

/-- What the command is asked to print. -/
inductive Output where
  /-- The source as plain data, in JSON. -/
  | json
  /-- The syntax tree. -/
  | tree
  /-- The source written from its syntax tree. -/
  | format
  /-- The source for JSON input. -/
  | fromJson
deriving DecidableEq, Repr

structure Command where
  input : String
  output : Output := .json
  /-- Whether JSON is printed on one line. -/
  compact : Bool := false
deriving DecidableEq, Repr

/-- What the arguments ask for. -/
inductive Request where
  | run (command : Command)
  | help
  | version
  | usage
deriving DecidableEq, Repr

namespace Arguments

inductive Flag where
  | tree
  | format
  | fromJson
  | compact
deriving DecidableEq, Repr

/-- What was read of the arguments so far. -/
structure Progress where
  flags : List Flag := []
  input? : Option String := none
  /-- Whether the options have ended. -/
  plain : Bool := false
deriving DecidableEq, Repr

inductive Meaning where
  | flag (flag : Flag)
  | help
  | version
  | ending
  | input
  | unknown
deriving DecidableEq, Repr

/-- The meaning of an argument among options.  Of letters after one hyphen, the first decides. -/
def meaning (argument : String) : Meaning :=
  if argument = "--" then .ending
  else if argument = "--tree" then .flag .tree
  else if argument = "--format" then .flag .format
  else if argument = "--from-json" then .flag .fromJson
  else if argument = "--compact" then .flag .compact
  else if argument = "--help" then .help
  else if argument = "--version" then .version
  else
    match argument.toList with
    | '-' :: '-' :: _ => .unknown
    | '-' :: 'h' :: _ => .help
    | '-' :: 'V' :: _ => .version
    | '-' :: _ :: _ => .unknown
    | _ => .input

/-- Takes an argument as the input, of which there is one. -/
def takeInput (progress : Progress) (argument : String) : Except Request Progress :=
  if progress.input?.isSome then .error .usage else .ok { progress with input? := some argument }

def take (progress : Progress) (argument : String) : Except Request Progress :=
  if progress.plain then takeInput progress argument
  else
    match meaning argument with
    | .ending => .ok { progress with plain := true }
    | .input => takeInput progress argument
    | .help => .error .help
    | .version => .error .version
    | .unknown => .error .usage
    | .flag flag =>
      if progress.flags.contains flag then .error .usage
      else .ok { progress with flags := flag :: progress.flags }

/-- What a set of options prints, unless two of them exclude each other. -/
def output? (flags : List Flag) : Option Output :=
  match flags.contains .tree, flags.contains .format, flags.contains .fromJson with
  | false, false, false => some .json
  | true, false, false => some .tree
  | false, true, false => some .format
  | false, false, true => some .fromJson
  | _, _, _ => none

/-- What a whole command line asks for. -/
def request (progress : Progress) : Request :=
  match progress.input?, output? progress.flags with
  | some input, some output =>
    .run { input, output, compact := progress.flags.contains .compact }
  | _, _ => .usage

def read (arguments : List String) : Request :=
  match arguments.foldlM take {} with
  | .ok progress => request progress
  | .error request => request

end Arguments

end LookML
