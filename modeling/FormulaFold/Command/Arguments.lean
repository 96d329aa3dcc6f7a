import FormulaFold.Decimal.Reading
import FormulaFold.Text.EditDistance
import FormulaFold.Text.LetterCase
import FormulaFold.Text.Quoted
import FormulaFold.Word

/-! # Arguments of the command

The command is called with a verb, the documents it applies to, and flags anywhere among them.
The verb is the first argument that is neither a flag nor the value of one; a dash alone is the
name of a document, and so is an empty argument, even in front of the verb.
A flag that takes a value has it after an equals sign or as the next argument; a switch takes
one only after an equals sign.  Switches of one letter may stand together behind one dash, where
a value belongs to the last of them.  After two dashes alone there are no more flags.
-/
namespace FormulaFold

/-- What is to be done with documents. -/
inductive Verb where
  | fold
  | eval
deriving DecidableEq, Inhabited

/-- The verb with the given name. -/
def Verb.ofName? : String → Option Verb
  | "fold" => some .fold
  | "eval" => some .eval
  | _ => none

/-- The names that may be meant by a wrong one: it is the beginning of them or at most two bytes
away from them.  Besides the verbs there is a command for the completions of a shell. -/
def Verb.similarNames (name : String) : List String :=
  let name := Text.lower name
  ["fold", "eval", "completion"].filter fun known =>
    known.startsWith name || Text.distance name.toUTF8.toList known.toUTF8.toList ≤ 2

/-- The flags of a call. -/
structure Flags where
  debug : Bool := false
  plain : Bool := false
  /-- The settings file; it is searched when there is no name. -/
  config : String := ""
  precision : Option Int := none
  noPartial : Option Bool := none
  /-- Whether an explanation of the command is asked for. -/
  help : Bool := false
  /-- Whether the inner structure of formulas is asked for. -/
  dump : Bool := false

/-- Why a call is wrong. -/
inductive UsageError where
  | noVerb
  | unknownVerb (name : String)
  | unknownFlag (name : String)
  | missingValue (name : String)
  | invalidValue (name value : String)
  /-- The flag asks for something that cannot be had. -/
  | unavailable (name : String)
  | noDocuments

/-- The question that follows a wrong name of a verb. -/
def UsageError.suggestion (name : String) : String :=
  match Verb.similarNames name with
  | [] => ""
  | names => "\n\nDid you mean this?\n" ++ "".intercalate (names.map fun n => "\t" ++ n ++ "\n")

/-- The wording of a usage error. -/
def UsageError.message : UsageError → String
  | noVerb => "no command given"
  | unknownVerb name =>
    "unknown command " ++ Text.quote name ++ " for \"sheetc\"" ++ suggestion name
  | unknownFlag name => "unknown flag: " ++ name
  | missingValue name => "flag needs an argument: " ++ name
  | invalidValue name value => "invalid argument \"" ++ value ++ "\" for \"" ++ name ++ "\" flag"
  | unavailable name => "not available: " ++ name
  | noDocuments => "requires at least 1 arg(s), only received 0"

/-- A call of the command. -/
structure Call where
  verb : Verb
  flags : Flags
  documents : List String

namespace Call

/-- The words for truth values. -/
def truth? (word : String) : Option Bool :=
  if ["1", "t", "T", "TRUE", "true", "True"].contains word then some true
  else if ["0", "f", "F", "FALSE", "false", "False"].contains word then some false
  else none

/-- The number written by digits of a base; underscores are passed over. -/
def digits? (base : Nat) : (value : Nat) → List Char → Option Nat
  | value, [] => some value
  | value, c :: cs =>
    if c = '_' then digits? base value cs
    else do digits? base (value * base + (← Decimal.digit? base c)) cs

/-- The base of an integer by what it starts with, and its digits. -/
def splitBase : List Char → Nat × List Char
  | '0' :: 'x' :: cs | '0' :: 'X' :: cs => (16, cs)
  | '0' :: 'o' :: cs | '0' :: 'O' :: cs => (8, cs)
  | '0' :: 'b' :: cs | '0' :: 'B' :: cs => (2, cs)
  | '0' :: c :: cs => (8, c :: cs)
  | cs => (10, cs)

/-- The integer that a word writes, in one of four bases. -/
def integer? (word : String) : Option Int :=
  let cs := word.toList
  let (negative, magnitude) := match cs with
    | '-' :: cs => (true, cs)
    | '+' :: cs => (false, cs)
    | cs => (false, cs)
  let (base, ds) := splitBase magnitude
  if !ds.any Char.isAlphanum || !Decimal.underscoresFit cs then none
  else do
    let n : Int := ← digits? base 0 ds
    let n := if negative then -n else n
    if fitsWord n then some n else none

/-- Set a flag; `none` stands for a flag without a value. -/
def setFlag (flags : Flags) (name : String) (value : Option String) : Except UsageError Flags :=
  let switch (set : Bool → Flags) : Except UsageError Flags :=
    match value with
    | none => .ok (set true)
    | some word =>
      match truth? word with
      | some b => .ok (set b)
      | none => .error (.invalidValue name word)
  match name with
  | "-d" | "--debug" => switch fun b => { flags with debug := b }
  | "--plain" => switch fun b => { flags with plain := b }
  | "--no-partial" => switch fun b => { flags with noPartial := some b }
  | "-h" | "--help" => switch fun b => { flags with help := b }
  | "--dump" => switch fun b => { flags with dump := b }
  | "--config" => .ok { flags with config := value.getD "" }
  | "--precision" =>
    match integer? (value.getD "") with
    | some n => .ok { flags with precision := some n }
    | none => .error (.invalidValue name (value.getD ""))
  | _ => .error (.unknownFlag name)

/-- Whether a flag takes a value. -/
def takesValue (name : String) : Bool := name = "--config" || name = "--precision"

/-- A flag's name and the value after its equals sign. -/
def splitFlag (arg : String) : String × Option String :=
  let name := arg.toList.takeWhile (· ≠ '=')
  match arg.toList.drop name.length with
  | _ :: value => (String.ofList name, some (String.ofList value))
  | [] => (String.ofList name, none)

/-- Set the flags of one letter that stand together behind a dash.  What starts with `test.` is
meant for a test runner and passed over. -/
def setLetters (flags : Flags) : List Char → Except UsageError Flags
  | [] => .ok flags
  | 't' :: 'e' :: 's' :: 't' :: '.' :: _ => .ok flags
  | c :: '=' :: v :: vs => setFlag flags (String.ofList ['-', c]) (some (String.ofList (v :: vs)))
  | c :: cs => do setLetters (← setFlag flags (String.ofList ['-', c]) none) cs

/-- The name of the verb and the arguments without it.  Flags with their values are passed over,
and so is what may be a document in front of the verb. -/
def takeVerb? : List String → Option (String × List String)
  | [] => none
  | arg :: rest =>
    if arg = "--" then none
    else if takesValue arg then
      match rest with
      | [] => none
      | value :: rest => (takeVerb? rest).map fun (name, others) => (name, arg :: value :: others)
    else if arg = "" || arg.startsWith "-" then
      (takeVerb? rest).map fun (name, others) => (name, arg :: others)
    else some (arg, rest)

/-- Separate the flags from the other arguments. -/
def separate (flags : Flags) : List String → Except UsageError (Flags × List String)
  | [] => .ok (flags, [])
  | arg :: rest =>
    if arg = "--" then .ok (flags, rest)
    else if !arg.startsWith "-" || arg = "-" then do
      let (flags, others) ← separate flags rest
      return (flags, arg :: others)
    else if !arg.startsWith "--" then do separate (← setLetters flags (arg.toList.drop 1)) rest
    else
      let (name, value) := splitFlag arg
      if takesValue name && value.isNone then
        match rest with
        | [] => .error (.missingValue name)
        | value :: rest => do separate (← setFlag flags name (some value)) rest
      else do separate (← setFlag flags name value) rest

/-- The call that arguments make; `defaults` holds for flags that are not given. -/
def ofArguments (defaults : Flags) (args : List String) : Except UsageError Call := do
  let some (name, rest) := takeVerb? args | .error .noVerb
  let some verb := Verb.ofName? name | .error (.unknownVerb name)
  let (flags, documents) ← separate defaults rest
  if flags.help then .error (.unavailable "--help")
  if flags.dump then .error (.unavailable "--dump")
  if documents.isEmpty then .error .noDocuments
  return ⟨verb, flags, documents⟩

end Call

end FormulaFold
