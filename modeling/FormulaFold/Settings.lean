import FormulaFold.Engine.Basic
import FormulaFold.Files
import FormulaFold.Folding.Optimize
import FormulaFold.Text.Blank
import FormulaFold.Text.Caseless
import FormulaFold.Toml.Table

/-! # Settings

How formulas are computed and folded can be set in a file, which is searched from the working
directory upwards.  The file is written in TOML; keys match in any letter case, and a key that
is not a setting is refused.
-/
namespace FormulaFold

/-- The settings of a project. -/
structure Settings where
  /-- The number of significant digits of computed constants; none are dropped when it is 0. -/
  precision : Int := 0
  /-- The functions that are never computed ahead of the run. -/
  volatile : List String := []
  /-- Whether folds are done as a whole or not at all. -/
  disablePartialFolds : Bool := false

/-- Why settings cannot be used. -/
inductive SettingsError where
  | precision (n : Int)
  | emptyName

/-- The wording of a settings error. -/
def SettingsError.message : SettingsError → String
  | precision n => "numeric.precision must be between 0 and 17, got " ++ toString n
  | emptyName => "numeric.volatile: empty function name"

namespace Settings

/-- Refuse settings that cannot be used. -/
def validate (s : Settings) : Except SettingsError Unit :=
  if s.precision < 0 ∨ 17 < s.precision then .error (.precision s.precision)
  else if s.volatile.any fun name => Text.trim name = "" then .error .emptyName
  else .ok ()

/-- The names of the volatile functions as formulas have them. -/
def volatileNames (s : Settings) : List String :=
  s.volatile.map fun name => Text.upper (Text.trim name)

/-- The engine with these settings. -/
def engine (s : Settings) (moment : Moment) : Engine :=
  .ofSettings s.precision s.volatileNames moment

/-- The optimizer with these settings. -/
def optimizer (s : Settings) (moment : Moment) : Optimizer :=
  ⟨s.engine moment, !s.disablePartialFolds⟩

/-- The texts of a list that holds nothing else. -/
def texts? : List Toml.Written → Option (List String)
  | [] => some []
  | .text s :: rest => do return s :: (← texts? rest)
  | _ :: _ => none

/-- Take over the numeric settings; `none` when a value is of the wrong type. -/
def readNumeric? (s : Settings) : Toml.Table → Option Settings
  | [] => some s
  | (name, item) :: rest =>
    match Text.caseless name, item with
    | "precision", .value (.integer n) => readNumeric? { s with precision := n } rest
    | "volatile", .value (.list items) => do
      readNumeric? { s with volatile := ← texts? items } rest
    | "precision", _ | "volatile", _ => none
    | _, _ => readNumeric? s rest

/-- Take over the settings of folding; `none` when a value is of the wrong type. -/
def readOptimize? (s : Settings) : Toml.Table → Option Settings
  | [] => some s
  | (name, item) :: rest =>
    match Text.caseless name, item with
    | "disable_partial_folds", .value (.bool b) =>
      readOptimize? { s with disablePartialFolds := b } rest
    | "disable_partial_folds", _ => none
    | _, _ => readOptimize? s rest

/-- Take over the settings of a table; `none` when a value is of the wrong type. -/
def readTable? (s : Settings) : Toml.Table → Option Settings
  | [] => some s
  | (name, item) :: rest =>
    match Text.caseless name, item with
    | "numeric", .table entries => do readTable? (← readNumeric? s entries) rest
    | "optimize", .table entries => do readTable? (← readOptimize? s entries) rest
    | "numeric", _ | "optimize", _ => none
    | _, _ => readTable? s rest

/-- The keys in a table that are settings or groups of settings. -/
def settingKeys (t : Toml.Table) : List Toml.Key :=
  let inGroup (group : String) (names : List String) (entries : Toml.Table) : List Toml.Key :=
    (entries.filter fun e => names.contains (Text.caseless e.1)).map fun e => [group, e.1]
  t.flatMap fun (name, item) =>
    match Text.caseless name, item with
    | "numeric", .table entries => [name] :: inGroup name ["precision", "volatile"] entries
    | "optimize", .table entries => [name] :: inGroup name ["disable_partial_folds"] entries
    | _, _ => []

/-- The name of the settings file. -/
def fileName : String := "sheetc.toml"

/-- The name that marks the top directory of a project. -/
def topMark : String := ".git"

/-- Why a settings file cannot be used. -/
inductive LoadError where
  | missing (path : String)
  /-- The file cannot be read, is no TOML or has a value of the wrong type. -/
  | malformed (path : String)
  | unknownKey (path : String) (key : Toml.Key)
  | invalid (path : String) (cause : SettingsError)

/-- The wording of the error. -/
def LoadError.message : LoadError → String
  | missing path => "parsing " ++ path ++ ": open " ++ path ++ ": no such file or directory"
  | malformed path => "parsing " ++ path ++ ": not a settings file"
  | unknownKey path key => "parsing " ++ path ++ ": unknown key " ++ key.render
  | invalid path cause => path ++ ": " ++ cause.message

/-- The settings in the text of a file. -/
def read (path text : String) : Except LoadError Settings :=
  match Toml.Contents.read? text with
  | none => .error (.malformed path)
  | some contents =>
    match readTable? {} contents.table with
    | none => .error (.malformed path)
    | some s =>
      let known := settingKeys contents.table
      match contents.keys.find? (!known.contains ·) with
      | some key => .error (.unknownKey path key)
      | none =>
        match s.validate with
        | .error e => .error (.invalid path e)
        | .ok () => .ok s

/-- The settings in a file. -/
def load (files : Files) (path : String) : Except LoadError Settings :=
  match files.entry? path with
  | none => .error (.missing path)
  | some .directory | some (.blocked _) => .error (.malformed path)
  | some (.file text) => read path text

/-- The first settings file in a list of directories and what it says.  The search ends at the
top directory of a project. -/
def findIn (files : Files) : List (List String) → Except LoadError (Option (String × Settings))
  | [] => .ok none
  | dir :: rest =>
    let path := Path.render (dir ++ [fileName])
    if files.has path then do return some (path, ← load files path)
    else if files.has (Path.render (dir ++ [topMark])) then .ok none
    else findIn files rest

/-- The settings file in a directory or above it. -/
def find (files : Files) (workingDir dir : String) :
    Except LoadError (Option (String × Settings)) :=
  findIn files (Path.upwards (Path.absolute workingDir dir))

end Settings

end FormulaFold
