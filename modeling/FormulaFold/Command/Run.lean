import FormulaFold.Command.Arguments
import FormulaFold.Command.Log
import FormulaFold.Command.Report
import FormulaFold.Running.Evaluate
import FormulaFold.Settings

/-! # Running the command

`fold` reports for every formula of a document the constant it folds to, or the formula that is
left to the run.  `eval` evaluates every formula as it is written and as it was folded, and
reports cells for which the two differ.
-/
namespace FormulaFold

/-- Why a command failed. -/
inductive CommandError where
  | usage (e : UsageError)
  /-- The settings file that the call names cannot be used. -/
  | load (e : Settings.LoadError)
  /-- The settings file that was found cannot be used. -/
  | find (e : Settings.LoadError)
  | settings (e : SettingsError)
  | noDocument (path : String)
  | unreachable (path : String) (cause : Obstacle)
  | notADocument (path : String)
  | document (path : String) (e : DecodeError)
  | inputs (e : InputError)
  | folding (e : Fault)
  | running (e : RunFault)
  | cells (failed : Nat)

/-- The wording of the error. -/
def CommandError.message : CommandError → String
  | usage e => e.message
  | load e => e.message
  | find e => "failed to load " ++ Settings.fileName ++ ": " ++ e.message
  | settings e => e.message
  | noDocument path => "open " ++ path ++ ": no such file or directory"
  | unreachable path cause => "open " ++ path ++ ": " ++ cause.message
  | notADocument path => path ++ ": not a workbook document"
  | document path e => path ++ ": " ++ e.message
  | inputs e => e.message
  | folding e => e.message
  | running e => e.message
  | cells failed => toString failed ++ " cells failed"

/-- What a command leaves behind. -/
structure Transcript where
  output : String
  log : List LogLine
  error : Option CommandError

/-- What is said after the message of an error. -/
def CommandError.hint : CommandError → String
  | usage (.unknownVerb _) => "Run 'sheetc --help' for usage.\n"
  | _ => ""

/-- The log with the error at its end. -/
def Transcript.errorOutput (t : Transcript) : String :=
  "".intercalate (t.log.map fun line => line.render ++ "\n") ++
    match t.error with
    | some e => "Error: " ++ e.message ++ "\n" ++ e.hint
    | none => ""

namespace Call

/-- Settings with those that flags give in their place. -/
def override (flags : Flags) (s : Settings) : Settings :=
  { s with
    precision := flags.precision.getD s.precision
    disablePartialFolds := flags.noPartial.getD s.disablePartialFolds }

/-- The settings of a call, and the file they were found in. -/
def settings (files : Files) (workingDir : String) (flags : Flags) :
    Except CommandError (Option String × Settings) := do
  let (path?, s) ←
    if flags.config ≠ "" then
      match Settings.load files flags.config with
      | .ok s => .ok (none, s)
      | .error e => .error (.load e)
    else
      match Settings.find files workingDir workingDir with
      | .ok (some (path, s)) => .ok (some path, s)
      | .ok none => .ok (none, {})
      | .error e => .error (.find e)
  return (path?, override flags s)

/-- The document under a path and its workbook. -/
def openDocument (files : Files) (path : String) : Except CommandError (Document × Workbook) :=
  match files.entry? path with
  | none => .error (.noDocument path)
  | some (.blocked cause) => .error (.unreachable path cause)
  | some .directory => .error (.notADocument path)
  | some (.file text) =>
    match Document.read? text with
    | none => .error (.notADocument path)
    | some doc =>
      match doc.workbook with
      | .error e => .error (.document path e)
      | .ok book => .ok (doc, book)

/-- Report on the folding of cells. -/
def foldCells (opt : Optimizer) (book : Workbook) :
    Report → WalkState → List Cell → Except CommandError (Report × WalkState)
  | r, s, [] => .ok (r, s)
  | r, s, cell :: rest =>
    match opt.optimizeCell book cell.address s with
    | .error e s =>
      if e.isBroken then .error (.folding e)
      else foldCells opt book (r.add cell.address .error (" ! " ++ e.message)) s rest
    | .ok (.known v _) s =>
      foldCells opt book (r.add cell.address .constant (" = " ++ v.render)) s rest
    | .ok (.residual e) s =>
      foldCells opt book (r.add cell.address .residual (" := " ++ book.shown e)) s rest

/-- Compare the value of a cell's formula with that of the folded formula. -/
def compareCell (ev : Evaluator) (opt : Optimizer) (a : Address) (r : Report) (s : WalkState) :
    Except CommandError (Report × WalkState) :=
  match ev.evaluateCell a [] with
  | .error e _ =>
    if e.isBroken then .error (.running e) else .ok (r.add a .error (" ! " ++ e.message), s)
  | .ok want _ =>
    match opt.optimizeCell ev.book a s with
    | .error e s =>
      if e.isBroken then .error (.folding e) else .ok (r.add a .error (" ! " ++ e.message), s)
    | .ok o s =>
      match ev.evaluate (some o.expr) (some a) [] with
      | .error e _ =>
        if e.isBroken then .error (.running e)
        else .ok (r.add a .error (" ! folded: " ++ e.message), s)
      | .ok got _ =>
        if got.render = want.render then .ok (r.add a .constant (" = " ++ want.render), s)
        else
          let text := " = " ++ want.render ++ ", folded " ++ ev.book.shown o.expr ++ " = " ++
            got.render
          .ok (r.add a .error text, s)

/-- Report on the comparison of cells. -/
def compareCells (ev : Evaluator) (opt : Optimizer) :
    Report → WalkState → List Cell → Except CommandError (Report × WalkState)
  | r, s, [] => .ok (r, s)
  | r, s, cell :: rest => do
    let (r, s) ← compareCell ev opt cell.address r s
    compareCells ev opt r s rest

/-- Report on one document. -/
def process (files : Files) (opt : Optimizer) (verb : Verb) (path : String) :
    Except CommandError Report := do
  let (doc, book) ← openDocument files path
  let cells := book.sorted.filter (·.formula.isSome)
  let (r, s) ← match verb with
    | .fold => foldCells opt book {} .initial cells
    | .eval =>
      match Inputs.ofDocument doc book with
      | .error e => .error (.inputs e)
      | .ok inputs => compareCells ⟨opt.engine, book, inputs⟩ opt {} .initial cells
  return { r with stats := s.stats, events := s.events.reverse }

/-- Report on documents one after the other. -/
def processAll (files : Files) (opt : Optimizer) (verb : Verb) :
    List String → Except CommandError (List (String × Report))
  | [] => .ok []
  | path :: rest => do
    let r ← process files opt verb path
    return (path, r) :: (← processAll files opt verb rest)

/-- The reports as text, each under its path when there are several. -/
def renderAll (plain : Bool) (reports : List (String × Report)) : String :=
  "".intercalate (reports.map fun (path, r) =>
    (if 1 < reports.length then path ++ ":\n" else "") ++ r.render plain)

/-- The paths that a call may look at. -/
def reads (workingDir : String) (call : Call) : List String :=
  let dirs := Path.upwards (Path.absolute workingDir workingDir)
  call.flags.config :: call.documents ++ dirs.flatMap fun dir =>
    [Path.render (dir ++ [Settings.fileName]), Path.render (dir ++ [Settings.topMark])]

/-- Carry out a call. -/
def run (files : Files) (workingDir : String) (moment : Moment) (call : Call) : Transcript :=
  let debug (lines : List LogLine) : List LogLine := if call.flags.debug then lines else []
  match settings files workingDir call.flags with
  | .error e => ⟨"", [], some e⟩
  | .ok (path?, s) =>
    let found : List LogLine := debug (path?.toList.map fun path =>
      ⟨.debug, "loaded project config", [("path", path)]⟩)
    match s.validate with
    | .error e => ⟨"", found, some (.settings e)⟩
    | .ok () =>
      match processAll files (s.optimizer moment) call.verb call.documents with
      | .error e => ⟨"", found, some e⟩
      | .ok reports =>
        let rs := reports.map (·.2)
        let stats := (rs.map (·.stats)).foldl Stats.add .zero
        let failed := (rs.map (·.failed)).foldl (· + ·) 0
        let done : LogLine :=
          ⟨.info, "done", [("documents", toString rs.length), ("stats", stats.summary)]⟩
        let events := debug (rs.flatMap fun r => r.events.map LogLine.ofEvent)
        ⟨renderAll call.flags.plain reports, found ++ events ++ [done],
          if failed = 0 then none else some (.cells failed)⟩

end Call

/-- Carry out the call that arguments make; `defaults` holds for flags that are not given. -/
def runCommand (files : Files) (workingDir : String) (moment : Moment) (defaults : Flags)
    (args : List String) : Transcript :=
  match Call.ofArguments defaults args with
  | .error e => ⟨"", [], some (.usage e)⟩
  | .ok call => call.run files workingDir moment

end FormulaFold
