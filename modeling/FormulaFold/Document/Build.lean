import FormulaFold.Document.Reader
import FormulaFold.Workbook

/-! # From documents to workbooks

`NodeDoc.decode` turns a written node into a formula.  Cells and sections that the node names
come into being in the workbook as they are met, also when the node turns out to be wrong later
on.  `Document.workbook` builds the whole workbook.
-/
namespace FormulaFold

/-- Why a written formula or cell is wrong. -/
inductive DecodeError where
  | unknownKind (tag : String)
  | unknownType (name : String)
  | unknownOperator (symbol : String)
  | invalidReference (ref : String)
  | letArity (name : String)
  | switchArity
  | notACase (kind : Kind)
  | caseArity
  | parentArity
  | arrayArity
  | tableArity
  | missingDefinition
  | noAccumulator
  | noStep (name : String)
  /-- An error further inside, reached by the named part. -/
  | inside (part : String) (cause : DecodeError)
  /-- A missing child was used as if it were there. -/
  | missingChild

/-- The wording of a decoding error; a missing child has none. -/
def DecodeError.message : DecodeError → String
  | unknownKind tag => "unknown node kind " ++ Text.quote tag
  | unknownType name => "unknown data type " ++ Text.quote name
  | unknownOperator symbol => "unknown operator " ++ Text.quote symbol
  | invalidReference ref => "invalid cell reference " ++ Text.quote ref
  | letArity name => "let " ++ name ++ " takes a value and a body"
  | switchArity => "switch takes a selector and a default"
  | notACase kind => "switch case must be a switch_case, got " ++ kind.tag
  | caseArity => "switch_case takes one branch"
  | parentArity => "parent_section takes one expression"
  | arrayArity => "fold_array takes one array"
  | tableArity => "fold_database takes one table"
  | missingDefinition => "missing fold definition"
  | noAccumulator => "fold definition needs an accumulator"
  | noStep name => "accumulator " ++ name ++ " has no step"
  | inside part cause => part ++ ": " ++ cause.message
  | missingChild => ""

/-- Decoding against a workbook, which keeps what was added to it even when decoding fails. -/
abbrev Decode := EStateM DecodeError Workbook

namespace Decode

/-- Run `x` as the named part of something larger. -/
def within {α : Type} (part : String) (x : Decode α) : Decode α := fun book =>
  match x book with
  | .ok a book => .ok a book
  | .error .missingChild book => .error .missingChild book
  | .error cause book => .error (.inside part cause) book

/-- The data type with the given name, in any letter case; no name stands for `unknown`. -/
def dataType (name : String) : Decode DataType :=
  match Text.lower name with
  | "" => pure .unknown
  | "numeric" | "number" => pure .numeric
  | "string" | "text" => pure .string
  | "null" => pure .null
  | _ => throw (.unknownType name)

/-- The address written by a reference. -/
def address (ref : String) : Decode Address :=
  match Address.parse ref with
  | .ok a => pure a
  | .error rest => throw (.invalidReference rest)

/-- The section with the given name, which comes into being; no name stands for no section. -/
def sectionNamed (name : String) : Decode (Option String) :=
  if name = "" then pure none
  else do
    modify (·.touchSection name)
    return some name

/-- The cases among the children of a written switch. -/
def cases : List (Option Expr) → Decode (List (Case Expr))
  | [] => pure []
  | some (.switchCase c) :: rest => do return c :: (← cases rest)
  | some e :: _ => throw (.notACase e.kind)
  | none :: _ => throw .missingChild

end Decode

/-- A constant with a written data type, or with that of its value. -/
def constantOf (d : Datum) (type : DataType) : Expr :=
  let v := (Value.ofDatum d).asConstant
  .constant v (type.orElse v.dataType)

/-- An operator with a written data type; a concatenation yields text, anything else numbers. -/
def operatorOf (symbol : String) (args : List (Option Expr)) (type : DataType) : Decode Expr :=
  match Op.ofSymbol? symbol (args.length == 1) with
  | some op => pure (.operator op args (type.orElse (if op = .concat then .string else .numeric)))
  | none => throw (.unknownOperator symbol)

/-- A range with a written shape, or a single row when the shape does not fit. -/
def rangeOf (rows cols : Int) (args : List (Option Expr)) : Expr :=
  if wrap (rows * cols) = args.length then .range rows cols args else .range 1 args.length args

/-- The first and last child of a switch and the cases between them. -/
def switchOf (args : List (Option Expr)) (type : DataType) : Decode Expr :=
  match args with
  | selector :: second :: rest => do
    let cases ← Decode.cases (second :: rest).dropLast
    return .switch selector cases ((second :: rest).getLastD none) type
  | _ => throw .switchArity

mutual
/-- The formula of a written node. -/
def NodeDoc.decode : NodeDoc → Decode Expr
  | { kind, value, type, op, fn, cell, name, rows, cols, values, sectionName, static, foldDef,
      columns, filter, foldColumn, args := ⟨args, _⟩ } => do
    let some k := Kind.ofTag? kind | throw (.unknownKind kind)
    let t ← Decode.dataType type
    let children ← Decode.within kind (decodeAll args)
    let definition : Decode (FoldDef Expr) := Decode.within kind (decodeDef foldDef)
    match k with
    | .constant => return constantOf value t
    | .operator => operatorOf op children t
    | .function => return .call (Text.upper fn) children t
    | .cellRef =>
      let a ← Decode.address cell
      modify (·.touch a)
      return .cell a
    | .range => return rangeOf rows cols children
    | .letIn =>
      match children with
      | [v, body] => return .letIn name v body
      | _ => throw (.letArity name)
    | .letVar => return .letVar name t
    | .substitution => return .splice children
    | .switch => switchOf children t
    | .switchCase =>
      match children with
      | [branch] => return .switchCase ⟨values.map (·.items), branch⟩
      | _ => throw .caseArity
    | .parentSection =>
      match children with
      | [inner] => return .parentSection (← Decode.sectionNamed sectionName) inner
      | _ => throw .parentArity
    | .subSection => return .subSection (← Decode.sectionNamed sectionName) children
    | .count => return .count static children
    | .fold => return .fold .single (← definition) [] 0 children t
    | .foldList => return .fold .list (← definition) [] 0 children t
    | .reduce => return .reduce (← definition) none 0 children t
    | .foldVectors => return .foldVectors (← definition) [] 0 children t
    | .foldArray =>
      let d ← definition
      match children with
      | [array] => return .foldArray d array t
      | _ => throw .arrayArity
    | .foldDatabase =>
      let d ← definition
      match children with
      | [table] =>
        let filter ← Decode.within "filter" (decodeOption filter)
        return .foldTable d [] 0 (columns.map (·.items)) filter foldColumn table t
      | _ => throw .tableArity
/-- The formula of a written node, if there is one. -/
def decodeOption : Option NodeDoc → Decode (Option Expr)
  | none => pure none
  | some d => do return some (← d.decode)
/-- The formulas of a list of written nodes. -/
def decodeAll : List (Option NodeDoc) → Decode (List (Option Expr))
  | [] => pure []
  | d :: ds => do
    let e ← decodeOption d
    return e :: (← decodeAll ds)
/-- A written fold definition; it has to be there and to have an accumulator. -/
def decodeDef : Option (FoldDefDoc NodeDoc) → Decode (FoldDef Expr)
  | none => throw .missingDefinition
  | some { accumulators := ⟨accumulators, _⟩, elements, index, count, merge, whenEmpty,
           commutative } => do
    if accumulators.isEmpty then throw .noAccumulator
    let accs ← decodeAccumulators accumulators
    let merge ← Decode.within "merge" (decodeOption merge)
    let whenEmpty ← Decode.within "when_empty" (decodeOption whenEmpty)
    return ⟨accs, elements.map (·.items), index, count, merge, whenEmpty, commutative⟩
/-- Written accumulators; each has to have a step. -/
def decodeAccumulators : List (AccumulatorDoc NodeDoc) → Decode (List (Accumulator Expr))
  | [] => pure []
  | { name, init, step } :: rest => do
    let init ← Decode.within ("accumulator " ++ name) (decodeOption init)
    let step ← Decode.within ("accumulator " ++ name) (decodeOption step)
    let some step := step | throw (.noStep name)
    return ⟨name, init, step⟩ :: (← decodeAccumulators rest)
end

namespace Document

/-- The data type of a cell: the written one, else that of its formula, else that of its
value. -/
def cellTypeOf (book : Workbook) (written : DataType) (formula : Option Expr) (value : Value) :
    Option DataType :=
  if written ≠ .unknown then some written
  else match formula with
    | some e => book.typeOf? e
    | none => some (if value.isNull then .unknown else value.dataType)

/-- Fill in one cell. -/
def buildCell (ref : String) (doc : CellDoc) : Decode Unit := do
  let a ← Decode.address ref
  let inSection? ← Decode.sectionNamed doc.sectionName
  let written ← Decode.within ("cell " ++ ref) (Decode.dataType doc.type)
  let cell : Cell := ⟨a, inSection?, Value.ofDatum doc.value, none, doc.input, written⟩
  modify (·.put cell)
  let formula ← Decode.within ("cell " ++ ref) (decodeOption doc.expr)
  let some type := cellTypeOf (← get) written formula cell.value | throw .missingChild
  modify (·.put { cell with formula, type })

/-- Fill in the cells one after the other. -/
def buildCells : List (String × Option CellDoc) → Decode Unit
  | [] => pure ()
  | (_, none) :: rest => buildCells rest
  | (ref, some doc) :: rest => do
    buildCell ref doc
    buildCells rest

/-- Have the sections of the document. -/
def buildSections (book : Workbook) : List (String × Option SectionDoc) → Workbook
  | [] => book
  | (name, doc) :: rest =>
    let parent := (doc.map (·.parent)).getD ""
    let book := if parent = "" then book.touchSection name else book.setParent name parent
    buildSections book rest

/-- Have a blank cell at every reference. -/
def touchCells : List (String × Option CellDoc) → Decode Unit
  | [] => pure ()
  | (ref, _) :: rest => do
    let a ← Decode.address ref
    modify (·.touch a)
    touchCells rest

/-- The workbook that a document describes.  All cells come into being before any formula is
decoded, so that formulas may refer to cells in any order. -/
def workbook (doc : Document) : Except DecodeError Workbook :=
  let build : Decode Unit := do
    touchCells doc.cells
    buildCells doc.cells
  match build (buildSections .empty doc.sections) with
  | .ok _ book => .ok book
  | .error e _ => .error e

end Document

end FormulaFold
