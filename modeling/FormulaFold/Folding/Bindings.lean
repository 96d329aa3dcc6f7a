import FormulaFold.Folding.Outcome

/-! # Scoped names

While a formula is folded, names are bound and released in strict order, last bound first
released.  A name may be bound as *undefined*: it then hides outer bindings of the same name,
and what it stands for is left to the run.

Binding returns a scope, which remembers how many names it bound above which depth.  Releasing
a scope checks that exactly its own names are on top.  The names that are bound are a state
(`Naming`), which is there also after a use that went wrong.
-/
namespace FormulaFold

/-- One bound name; without an outcome it is bound as undefined. -/
structure Binding where
  name : String
  outcome : Option Outcome

/-- The bound names, innermost first. -/
structure Bindings where
  entries : List Binding

/-- The names bound by one call: how many, and how many were bound before. -/
structure Scope where
  depth : Nat
  count : Nat
deriving DecidableEq

/-- How bindings are misused. -/
inductive BindingError where
  | arity (names values : Nat)
  | unbalanced (count depth bound : Nat)
  | nothingBound (name : String)
  | otherInnermost (name innermost : String)
  | tooMany (count : Int) (bound : Nat)
  | notBound (name : String)
  /-- A negative number of names was to be released. -/
  | negativeCount

/-- The wording of a misuse; a negative count has none. -/
def BindingError.message : BindingError → String
  | arity names values =>
    "binding " ++ toString names ++ " names to " ++ toString values ++ " values"
  | unbalanced count depth bound =>
    "unbalanced bindings: releasing " ++ toString count ++ " at depth " ++ toString depth ++
      ", have " ++ toString bound
  | nothingBound name => "unlet " ++ name ++ ": no bindings"
  | otherInnermost name innermost =>
    "unlet " ++ name ++ ": innermost binding is " ++ innermost
  | tooMany count bound =>
    "unlet " ++ toString count ++ " bindings: only " ++ toString bound ++ " bound"
  | notBound name => "name not bound: " ++ name
  | negativeCount => ""

namespace Bindings

/-- No names. -/
def empty : Bindings := ⟨[]⟩

/-- The number of bound names. -/
def depth (b : Bindings) : Nat := b.entries.length

/-- Bind one name, as undefined without an outcome. -/
def push (b : Bindings) (name : String) (outcome : Option Outcome) : Bindings :=
  ⟨⟨name, outcome⟩ :: b.entries⟩

/-- Bind a name to an outcome. -/
def bind (b : Bindings) (name : String) (o : Outcome) : Bindings × Scope :=
  (b.push name (some o), ⟨b.depth, 1⟩)

/-- Bind a name as undefined. -/
def hide (b : Bindings) (name : String) : Bindings × Scope :=
  (b.push name none, ⟨b.depth, 1⟩)

/-- Bind names to outcomes pairwise, empty names left out. -/
def pushAll (b : Bindings) : List (String × Outcome) → Bindings
  | [] => b
  | (name, o) :: rest => if name = "" then b.pushAll rest else (b.push name (some o)).pushAll rest

/-- The innermost binding of a name: its outcome, or `none` when it is bound as undefined. -/
def lookup (b : Bindings) (name : String) : Except BindingError (Option Outcome) :=
  match b.entries.find? (·.name = name) with
  | some entry => .ok entry.outcome
  | none => .error (.notBound name)

end Bindings

/-- A use of the bound names.  It may go wrong, and names stay bound then too. -/
abbrev Naming := EStateM BindingError Bindings

namespace Naming

/-- Bind a name to an outcome. -/
def bind (name : String) (o : Outcome) : Naming Scope := fun b =>
  let (next, scope) := b.bind name o
  .ok scope next

/-- Bind a name as undefined. -/
def hide (name : String) : Naming Scope := fun b =>
  let (next, scope) := b.hide name
  .ok scope next

/-- Bind several names at once. -/
def bindAll (names : List String) (os : List Outcome) : Naming Scope := fun b =>
  if names.length ≠ os.length then .error (.arity names.length os.length) b
  else
    let next := b.pushAll (names.zip os)
    .ok ⟨b.depth, next.depth - b.depth⟩ next

/-- Release the innermost names. -/
def drop (count : Int) : Naming Unit := fun b =>
  if b.depth < count then .error (.tooMany count b.depth) b
  else if count < 0 then .error .negativeCount b
  else .ok () ⟨b.entries.drop count.toNat⟩

/-- Release the names of a scope, which have to be the innermost ones. -/
def release (scope : Scope) : Naming Unit := fun b =>
  if b.depth ≠ scope.depth + scope.count then
    .error (.unbalanced scope.count scope.depth b.depth) b
  else drop scope.count b

/-- Release the innermost name, which has to be the given one. -/
def unbind (name : String) : Naming Unit := fun b =>
  match b.entries with
  | [] => .error (.nothingBound name) b
  | top :: rest =>
    if top.name = name then .ok () ⟨rest⟩ else .error (.otherInnermost name top.name) b

/-- Look up the innermost binding of a name. -/
def lookup (name : String) : Naming (Option Outcome) := fun b =>
  match b.lookup name with
  | .ok o => .ok o b
  | .error e => .error e b

end Naming

namespace Bindings

/-- What a use of the names comes to, and the names that are bound after it. -/
def using? {α : Type} (b : Bindings) (x : Naming α) : Except BindingError (Bindings × α) :=
  match x b with
  | .ok a next => .ok (next, a)
  | .error e _ => .error e

/-- The names after several more are bound, and their scope. -/
def bindAll (b : Bindings) (names : List String) (os : List Outcome) :
    Except BindingError (Bindings × Scope) :=
  b.using? (.bindAll names os)

/-- The names after the innermost ones are released. -/
def drop (b : Bindings) (count : Int) : Except BindingError Bindings :=
  (·.1) <$> b.using? (.drop count)

/-- The names after a scope is released. -/
def release (b : Bindings) (scope : Scope) : Except BindingError Bindings :=
  (·.1) <$> b.using? (.release scope)

/-- The names after the innermost one is released. -/
def unbind (b : Bindings) (name : String) : Except BindingError Bindings :=
  (·.1) <$> b.using? (.unbind name)

end Bindings

end FormulaFold
