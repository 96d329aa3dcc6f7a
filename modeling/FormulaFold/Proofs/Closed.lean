import FormulaFold.Proofs.RunFrames
import FormulaFold.Proofs.Scoping

/-! # Closed formulas

A formula is closed when it binds each of its names itself.  Folding substitutes constants for
names, but it keeps fold definitions as they stand.  Where the value of a merge leaves its fold,
a fold definition inside of the merge may refer to an accumulator that is bound no more
(`optimize_not_closed`).  **Without such references folding keeps formulas closed**, so that
they can be run and folded again without meeting an unbound name (`optimize_isClosed`).
-/
namespace FormulaFold

open Walk

/-- Whether each name in the formula is bound inside of it. -/
def Expr.isClosed (e : Expr) : Bool := e.isScoped true fun _ => false

/-- Whether no part that folding keeps as it stands refers to a name which it gets from a merge
around it. -/
def Expr.isKeptClosed (e : Expr) : Bool := e.keptScoped true fun _ => false

theorem Expr.isScoped_of_isClosed {e : Expr} (h : e.isClosed = true) :
    e.isScoped false (fun _ => false) = true :=
  e.isScoped_imp (fun h => by cases h) _ _ (fun _ h => h) h

theorem Bindings.scopes_empty : Bindings.empty.Scopes (fun _ => false) fun _ => false where
  undefined _ h := by cases h
  empty h := h
  constant _ _ h := by cases h

/-- A closed formula is evaluated without meeting an unbound name. -/
theorem evaluate_ne_unbound {ev : Evaluator} {e : Expr} (he : e.isClosed = true)
    (hbook : ∀ a f, (ev.book.get a).formula = some f → f.isClosed = true)
    (origin : Option Address) (visited visited' : List Address) (name : String) :
    ev.evaluate (some e) origin visited ≠ .error (.unbound name) visited' := by
  have hkeeps : Run.Keeps True (ev.evaluate (some e) origin) := by
    refine Run.Keeps.bind ?_ fun y => Run.keeps_pure y.single
    refine keeps_runDeep (fun _ a f hf => Expr.isScoped_of_isClosed (hbook a f hf)) _ e _
      (fun _ => false) (fun _ => Expr.isScoped_of_isClosed he) fun _ x hx => by cases hx
  intro herror
  have hkeeps := hkeeps visited
  rw [herror] at hkeeps
  exact hkeeps.2 trivial name rfl

/-- A closed formula is folded without meeting an unbound name. -/
theorem optimize_ne_notBound {opt : Optimizer} {book : Workbook} {e : Expr}
    (he : e.isClosed = true) (hbook : ∀ a f, (book.get a).formula = some f → f.isClosed = true)
    (origin : Option Address) (s s' : WalkState) (name : String) :
    opt.optimize book (some e) origin s ≠ .error (.bindings (.notBound name)) s' := by
  have hframes : Frames book (Earned (fun _ => True) book) True s.bindings
      (opt.optimize book (some e) origin) := by
    refine frames_optimize trivial (fun _ a f hf => Expr.isScoped_of_isClosed (hbook a f hf))
      (some e) (fun _ x hx => ?_) origin s.bindings
    cases hx
    exact Expr.isScoped_of_isClosed he
  intro herror
  have hframes := hframes s rfl
  unfold FramesAt at hframes
  rw [herror] at hframes
  rcases hframes.2 with hraised | ⟨_, hbound⟩
  · cases hraised
  · exact hbound trivial

/-- **Folding keeps formulas closed**: when no part that is kept as it stands refers to a name
of a merge around it, what is left of a closed formula is closed.  In a workbook of closed
formulas it is then run, as well as folded again, without meeting an unbound name. -/
theorem optimize_isClosed {opt : Optimizer} {book : Workbook} {e : Expr} {origin : Option Address}
    {s s' : WalkState} {o : Outcome} (hclosed : e.isClosed = true)
    (hkept : e.isKeptClosed = true) (h : opt.optimize book (some e) origin s = .ok o s') :
    o.expr.isClosed = true ∧
      ((∀ a f, (book.get a).formula = some f → f.isClosed = true) →
        (∀ (ev : Evaluator), ev.book = book → ∀ origin visited name visited',
          ev.evaluate (some o.expr) origin visited ≠ .error (.unbound name) visited') ∧
        ∀ (opt : Optimizer) origin s name s',
          opt.optimize book (some o.expr) origin s ≠ .error (.bindings (.notBound name)) s') := by
  have hgives : Gives s.memo s'.memo .empty (opt.walkDeep book book.cells.length origin e) o :=
    gives_optimize (b := s.bindings) (gives_of_ok h)
  have ho : o.expr.isClosed = true :=
    isScoped_of_gives e hgives _ _ Bindings.scopes_empty hclosed hkept
  refine ⟨ho, fun hbook => ⟨?_, fun opt origin s name s' => ?_⟩⟩
  · rintro ev rfl origin visited name visited'
    exact evaluate_ne_unbound ho hbook origin visited visited' name
  · exact optimize_ne_notBound ho hbook origin s s' name

/-! ## Merges that hold folds -/

namespace MergeExample

open Sample

def book : Workbook := ⟨[input], []⟩

def evaluator : Evaluator := ⟨engine, book, ⟨[(cellAt 1, .bool true)], []⟩⟩

/-- A fold over the input whose formulas are all the given name. -/
def foldOf (name : String) : Expr :=
  .fold .single
    ⟨[⟨"b", some (.letVar name .unknown), .letVar name .unknown⟩], some ["y"], "", "", none, none,
      false⟩ [] 0 [some (.cell (cellAt 1))] .unknown

/-- A fold that ends with the last of its elements, which are false, in the accumulator `acc`,
and with the given merge. -/
def mergedBy (merge : Expr) : Expr :=
  .fold .single
    ⟨[⟨"acc", some (truth true), .letVar "x" .unknown⟩], some ["x"], "", "",
      some merge, none, false⟩ [] 0 [some (truth false)] .unknown

/-- A merge with a fold that refers to a name around the whole formula, and with the accumulator
outside of that fold. -/
def named : Expr :=
  .letIn "k" (some (.cell (cellAt 1))) (some (mergedBy
    (.call "IF" [some (.letVar "acc" .unknown), none, some (foldOf "k")] .unknown)))

end MergeExample

open Sample MergeExample in
/-- A merge that holds a fold is left closed when that fold does not refer to the accumulator. -/
theorem optimize_isClosed_named :
    named.isClosed = true ∧ named.isKeptClosed = true ∧
      ∃ s', (optimizer true).optimize book (some named) none .initial =
        .ok (.residual (.letIn "k" (some (.cell (cellAt 1))) (some (foldOf "k")))) s' ∧
      (Expr.letIn "k" (some (.cell (cellAt 1))) (some (foldOf "k"))).isClosed = true := by
  have hclosed : named.isClosed = true := by decide
  have hkept : named.isKeptClosed = true := by decide
  obtain ⟨s', h⟩ : ∃ s', (optimizer true).optimize book (some named) none .initial =
      .ok (.residual (.letIn "k" (some (.cell (cellAt 1))) (some (foldOf "k")))) s' := ⟨_, rfl⟩
  exact ⟨hclosed, hkept, s', h, (optimize_isClosed hclosed hkept h).1⟩

open Sample MergeExample in
/-- **The fold in a merge can lose its accumulator.**  The formula is closed and evaluates, but
what is left of it is not closed; it neither evaluates nor can it be folded again. -/
theorem optimize_not_closed :
    (mergedBy (foldOf "acc")).isClosed = true ∧
      evaluator.evaluate (some (mergedBy (foldOf "acc"))) none [] = .ok (.bool false) [] ∧
      (∃ s', (optimizer true).optimize book (some (mergedBy (foldOf "acc"))) none .initial =
        .ok (.residual (foldOf "acc")) s') ∧
      (foldOf "acc").isClosed = false ∧
      evaluator.evaluate (some (foldOf "acc")) none [] = .error (.unbound "acc") [] ∧
      ∃ s', (optimizer true).optimize book (some (foldOf "acc")) none .initial =
        .error (.bindings (.notBound "acc")) s' :=
  ⟨by decide, rfl, ⟨_, rfl⟩, by decide, rfl, _, rfl⟩

end FormulaFold
