import FormulaFold.Proofs.PartialFolds
import FormulaFold.Proofs.Preservation

/-! # Rows of sections

A row of a section gives values to cells.  In a run they come before everything else that is known
of a cell, whereas folding looks at the cell alone.  **A folded formula has the value of the formula
if the rows of the document give values to inputs among the cells that the formula reaches**
(`evaluate_optimize_rows`); what they give to other cells does not matter.  A row that gives a value
to a literal makes the two differ (`evaluate_optimize_overridden`).

Values that are given to cells out of reach can be taken away from the rows: a run does not see them
(`Evaluator.runs_of_sharesRows`), and what is left of a formula reaches no more than the formula
does.
-/
namespace FormulaFold

open Walk

variable {a : Address} {q : Address → Prop} {env env' : Env} {e : Expr} {rows : List Row}
  {row : Row} {name : String} {α β : Type} {v : Value} {inputs' : Inputs}

/-! ## Cells within reach -/

theorem lasting_confined (q : Address → Prop) (partialFolds : Bool) :
    Lasting partialFolds (Expr.Confined q) where
  part _ he _ hp := he.part hp
  plain e he hparts := by
    refine Expr.confined_iff.mpr ⟨?_, hparts⟩
    rintro a rfl
    cases he
  resumed _ _ _ e he _ hparts := by
    refine Expr.confined_iff.mpr ⟨?_, hparts⟩
    rintro a rfl
    cases he
  rebuilt node es e hladen hnode hes he := by
    rw [Expr.confined_iff] at hnode ⊢
    constructor
    · rintro a rfl
      have hkind := Expr.kind_of_withChildren he
      cases node with
      | cell c => exact hnode.1 a (Expr.eq_of_withChildren_cell he).symm
      | fold form => cases form <;> cases hkind
      | _ => cases hkind
    · intro p hp
      rcases (Expr.liveParts_of_withChildren hladen he).2 p hp with hp | hp
      · exact hnode.2 p hp
      · exact hes p hp

/-! ## Runs among other rows -/

/-- Whether two rows give the same values to the cells of a kind. -/
def Row.Shares (q : Address → Prop) (row row' : Row) : Prop :=
  ∀ a, q a → row'.lookup a = row.lookup a

/-- Whether two environments differ at most in the values of cells that are not of a kind. -/
structure Env.SharesRows (q : Address → Prop) (env env' : Env) : Prop where
  names : env'.names = env.names
  origin : env'.origin = env.origin
  rows : Forall₂ (Row.Shares q) env.rows env'.rows

/-- Whether inputs differ at most in the values that rows give to cells that are not of a kind. -/
structure Inputs.SharesRows (q : Address → Prop) (inputs inputs' : Inputs) : Prop where
  cells : ∀ a, inputs'.cell? a = inputs.cell? a
  rows : ∀ s, Forall₂ (Row.Shares q) (inputs.rows s) (inputs'.rows s)

theorem Inputs.SharesRows.symm {inputs : Inputs} (h : inputs.SharesRows q inputs') :
    inputs'.SharesRows q inputs where
  cells a := (h.cells a).symm
  rows s := (h.rows s).flip.imp fun _ _ hrow a ha => (hrow a ha).symm

namespace Env.SharesRows

variable (h : env.SharesRows q env')
include h

theorem set (name : String) (y : Yield) : (env.set name y).SharesRows q (env'.set name y) := by
  refine ⟨?_, by simp [h.origin], by simpa using h.rows⟩
  unfold Env.set
  split
  · exact h.names
  · rw [h.names]

theorem enterRow {row' : Row} (hrow : row.Shares q row') :
    (env.enterRow row).SharesRows q (env'.enterRow row') :=
  ⟨h.names, h.origin, .cons hrow h.rows⟩

theorem outerRow : env.outerRow.SharesRows q env'.outerRow := by
  obtain ⟨names, origin, rows⟩ := env
  obtain ⟨names', origin', rows'⟩ := env'
  refine ⟨h.names, h.origin, ?_⟩
  cases h.rows with
  | nil => exact .nil
  | cons _ hrest => exact hrest

theorem find? (name : String) : env'.find? name = env.find? name := by
  unfold Env.find?
  rw [h.names]

theorem cell? (ha : q a) : env'.cell? a = env.cell? a := by
  obtain ⟨names, origin, rows⟩ := env
  obtain ⟨names', origin', rows'⟩ := env'
  have hrows : Forall₂ (Row.Shares q) rows rows' := h.rows
  change rows'.findSome? (·.lookup a) = rows.findSome? (·.lookup a)
  clear h
  induction hrows with
  | nil => rfl
  | cons hrow _ ih => rw [List.findSome?_cons, List.findSome?_cons, hrow a ha, ih]

end Env.SharesRows

theorem exchanges_sharesRows {inputs : Inputs} (visited : List Address)
    (h : inputs.SharesRows q inputs') :
    (Run.yieldsAgain visited visited).Exchanges False inputs inputs' fun _ => Env.SharesRows q where
  imp h _ := h
  set := Env.SharesRows.set
  outerRow := Env.SharesRows.outerRow
  origin := Env.SharesRows.origin
  find? h _ := ⟨h.find? _, False.elim⟩
  rows s := (h.rows s).imp fun _ _ hrow _ _ _ h => h.enterRow hrow

/-- **A run depends on the values that rows give to cells within reach only.**  The cells of the
kind `q` are those within reach: what a formula refers to, and what such cells refer to. -/
theorem Evaluator.runs_of_sharesRows {ev : Evaluator} (hinputs : ev.inputs.SharesRows q inputs')
    (hq : ∀ a f, q a → (ev.book.get a).formula = some f → f.Confined q) (n : Nat)
    (visited : List Address) (e : Expr) (env env' : Env) (y : Yield) (he : e.Confined q)
    (henv : env.SharesRows q env') (h : ev.Runs n visited env e y) :
    Runs ⟨ev.engine, ev.book, inputs'⟩ n visited env' e y := by
  have hstep {n : Nat} {visited : List Address} {e : Expr} {env env' : Env} {y : Yield}
      (hentered : ∀ a f rows rows' y, q a → (ev.book.get a).formula = some f →
        Forall₂ (Row.Shares q) rows rows' → ev.Entered n visited a f rows y →
        Entered ⟨ev.engine, ev.book, inputs'⟩ n visited a f rows' y) (he : e.Confined q)
      (henv : env.SharesRows q env') (h : ev.Runs n visited env e y) :
      Runs ⟨ev.engine, ev.book, inputs'⟩ n visited env' e y := by
    refine Runs.of_exchanged (exchanges_sharesRows visited hinputs)
      (fun a ha _ env env' y henv hy => ?_) he (p := fun _ => true) False.elim henv h
    have hcell := henv.cell? ha
    cases hy with
    | row hrow => exact .row (hcell.trans hrow)
    | input hrow hinput hv =>
      exact .input (hcell.trans hrow) hinput ((hinputs.cells a).trans hv)
    | formula hrow hinput hf hy =>
      exact .formula (hcell.trans hrow) hinput hf (hentered a _ _ _ _ ha hf henv.rows hy)
    | literal hrow hinput hformula => exact .literal (hcell.trans hrow) hinput hformula
  induction n generalizing visited e env env' y with
  | zero => exact hstep (fun _ _ _ _ _ _ _ _ h => absurd h.2 Run.not_yields_throw) he henv h
  | succ n ih =>
    refine hstep (fun a f rows rows' y ha hf hrows h => ⟨h.1, ?_⟩) he henv h
    exact ih (a :: visited) f ⟨[], some a, rows⟩ ⟨[], some a, rows'⟩ y (hq a f ha hf)
      ⟨rfl, rfl, hrows⟩ h.2

/-! ## Rows for inputs -/

theorem lookup_filter (p : Address → Bool) (row : List (Address × β)) (a : Address) :
    (row.filter fun entry => p entry.1).lookup a = if p a then row.lookup a else none := by
  induction row with
  | nil => simp
  | cons entry rest ih =>
    obtain ⟨c, v⟩ := entry
    by_cases hc : a = c
    · subst hc
      by_cases ha : p a = true
      · simp [ha]
      · simp [ha, ih]
    · have hne : (a == c) = false := by simpa using hc
      by_cases ha : p c = true
      · simp only [filter_cons, ha, if_true, lookup_cons, hne, ih]
      · simp only [filter_cons, ha, lookup_cons, hne, ih, false_eq_true, if_false]

namespace Inputs

/-- The inputs without what their rows give to cells that are no inputs. -/
def forInputs (inputs : Inputs) (book : Workbook) : Inputs where
  cells := inputs.cells
  sections := inputs.sections.map fun s =>
    (s.1, s.2.map fun row => row.filter fun entry => (book.get entry.1).input)

theorem rows_forInputs (inputs : Inputs) (book : Workbook) (s : Option String) :
    (inputs.forInputs book).rows s =
      (inputs.rows s).map fun row => row.filter fun entry => (book.get entry.1).input := by
  cases s with
  | none => rfl
  | some name =>
    obtain ⟨cells, sections⟩ := inputs
    simp only [rows, forInputs, bind_some]
    induction sections with
    | nil => rfl
    | cons entry rest ih =>
      rw [map_cons, lookup_cons, lookup_cons]
      split
      · rfl
      · exact ih

variable {inputs : Inputs} {book : Workbook}

theorem sharesRows_forInputs {q : Address → Prop}
    (h : ∀ s, ∀ row ∈ inputs.rows s, ∀ a v, row.lookup a = some v → q a →
      (book.get a).input = true) : inputs.SharesRows q (inputs.forInputs book) where
  cells _ := rfl
  rows s := by
    rw [rows_forInputs, forall₂_map_right_iff, forall₂_same]
    intro row hrow a ha
    rw [lookup_filter fun a => (book.get a).input]
    split
    · rfl
    · rename_i hinput
      cases hv : row.lookup a with
      | none => rfl
      | some v => exact absurd (h s row hrow a v hv ha) hinput

theorem fits_forInputs {plain : Bool}
    (hcells : plain = true → ∀ a v, inputs.cell? a = some v → v.isSettled = true)
    (hrows : plain = true → ∀ s, ∀ row ∈ inputs.rows s, ∀ a v, row.lookup a = some v →
      v.isSettled = true) : (inputs.forInputs book).Fits plain book where
  cells := hcells
  rows s row' hrow' a v hv := by
    rw [rows_forInputs] at hrow'
    obtain ⟨row, hrow, rfl⟩ := mem_map.mp hrow'
    rw [lookup_filter fun a => (book.get a).input] at hv
    split at hv
    · exact ⟨‹_›, fun hplain => hrows hplain s row hrow a v hv⟩
    · cases hv

end Inputs

/-! ## Documents -/

/-- Whether a row of a section of the document gives the value to the cell. -/
def Document.Assigns (doc : Document) (book : Workbook) (a : Address) (v : Value) : Prop :=
  ∃ name s, (name, some s) ∈ doc.sections ∧ ∃ row ∈ s.rows.items, ∃ ref d, (ref, d) ∈ row ∧
    Inputs.resolve book ref = .ok a ∧ v = .ofDatum d

/-- Whether the document gives the value to the cell as an input. -/
def Document.Provides (doc : Document) (book : Workbook) (a : Address) (v : Value) : Prop :=
  ∃ ref d, (ref, d) ∈ doc.inputs ∧ Inputs.resolve book ref = .ok a ∧ v = .ofDatum d

theorem mem_of_lookup [BEq α] [LawfulBEq α] {entries : List (α × β)} {x : α} {y : β}
    (h : entries.lookup x = some y) : (x, y) ∈ entries := by
  obtain ⟨before, after, rfl, _⟩ := List.lookup_eq_some_iff.mp h
  simp

namespace Inputs

variable {book : Workbook}

theorem mem_of_resolveRow {within : String → InputError → InputError} {doc : RowDoc}
    (h : resolveRow book within doc = .ok row) (hv : (a, v) ∈ row) :
    ∃ ref d, (ref, d) ∈ doc ∧ resolve book ref = .ok a ∧ v = .ofDatum d := by
  induction doc generalizing row with
  | nil =>
    cases h
    cases hv
  | cons entry rest ih =>
    obtain ⟨ref, d⟩ := entry
    unfold resolveRow at h
    cases href : resolve book ref with
    | error e =>
      rw [href] at h
      cases h
    | ok c =>
      rw [href] at h
      obtain ⟨row', hrow', h⟩ := exists_of_bind_eq_ok h
      cases h
      rcases mem_cons.mp hv with heq | hv
      · cases heq
        exact ⟨ref, d, mem_cons_self, href, rfl⟩
      · obtain ⟨ref', d', hmem, hresolve, hv⟩ := ih hrow' hv
        exact ⟨ref', d', mem_cons_of_mem _ hmem, hresolve, hv⟩

theorem mem_of_resolveRows {position : Nat} {docs : List RowDoc}
    (h : resolveRows book name position docs = .ok rows) (hrow : row ∈ rows) :
    ∃ doc ∈ docs, ∃ within, resolveRow book within doc = .ok row := by
  induction docs generalizing rows position with
  | nil =>
    cases h
    cases hrow
  | cons doc rest ih =>
    obtain ⟨first, hfirst, h⟩ := exists_of_bind_eq_ok h
    obtain ⟨others, hothers, h⟩ := exists_of_bind_eq_ok h
    cases h
    rcases mem_cons.mp hrow with rfl | hrow
    · exact ⟨doc, mem_cons_self, _, hfirst⟩
    · obtain ⟨doc', hmem, hresolve⟩ := ih hothers hrow
      exact ⟨doc', mem_cons_of_mem _ hmem, hresolve⟩

theorem mem_of_resolveSections {docs : List (String × Option SectionDoc)}
    {sections : List (String × List Row)} (h : resolveSections book docs = .ok sections)
    (hrows : (name, rows) ∈ sections) :
    ∃ s, (name, some s) ∈ docs ∧ resolveRows book name 1 s.rows.items = .ok rows := by
  induction docs generalizing sections with
  | nil =>
    cases h
    cases hrows
  | cons entry rest ih =>
    obtain ⟨name', _ | s⟩ := entry
    · obtain ⟨s, hmem, hresolve⟩ := ih h hrows
      exact ⟨s, mem_cons_of_mem _ hmem, hresolve⟩
    · obtain ⟨first, hfirst, h⟩ := exists_of_bind_eq_ok h
      obtain ⟨others, hothers, h⟩ := exists_of_bind_eq_ok h
      cases h
      rcases mem_cons.mp hrows with heq | hrows
      · cases heq
        exact ⟨s, mem_cons_self, hfirst⟩
      · obtain ⟨s', hmem, hresolve⟩ := ih hothers hrows
        exact ⟨s', mem_cons_of_mem _ hmem, hresolve⟩

variable {doc : Document} {inputs : Inputs}

/-- The rows of a run give what the document assigns, and nothing else. -/
theorem assigns_of_lookup (h : ofDocument doc book = .ok inputs) {s : Option String}
    (hrow : row ∈ inputs.rows s) (hv : row.lookup a = some v) : doc.Assigns book a v := by
  obtain ⟨cells, _, h⟩ := exists_of_bind_eq_ok h
  obtain ⟨sections, hsections, h⟩ := exists_of_bind_eq_ok h
  cases h
  obtain ⟨name, rows, hlookup, hrow⟩ :
      ∃ name rows, sections.lookup name = some rows ∧ row ∈ rows := by
    cases s with
    | none => cases hrow
    | some name =>
      simp only [Inputs.rows, bind_some] at hrow
      cases hlookup : sections.lookup name with
      | none =>
        rw [hlookup] at hrow
        cases hrow
      | some rows =>
        rw [hlookup] at hrow
        exact ⟨name, rows, hlookup, hrow⟩
  obtain ⟨s, hs, hrows⟩ := mem_of_resolveSections hsections (mem_of_lookup hlookup)
  obtain ⟨rowDoc, hrowDoc, within, hresolve⟩ := mem_of_resolveRows hrows hrow
  exact ⟨name, s, hs, rowDoc, hrowDoc, mem_of_resolveRow hresolve (mem_of_lookup hv)⟩

theorem provides_of_cell? (h : ofDocument doc book = .ok inputs) (hv : inputs.cell? a = some v) :
    doc.Provides book a v := by
  obtain ⟨cells, hcells, h⟩ := exists_of_bind_eq_ok h
  obtain ⟨sections, _, h⟩ := exists_of_bind_eq_ok h
  cases h
  exact mem_of_resolveRow hcells (mem_of_lookup hv)

end Inputs

/-! ## Values -/

theorem Workbook.Reaches.formula {book : Workbook} {f : Expr} (h : book.Reaches e a)
    (hf : (book.get a).formula = some f) : f.Confined (book.Reaches e) := by
  refine Expr.confined_of_mentions fun c hc => ?_
  obtain ⟨d, hd, hda⟩ := h
  exact ⟨d, hd, hda.tail ⟨f, hf, hc⟩⟩

/-- A formula has the same value where rows differ out of reach only. -/
theorem evaluate_of_sharesRows {ev : Evaluator} (hinputs : ev.inputs.SharesRows q inputs')
    (hq : ∀ a f, q a → (ev.book.get a).formula = some f → f.Confined q) (he : e.Confined q)
    {origin : Option Address} (hv : ev.evaluate (some e) origin [] = .ok v []) :
    Evaluator.evaluate ⟨ev.engine, ev.book, inputs'⟩ (some e) origin [] = .ok v [] := by
  obtain ⟨_, y, hy, rfl⟩ := evaluate_eq_ok_iff.mp hv
  exact evaluate_eq_ok_iff.mpr ⟨rfl, y, Evaluator.runs_of_sharesRows hinputs hq _ [] e
    (.start origin) (.start origin) y he ⟨rfl, rfl, .nil⟩ hy, rfl⟩

/-- **A folded formula respects the rows of sections.**  The rows of a document may give values to
any cells, as long as those that the formula reaches are inputs: what is left of a sorted formula
evaluates to the value of the formula, and so does a value that is known, where nothing is rounded
and no formula selects from a written range; or where all values are settled. -/
theorem evaluate_optimize_rows (ev : Evaluator) (opt : Optimizer) (hengine : opt.engine = ev.engine)
    (hprecision : ev.engine.precision ≤ 0) {doc : Document}
    (hdoc : Inputs.ofDocument doc ev.book = .ok ev.inputs) {plain : Bool}
    (hbook : ev.book.Sorted plain) {e : Expr} (he : e.isSorted plain .scalar = true)
    (hrows : ∀ a v, doc.Assigns ev.book a v → ev.book.Reaches e a → (ev.book.get a).input = true)
    (hranges : plain = false → ev.book.Throughout (fun x => x.indexesRange = false) e)
    (hsettled : plain = true → ∀ a v, doc.Assigns ev.book a v ∨ doc.Provides ev.book a v →
      v.isSettled = true)
    {history : List (Optimizer × Optimizer.Call)}
    (hhistory : ∀ call ∈ history, call.1.engine = ev.engine) {origin : Option Address} {r : Outcome}
    {s' : WalkState}
    (hr : opt.optimize ev.book (some e) origin (.after ev.book history) = .ok r s') {v : Value}
    (hv : ev.evaluate (some e) origin [] = .ok v []) :
    ev.evaluate (some r.expr) origin [] = .ok v [] ∧ ∀ u t, r = .known u t → u = v := by
  -- The formula is evaluated and folded with the rows of inputs only, then the others come back.
  let ev' : Evaluator := { ev with inputs := ev.inputs.forInputs ev.book }
  have hshares : ev.inputs.SharesRows (ev.book.Reaches e) ev'.inputs := by
    refine Inputs.sharesRows_forInputs fun s row hrow a v hv => ?_
    exact hrows a v (Inputs.assigns_of_lookup hdoc hrow hv)
  have hfits : ev'.inputs.Fits plain ev'.book := by
    refine Inputs.fits_forInputs (fun hplain a v hv => ?_) fun hplain s row hrow a v hv => ?_
    · exact hsettled hplain a v (.inr (Inputs.provides_of_cell? hdoc hv))
    · exact hsettled hplain a v (.inl (Inputs.assigns_of_lookup hdoc hrow hv))
  have hconfined : e.Confined (ev.book.Reaches e) :=
    Expr.confined_of_mentions fun a ha => ⟨a, ha, .refl⟩
  have hresidual : r.expr.Confined (ev.book.Reaches e) :=
    lasts_of_gives (lasting_confined _ _) e (gives_of_optimize hr) Bindings.constant_empty hconfined
  have hformulas (a : Address) (f : Expr) (ha : ev.book.Reaches e a)
      (hf : (ev.book.get a).formula = some f) := ha.formula hf
  have hserves : ev'.Serves False plain (opt.site ev'.book origin) :=
    ⟨hengine, rfl, .inr hprecision, False.elim, hbook, hfits⟩
  obtain ⟨hvalue, hknown⟩ := evaluate_of_upheld (upholds_of_optimize hserves he
    (.of_indexesRange hranges) (earned_after ev'.book hengine hhistory) hr).1
    (evaluate_of_sharesRows hshares hformulas hconfined hv)
  have hback : ev'.inputs.SharesRows (ev.book.Reaches e) ev.inputs := hshares.symm
  exact ⟨evaluate_of_sharesRows hback hformulas hresidual hvalue, hknown⟩

namespace RowExample

open Sample

/-- A document with an input, a number and a section whose rows give values to both. -/
def doc : Document where
  sections := [("s", some { rows := { items := [
    [("A1", .number 2.0), ("A2", .number 5.0)], [("A1", .number 3.0)]] } })]
  cells := [("A1", some { input := true }), ("A2", some { value := .number 1.0 })]

def book : Workbook where
  cells := [input, ⟨cellAt 2, none, .number 1.0, none, false, .numeric⟩]
  sections := [⟨"s", none⟩]

def inputs : Inputs :=
  ⟨[], [("s", [[(cellAt 1, .number 2.0), (cellAt 2, .number 5.0)], [(cellAt 1, .number 3.0)]])]⟩

def evaluator : Evaluator := ⟨engine, book, inputs⟩

/-- The sum of a formula over the rows of the section. -/
def total (e : Expr) : Expr :=
  .call "SUM" [some (.subSection (some "s") [some e])] .numeric

/-- A formula that is known. -/
def two : Expr := .operator .add [some (number 1.0), some (number 1.0)] .numeric

/-- A multiple of the input. -/
def times (e : Expr) : Expr := .operator .mul [some (.cell (cellAt 1)), some e] .numeric

theorem parse_A1 : Address.parse "A1" = .ok (cellAt 1) := by decide +kernel

theorem parse_A2 : Address.parse "A2" = .ok (cellAt 2) := by decide +kernel

theorem workbook_doc : doc.workbook = .ok book := by
  have hfirst : Decode.address "A1" = pure (cellAt 1) := by
    rw [Decode.address, parse_A1]
  have hsecond : Decode.address "A2" = pure (cellAt 2) := by
    rw [Decode.address, parse_A2]
  simp only [Document.workbook, Document.touchCells, Document.buildCells, Document.buildCell, doc,
    hfirst, hsecond]
  rfl

theorem ofDocument_doc : Inputs.ofDocument doc book = .ok inputs := by
  have hfirst : Inputs.resolve book "A1" = .ok (cellAt 1) := by
    rw [Inputs.resolve, parse_A1]
    rfl
  have hsecond : Inputs.resolve book "A2" = .ok (cellAt 2) := by
    rw [Inputs.resolve, parse_A2]
    rfl
  simp only [Inputs.ofDocument, doc, Inputs.resolveRow, Inputs.resolveSections, Inputs.resolveRows,
    hfirst, hsecond]
  rfl

theorem eq_of_reaches (he : ∀ c, e.Mentions c → c = cellAt 1) (h : book.Reaches e a) :
    a = cellAt 1 := by
  obtain ⟨c, hc, hca⟩ := h
  obtain rfl := he c hc
  rcases Relation.ReflTransGen.cases_head hca with rfl | ⟨_, ⟨f, hf, _⟩, _⟩
  · rfl
  · cases hf

theorem isSettled_of_assigns (h : doc.Assigns book a v ∨ doc.Provides book a v) :
    v.isSettled = true := by
  rcases h with ⟨name, s, hs, row, hrow, ref, d, hd, _, rfl⟩ | ⟨ref, d, hd, _⟩
  · obtain ⟨rfl, rfl⟩ : name = "s" ∧ s = _ := by simpa [doc] using hs
    obtain rfl | rfl : row = _ ∨ row = _ := by simpa using hrow
    · obtain ⟨_, rfl⟩ | ⟨_, rfl⟩ : (ref = _ ∧ d = _) ∨ (ref = _ ∧ d = _) := by simpa using hd
      · decide
      · decide
    · obtain ⟨_, rfl⟩ : ref = _ ∧ d = _ := by simpa using hd
      decide
  · simp [doc] at hd

end RowExample

open Sample RowExample in
/-- A row may give a value to a number that the formula does not reach. -/
theorem evaluate_optimize_rows_total :
    doc.Assigns book (cellAt 2) (.number 5.0) ∧ (book.get (cellAt 2)).input = false ∧
    evaluator.evaluate (some (total (times two))) none [] = .ok (.number 10.0) [] ∧
    (∃ s', (optimizer true).optimize book (some (total (times two))) none (.after book []) =
      .ok (.residual (total (times (number 2.0)))) s') ∧
    evaluator.evaluate (some (total (times (number 2.0)))) none [] = .ok (.number 10.0) [] := by
  have hassigns : doc.Assigns book (cellAt 2) (.number 5.0) := by
    refine ⟨"s", _, List.mem_cons_self, _, List.mem_cons_self, "A2", .number 5.0, by simp, ?_, rfl⟩
    rw [Inputs.resolve, parse_A2]
    rfl
  have hv : evaluator.evaluate (some (total (times two))) none [] = .ok (.number 10.0) [] := rfl
  obtain ⟨s', hs'⟩ : ∃ s', (optimizer true).optimize book (some (total (times two))) none
      (.after book []) = .ok (.residual (total (times (number 2.0)))) s' := ⟨_, rfl⟩
  have hmentions (c : Address) (hc : (total (times two)).Mentions c) : c = cellAt 1 := by
    simpa [total, times, two, number, Expr.mentions_iff_of_ne, Expr.parts, present,
      eq_comm] using hc
  have hbook : evaluator.book.Sorted true := Workbook.sorted_of_cells (by decide)
  have hrows (a : Address) (v : Value) (_ : doc.Assigns book a v)
      (ha : book.Reaches (total (times two)) a) : (book.get a).input = true := by
    rw [eq_of_reaches hmentions ha]
    rfl
  have hkept := evaluate_optimize_rows evaluator (optimizer true) rfl (Int.le_refl 0)
    ofDocument_doc hbook
    (by decide) hrows (by simp) (fun _ a v h => isSettled_of_assigns h)
      (List.forall_mem_nil _) hs' hv
  exact ⟨hassigns, rfl, hv, ⟨s', hs'⟩, hkept.1⟩

open Sample RowExample in
/-- **A row that gives a value to a number is ignored.**  The formula evaluates to what the rows
give, but the number of the cell takes their place. -/
theorem evaluate_optimize_overridden :
    doc.workbook = .ok book ∧ Inputs.ofDocument doc book = .ok inputs ∧
    evaluator.evaluate (some (total (.cell (cellAt 2)))) none [] = .ok (.number 6.0) [] ∧
    (∃ s', (optimizer true).optimize book (some (total (.cell (cellAt 2)))) none .initial =
      .ok (.residual (total (number 1.0))) s') ∧
    evaluator.evaluate (some (total (number 1.0))) none [] = .ok (.number 2.0) [] :=
  ⟨workbook_doc, ofDocument_doc, rfl, ⟨_, rfl⟩, rfl⟩

end FormulaFold
