import FormulaFold.Proofs.References
import FormulaFold.Proofs.Upholding

/-! # What surrounds a formula

A walk sees the names that are bound to known outcomes; a run sees an environment.  The two meet
(`Evaluator.Meets`) when the names stand for the same values and the section rows around the
formula give values to inputs only.  Binding the names of a fold on both sides makes them meet
again.

A run enters the formulas of cells.  `Runner.Admits` says of a formula and of all formulas that
it reaches that their nodes are of the kinds that a walk upholds.  Where failures have to be kept,
it also says that the run gets through to every formula: on a workbook without cycles it does.
-/
namespace FormulaFold

variable {p : Expr} {pairs : Pairs} {row : Row}

/-! ## Section rows -/

/-- Whether a section row gives values to inputs only, settled ones where all values are plain. -/
def Row.Fits (plain : Bool) (book : Workbook) (row : Row) : Prop :=
  ∀ a v, row.lookup a = some v → (book.get a).input = true ∧ (plain = true → v.isSettled = true)

/-- Whether the rows of all sections give values to inputs only.  Where all values are plain, those
of the inputs are settled. -/
structure Inputs.Fits (plain : Bool) (book : Workbook) (inputs : Inputs) : Prop where
  cells : plain = true → ∀ a v, inputs.cell? a = some v → v.isSettled = true
  rows : ∀ s, ∀ row ∈ inputs.rows s, row.Fits plain book

/-- Whether the rows around a formula give values to inputs only.  Where all values are plain, every
name stands for a settled one. -/
structure Env.Fits (plain : Bool) (book : Workbook) (env : Env) : Prop where
  rows : ∀ row ∈ env.rows, row.Fits plain book
  names : plain = true → ∀ x y, env.find? x = some y → ∃ v, y = .one v ∧ v.isSettled = true

namespace Env

variable {plain : Bool} {book : Workbook} {env : Env}

theorem fits_of_rows {rows : List Row} (h : ∀ row ∈ rows, row.Fits plain book)
    (origin : Option Address) : Fits plain book ⟨[], origin, rows⟩ where
  rows := h
  names _ x y hy := by simp [find?] at hy

theorem Fits.set (h : env.Fits plain book) (name : String)
    (hy : plain = true → ∃ v, y = .one v ∧ v.isSettled = true) :
    (env.set name y).Fits plain book where
  rows := by
    rw [set_rows]
    exact h.rows
  names hplain x z hz := by
    rw [find?_set] at hz
    split at hz
    · cases hz
      exact hy hplain
    · exact h.names hplain x z hz

theorem Fits.setPairs (h : env.Fits plain book) {pairs : List (String × Value)}
    (hpairs : plain = true → ∀ pair ∈ pairs, pair.2.isSettled = true) :
    (env.setPairs pairs).Fits plain book := by
  induction pairs generalizing env with
  | nil => exact h
  | cons pair rest ih =>
    refine ih (h.set pair.1 fun hplain => ⟨_, rfl, hpairs hplain pair mem_cons_self⟩) ?_
    exact fun hplain pair hpair => hpairs hplain pair (mem_cons_of_mem _ hpair)

theorem Fits.enterRow (h : env.Fits plain book) (hrow : row.Fits plain book) :
    (env.enterRow row).Fits plain book :=
  ⟨forall_mem_cons.mpr ⟨hrow, h.rows⟩, h.names⟩

theorem Fits.outerRow (h : env.Fits plain book) : env.outerRow.Fits plain book :=
  ⟨fun row hrow => h.rows row (List.mem_of_mem_tail hrow), h.names⟩

/-- The rows around a formula give values to inputs only. -/
theorem Fits.cell? (h : env.Fits plain book) {v : Value} (hv : env.cell? a = some v) :
    (book.get a).input = true ∧ (plain = true → v.isSettled = true) := by
  obtain ⟨row, hrow, hv⟩ := List.exists_of_findSome?_eq_some hv
  exact h.rows row hrow a v hv

theorem Fits.cell?_eq_none (h : env.Fits plain book) (ha : (book.get a).input = false) :
    env.cell? a = none := by
  cases hcell : env.cell? a with
  | none => rfl
  | some v => cases ha.symm.trans (h.cell? hcell).1

@[simp] theorem setPairs_origin (env : Env) (pairs : List (String × Value)) :
    (env.setPairs pairs).origin = env.origin := by
  induction pairs generalizing env with
  | nil => rfl
  | cons pair rest ih => rw [setPairs, ih, set_origin]

@[simp] theorem setPairs_rows (env : Env) (pairs : List (String × Value)) :
    (env.setPairs pairs).rows = env.rows := by
  induction pairs generalizing env with
  | nil => rfl
  | cons pair rest ih => rw [setPairs, ih, set_rows]

theorem find?_setPairs_of_not_mem {pairs : List (String × Value)} {x : String}
    (hx : x ≠ "" → x ∉ pairs.map (·.1)) : (env.setPairs pairs).find? x = env.find? x := by
  induction pairs generalizing env with
  | nil => rfl
  | cons pair rest ih =>
    rw [setPairs, ih fun hne hmem => hx hne (mem_cons_of_mem _ hmem), find?_set, if_neg]
    rintro ⟨hne, rfl⟩
    exact hx hne mem_cons_self

theorem setPairs_append (env : Env) (pairs more : List (String × Value)) :
    env.setPairs (pairs ++ more) = (env.setPairs pairs).setPairs more := by
  induction pairs generalizing env with
  | nil => rfl
  | cons pair rest ih => exact ih _

end Env

/-! ## Names -/

/-- Whether the names that are bound to outcomes stand for their values.  The empty name stands for
nothing in a run; where failures have to be kept, it must not be bound. -/
structure Bindings.Matches (strict : Prop) (b : Bindings) (env : Env) : Prop where
  named : ∀ x o, x ≠ "" → b.lookup x = .ok (some o) → env.find? x = some o.yield
  unnamed : strict → ∀ o, b.lookup "" ≠ .ok (some o)

namespace Bindings

variable {strict : Prop} {plain : Bool} {b : Bindings} {env : Env}

theorem matches_empty (env : Env) : Bindings.empty.Matches strict env :=
  ⟨fun _ _ _ h => by simp [lookup, empty] at h, fun _ _ h => by simp [lookup, empty] at h⟩

theorem Matches.push (h : b.Matches strict env) (hstrict : ¬strict) (name : String)
    {o : Option Outcome} (ho : ∀ x, o = some x → y = x.yield) :
    (b.push name o).Matches strict (env.set name y) where
  named x r hx hr := by
    rw [lookup_push] at hr
    rw [Env.find?_set]
    split at hr
    · rename_i heq
      subst heq
      rw [if_pos ⟨hx, rfl⟩, ho r (Except.ok.inj hr)]
    · rename_i hne
      rw [if_neg fun h => hne h.2.symm]
      exact h.named x r hx hr
  unnamed hs := absurd hs hstrict

/-- The values that names are bound to. -/
def valuesOf (pairs : Pairs) : List (String × Value) :=
  pairs.map fun pair => (pair.1, pair.2.value)

theorem Matches.pushAll (h : b.Matches strict env) (hpairs : ∀ pair ∈ pairs, pair.2.Fits plain) :
    (b.pushAll pairs).Matches strict (env.setPairs (valuesOf pairs)) := by
  induction pairs generalizing b env with
  | nil => exact h
  | cons pair rest ih =>
    obtain ⟨name, o⟩ := pair
    have hall := forall_mem_cons.mp hpairs
    obtain ⟨v, t, rfl, _⟩ : o.Fits plain := hall.1
    rw [valuesOf, map_cons, Env.setPairs, Bindings.pushAll]
    split
    · rename_i hname
      refine ih ?_ hall.2
      rw [Env.set, if_pos hname]
      exact h
    · rename_i hname
      refine ih ⟨fun x r hx hr => ?_, fun hs r hr => ?_⟩ hall.2
      · rw [lookup_push] at hr
        rw [Env.find?_set]
        split at hr
        · rename_i heq
          subst heq
          cases hr
          rw [if_pos ⟨hname, rfl⟩]
          rfl
        · rename_i hne
          rw [if_neg fun h => hne h.2.symm]
          exact h.named x r hx hr
      · rw [lookup_push, if_neg hname] at hr
        exact h.unnamed hs r hr

theorem valuesOf_append (pairs more : Pairs) :
    valuesOf (pairs ++ more) = valuesOf pairs ++ valuesOf more := map_append

theorem valuesOf_zip (names : List String) (os : List Outcome) :
    valuesOf (names.zip os) = names.zip (os.map (·.value)) := by
  rw [List.zip_map_right]
  rfl

end Bindings

namespace FoldDef

open Bindings

variable (d : FoldDef Expr) (env : Env)

/-- The names of a step are bound to the same values in a walk and in a run. -/
theorem stepEnv_eq (folded : Nat) (accs elements : List Outcome) (extra : Pairs) :
    d.stepEnv env folded (accs.map (·.value)) (elements.map (·.value)) (valuesOf extra) =
      env.setPairs (valuesOf (d.stepPairs folded accs elements extra)) := by
  have hposition (env : Env) : env.setPairs (valuesOf (d.positionPair folded)) =
      env.set d.index (.one (.number (Float.ofNat (folded + 1)))) := by
    unfold positionPair
    split
    · rename_i hindex
      rw [Env.set, if_pos hindex]
      rfl
    · rfl
  rw [stepPairs, valuesOf_append, valuesOf_append, valuesOf_append, Env.setPairs_append,
    Env.setPairs_append, Env.setPairs_append, hposition, valuesOf_zip, valuesOf_zip]
  rfl

/-- The names of a merge are bound to the same values in a walk and in a run. -/
theorem mergeEnv_eq (folded : Nat) (accs : List Outcome) :
    d.mergeEnv env folded (accs.map (·.value)) =
      env.setPairs (valuesOf (d.mergePairs folded accs)) := by
  rw [mergePairs, valuesOf_append, Env.setPairs_append, valuesOf_zip]
  unfold mergeEnv
  split
  · rename_i hcount
    rw [Env.set, if_pos hcount]
    rfl
  · rfl

end FoldDef

/-! ## Walks and runs -/

/-- What a walk and a run of the same formula see of the names and rows around it. -/
structure Evaluator.Meets (ev : Evaluator) (strict : Prop) (plain : Bool) (origin : Option Address)
    (b : Bindings) (env : Env) : Prop where
  fits : b.Fits plain
  names : b.Matches strict env
  around : env.Fits plain ev.book
  origin : env.origin = origin

namespace Evaluator.Meets

variable {ev : Evaluator} {strict : Prop} {plain : Bool} {origin : Option Address} {b : Bindings}
  {env : Env} (h : ev.Meets strict plain origin b env)
include h

theorem pushAll (hpairs : ∀ pair ∈ pairs, pair.2.Fits plain) :
    ev.Meets strict plain origin (b.pushAll pairs) (env.setPairs (Bindings.valuesOf pairs)) where
  fits := h.fits.pushAll hpairs
  names := h.names.pushAll hpairs
  around := by
    refine h.around.setPairs fun hplain pair hpair => ?_
    obtain ⟨⟨x, o⟩, ho, rfl⟩ := mem_map.mp hpair
    obtain ⟨v, t, rfl, hv⟩ : o.Fits plain := hpairs _ ho
    subst hplain
    exact Value.isSettled_of_fits hv
  origin := by rw [Env.setPairs_origin, h.origin]

theorem enterRow (hrow : row.Fits plain ev.book) :
    ev.Meets strict plain origin b (env.enterRow row) :=
  ⟨h.fits, ⟨h.names.named, h.names.unnamed⟩, h.around.enterRow hrow, h.origin⟩

theorem outerRow : ev.Meets strict plain origin b env.outerRow :=
  ⟨h.fits, ⟨h.names.named, h.names.unnamed⟩, h.around.outerRow, h.origin⟩

omit h in
theorem map_fst_valuesOf (pairs : Pairs) :
    (Bindings.valuesOf pairs).map (·.1) = pairs.map (·.1) := by
  simp [Bindings.valuesOf, Function.comp_def]

/-- **The outcome of a formula without folds does not refer to the names that were bound to
outcomes for it**, so it can leave their scope. -/
theorem runs_pushAll_iff {e : Expr} {o : Outcome} {n : Nat} {visited : List Address}
    (hpairs : ∀ pair ∈ pairs, pair.2.Fits plain) (he : e.hasFold = false)
    (ho : ScopedIn false (b.pushAll pairs) e o) :
    ev.Runs n visited (env.setPairs (Bindings.valuesOf pairs)) o.expr y ↔
      ev.Runs n visited env o.expr y := by
  let p (x : String) : Bool :=
    x == "" || ((b.pushAll pairs).lookup x).toOption.any (·.isNone)
  have hscopes : (b.pushAll pairs).Scopes (fun _ => true) p :=
    { undefined := fun x _ hx => by simp [p, hx, Except.toOption]
      empty := fun _ => by simp [p]
      constant := fun x r hr => by
        obtain ⟨v, t, rfl, _⟩ := h.fits.pushAll hpairs x r hr
        rfl }
  have hscoped : o.expr.isScoped false p = true :=
    ho _ p hscopes (e.isScoped_true false) (e.keptScoped_of_not_hasFold p he)
  have hnames (x : String) (hx : p x = true) :
      (env.setPairs (Bindings.valuesOf pairs)).find? x = env.find? x := by
    refine Env.find?_setPairs_of_not_mem fun hne hmem => ?_
    rw [map_fst_valuesOf] at hmem
    obtain ⟨pair, _, hlookup⟩ := Bindings.exists_lookup_pushAll_of_mem (b := b) ⟨hne, hmem⟩
    simp [p, hne, hlookup, Except.toOption] at hx
  constructor
  · exact Evaluator.runs_of_agrees _ p _ _ _ hscoped
      ⟨(Env.setPairs_origin _ _).symm, (Env.setPairs_rows _ _).symm, fun x hx => (hnames x hx).symm⟩
  · exact Evaluator.runs_of_agrees _ p _ _ _ hscoped
      ⟨Env.setPairs_origin _ _, Env.setPairs_rows _ _, hnames⟩

end Evaluator.Meets

/-! ## Formulas that are reached -/

namespace Expr

/-- Whether the node is an `INDEX` into a written range. -/
def indexesRange : Expr → Bool
  | .call fn (some (.range ..) :: _) _ => ofName? fn == some .index
  | _ => false

/-- Whether a node that is computed ahead of the run fails whenever a run of it fails.  A walk of
`AND`, `OR` and `INDEX` passes over arguments, and `ROW` and `COLUMN` are not rounded by a run; the
value of a `letIn` may not be needed, and a table without rows has no columns in a run. -/
def keepsFailures : Expr → Bool
  | .letIn .. => false
  | .call fn _ _ => !(([some .and, some .or, some .index, some .row, some .column] :
      List (Option Builtin)).contains (ofName? fn))
  | .foldTable _ _ _ _ _ _ (some (.range rows _ _)) _ => rows != 0
  | _ => true

/-- What a walk upholds of a node by itself. -/
structure Suits (strict : Prop) (plain : Bool) (x : Expr) : Prop where
  ranges : plain = false → x.indexesRange = false
  failures : strict → x.keepsFailures = true

end Expr

namespace Workbook.Throughout

variable {book : Workbook} {P Q : Expr → Prop} {e : Expr}

theorem of_cells (hnodes : ∀ x : Expr, x.OccursIn e → P x) (hcells : ∀ cell ∈ book.cells, ∀ f,
    cell.formula = some f → ∀ x : Expr, x.OccursIn f → P x) : book.Throughout P e := by
  refine ⟨hnodes, fun a f _ hf => ?_⟩
  obtain ⟨cell, hcell, _, hformula⟩ := exists_cell_of_formula hf
  exact hcells cell hcell f hformula

theorem imp (h : book.Throughout P e) (hPQ : ∀ x, P x → Q x) : book.Throughout Q e :=
  ⟨fun x hx => hPQ x (h.nodes x hx), fun a f ha hf x hx => hPQ x (h.formulas a f ha hf x hx)⟩

theorem inside (h : book.Throughout P e) (hp : p.Inside e) : book.Throughout P p where
  nodes x hx := h.nodes x (hx.trans hp.to_reflTransGen)
  formulas a f := by
    rintro ⟨c, hc, hca⟩
    exact h.formulas a f ⟨c, hp.mentions hc, hca⟩

theorem formula (h : book.Throughout P (.cell a)) (hf : (book.get a).formula = some f) :
    book.Throughout P f := h.of_mentions (Expr.mentions_cell a) hf

end Workbook.Throughout

/-- What a walk asks of a formula that is run at the given depth while the given cells are being
run. -/
structure Runner.Admits (ev : Runner) (strict : Prop) (plain : Bool) (e : Expr) : Prop where
  suited : ev.book.Throughout (Expr.Suits strict plain) e
  ranks : strict → ∀ a f, e.Mentions a → (ev.book.get a).formula = some f →
    ev.book.rank a < ev.depth ∧ ∀ c ∈ ev.visited, ev.book.rank a < ev.book.rank c

namespace Runner.Admits

variable {ev : Runner} {strict : Prop} {e : Expr}

theorem suits (h : ev.Admits strict plain e) : e.Suits strict plain :=
  h.suited.nodes e .refl

theorem inside (h : ev.Admits strict plain e) (hp : p.Inside e) : ev.Admits strict plain p :=
  ⟨h.suited.inside hp, fun hs a f ha => h.ranks hs a f (hp.mentions ha)⟩

/-- The formula of a cell is admitted when the cell is entered. -/
theorem enter {ev : Evaluator} {visited : List Address} (hacyclic : strict → ev.book.Acyclic)
    (h : Runner.Admits ⟨ev, n + 1, visited⟩ strict plain (.cell a))
    (hf : (ev.book.get a).formula = some f) :
    Runner.Admits ⟨ev, n, a :: visited⟩ strict plain f where
  suited := h.suited.formula hf
  ranks hs c g hc hg := by
    obtain ⟨hdepth, hvisited⟩ := h.ranks hs a f .refl hf
    have hlt := Workbook.rank_lt (hacyclic hs) ⟨f, hf, hc⟩ hg
    refine ⟨by dsimp only at hdepth ⊢; omega, forall_mem_cons.mpr ⟨hlt, fun d hd => ?_⟩⟩
    exact hlt.trans (hvisited d hd)

/-- Where failures are kept, a run gets through to the formula of a cell. -/
theorem exists_depth (h : ev.Admits strict plain (.cell a)) (hs : strict)
    (hf : (ev.book.get a).formula = some f) : a ∉ ev.visited ∧ ∃ m, ev.depth = m + 1 := by
  obtain ⟨hdepth, hvisited⟩ := h.ranks hs a f .refl hf
  exact ⟨fun ha => Nat.lt_irrefl _ (hvisited a ha), ev.depth - 1, by omega⟩

/-- The depth of a workbook without cycles is enough. -/
theorem start {ev : Evaluator} (hacyclic : strict → ev.book.Acyclic)
    (h : ev.book.Throughout (Expr.Suits strict plain) e) :
    Runner.Admits ⟨ev, ev.book.cells.length, []⟩ strict plain e :=
  ⟨h, fun hs _ _ _ hf => ⟨Workbook.rank_lt_length (hacyclic hs) hf, by simp⟩⟩

end Runner.Admits

end FormulaFold
