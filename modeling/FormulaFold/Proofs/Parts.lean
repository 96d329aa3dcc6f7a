import FormulaFold.Folding.Optimize
import FormulaFold.Running.Evaluate
import Mathlib.Data.List.Forall2
import Mathlib.Data.List.ReduceOption
import Mathlib.Logic.Relation

/-! # Formulas and their parts

The walk and the run of a formula are put together from those of its immediate parts: its
children, and for a fold also the formulas of its definition.  `Expr.induction_on_parts` is the
induction that follows this shape; it replaces a case for every list and record in which a
formula can be nested.

Walking and running a list of children, a case or a fold definition is mapping over it
(`walkAll_eq`, `evaluationDef_eq`, ...), so that what is known of one formula carries over to
the lists and records around it.
-/
namespace FormulaFold

export List (Forall₂ mem_cons_self forall_mem_cons mem_map mem_cons_of_mem mem_append mem_singleton
  map_cons length_map flatMap_cons mem_flatMap mem_cons mem_of_getElem? forall₂_map_left_iff
  forall₂_same nil_append map_eq_nil_iff of_mem_zip map_map length_append isEmpty_iff cons_append
  all_eq_true mem_of_mem_take map_append length_eq_zero_iff forall₂_map_right_iff filter_cons
  rel_append singleton_append map_fst_zip length_cons getElem?_map all_cons length_pos_iff
  lookup_cons map_congr_left append_nil map_nil mem_filterMap map_drop map_eq_cons_iff
  forall_mem_append filter_eq_nil_iff getElem?_eq_getElem filter_eq_self not_mem_nil)
export Option (map_eq_some_iff map_some mem_toList bind_some map_none map_eq_none_iff
  isSome_iff_exists)
export Bool (and_eq_true false_eq_true or_eq_false_iff and_eq_true_iff)
export Builtin (ofName?)
export Expr (walk evaluation materializeAll)
export Outcome (ofExpr ofChild)

variable {e p : Expr} {α β γ : Type}

/-! ## Missing children -/

/-- The children of a node, some of which may be missing. -/
abbrev Children := List (Option Expr)

/-- How a node is computed from the values of its children. -/
abbrev Computation := List Value → Except Failure Value

/-- Names and what they stand for. -/
abbrev Pairs := List (String × Outcome)

/-- The children that are there. -/
def present (children : List (Option α)) : List α := children.reduceOption

@[simp] theorem mem_present {e : α} {children : List (Option α)} :
    e ∈ present children ↔ some e ∈ children := List.reduceOption_mem_iff

@[simp] theorem trimmed_nil : trimmed ([] : List (Option α)) = [] := rfl

@[simp] theorem trimmed_some_cons (a : α) (as : List (Option α)) :
    trimmed (some a :: as) = some a :: trimmed as := by
  simp [trimmed]

theorem trimmed_none_cons (as : List (Option α)) :
    trimmed (none :: as) = if trimmed as = [] then [] else none :: trimmed as := by
  cases h : trimmed as <;> simp [trimmed, h]

theorem exists_of_trimmed_eq_cons {a : α} {as rest : List (Option α)}
    (h : trimmed as = some a :: rest) : ∃ more, as = some a :: more ∧ trimmed more = rest := by
  rcases as with _ | ⟨_ | a', more⟩
  · cases h
  · rw [trimmed_none_cons] at h
    split at h <;> cases h
  · rw [trimmed_some_cons] at h
    cases h
    exact ⟨more, rfl, rfl⟩

theorem trimmed_map (f : α → β) (as : List (Option α)) :
    trimmed (as.map (Option.map f)) = (trimmed as).map (Option.map f) := by
  induction as with
  | nil => rfl
  | cons a as ih =>
    cases a with
    | some a => simp [ih]
    | none =>
      simp only [map_cons, map_none, trimmed_none_cons, ih, map_eq_nil_iff]
      split <;> rfl

theorem trimmed_map_some (xs : List α) : trimmed (xs.map some) = xs.map some := by
  induction xs with
  | nil => rfl
  | cons x xs ih => rw [map_cons, trimmed_some_cons, ih]

/-- Dropping the missing children at the end loses nothing else. -/
theorem trimmed_append_missing (as : List (Option α)) :
    ∃ n, as = trimmed as ++ List.replicate n none := by
  induction as with
  | nil => exact ⟨0, rfl⟩
  | cons a as ih =>
    obtain ⟨n, hn⟩ := ih
    cases a with
    | some a => exact ⟨n, by rw [trimmed_some_cons, cons_append, ← hn]⟩
    | none =>
      by_cases h : trimmed as = []
      · rw [h, nil_append] at hn
        refine ⟨n + 1, ?_⟩
        rw [trimmed_none_cons, if_pos h, nil_append, List.replicate_succ, ← hn]
      · exact ⟨n, by rw [trimmed_none_cons, if_neg h, cons_append, ← hn]⟩

theorem present_trimmed (as : List (Option α)) : present (trimmed as) = present as := by
  obtain ⟨n, hn⟩ := trimmed_append_missing as
  conv_rhs => rw [hn]
  simp [present, List.reduceOption_append]

theorem mem_of_mem_trimmed {a : Option α} {as : List (Option α)} (h : a ∈ trimmed as) :
    a ∈ as := by
  obtain ⟨n, hn⟩ := trimmed_append_missing as
  rw [hn]
  exact List.mem_append_left _ h

theorem mem_trimmed_of_some_mem {a : α} {as : List (Option α)} (h : some a ∈ as) :
    some a ∈ trimmed as := by
  obtain ⟨n, hn⟩ := trimmed_append_missing as
  rw [hn] at h
  rcases mem_append.mp h with h | h
  · exact h
  · cases List.eq_of_mem_replicate h

theorem mem_of_getElem?_join {es : List (Option α)} {i : Nat} {e : α}
    (h : es[i]?.join = some e) : some e ∈ es := by
  cases hi : es[i]? with
  | none =>
    rw [hi] at h
    cases h
  | some o =>
    rw [hi, Option.join_some] at h
    exact mem_of_getElem? (hi.trans (congrArg some h))

theorem forall₂_append_left {P : α → β → Prop} {xs ys : List α} {zs : List β}
    (h : Forall₂ P (xs ++ ys) zs) :
    ∃ us vs, zs = us ++ vs ∧ Forall₂ P xs us ∧ Forall₂ P ys vs := by
  induction xs generalizing zs with
  | nil => exact ⟨[], zs, rfl, .nil, h⟩
  | cons x xs ih =>
    cases h with
    | cons hx h =>
      obtain ⟨us, vs, rfl, hus, hvs⟩ := ih h
      exact ⟨_ :: us, vs, rfl, .cons hx hus, hvs⟩

theorem exists_of_forall₂_of_mem {P : α → β → Prop} {xs : List α} {ys : List β}
    (h : Forall₂ P xs ys) {y : β} (hy : y ∈ ys) : ∃ x ∈ xs, P x y := by
  induction h with
  | nil => cases hy
  | cons hx _ ih =>
    rcases mem_cons.mp hy with rfl | hy
    · exact ⟨_, mem_cons_self, hx⟩
    · obtain ⟨x, hmem, hx⟩ := ih hy
      exact ⟨x, mem_cons_of_mem _ hmem, hx⟩

theorem length_of_mem_rowsOf {width n : Nat} {elements row : List α}
    (h : row ∈ rowsOf width n elements) : row.length = width := by
  fun_induction rowsOf width n elements with
  | case1 => cases h
  | case2 => cases h
  | case3 n elements hlt ih =>
    rcases mem_cons.mp h with rfl | h
    · rw [List.length_take]
      omega
    · exact ih h

theorem forall₂_rowsOf {P : α → β → Prop} {xs : List α} {ys : List β} (width n : Nat)
    (h : Forall₂ P xs ys) :
    Forall₂ (Forall₂ P) (rowsOf width n xs) (rowsOf width n ys) := by
  induction n generalizing xs ys with
  | zero => exact .nil
  | succ n ih =>
    unfold rowsOf
    rw [h.length_eq]
    split
    · exact .nil
    · exact .cons (List.forall₂_take width h) (ih (List.forall₂_drop width h))

/-! ## Parts -/

namespace FoldDef

/-- A fold definition with each of its formulas replaced. -/
def map (f : α → β) (d : FoldDef α) : FoldDef β :=
  ⟨d.accumulators.map fun a => ⟨a.name, a.init.map f, f a.step⟩, d.elements, d.index, d.count,
    d.merge.map f, d.whenEmpty.map f, d.commutative⟩

variable (f : α → β) (d : FoldDef α)

@[simp] theorem map_elementNames : (d.map f).elementNames = d.elementNames := rfl

@[simp] theorem map_accumulatorNames : (d.map f).accumulatorNames = d.accumulatorNames := by
  simp [map, accumulatorNames]

@[simp] theorem map_inits : (d.map f).inits = d.inits.map (Option.map f) := by
  simp [map, inits]

@[simp] theorem map_steps : (d.map f).steps = d.steps.map f := by
  simp [map, steps]

@[simp] theorem map_start (seeds : List α) :
    (d.map f).start (seeds.map f) = (d.start seeds).map (Option.map f) := by
  unfold start
  cases seeds <;> simp

theorem mem_start {e : α} {seeds : List α} (h : some e ∈ d.start seeds) :
    some e ∈ d.inits ∨ e ∈ seeds := by
  unfold start at h
  split at h
  · exact .inl h
  · exact .inr (by simpa using h)

@[simp] theorem map_orderSensitive : (d.map f).orderSensitive = d.orderSensitive := rfl

@[simp] theorem map_index : (d.map f).index = d.index := rfl

@[simp] theorem map_count : (d.map f).count = d.count := rfl

@[simp] theorem map_merge : (d.map f).merge = d.merge.map f := rfl

@[simp] theorem map_whenEmpty : (d.map f).whenEmpty = d.whenEmpty.map f := rfl

/-- The names bound in the steps of a fold, with those of the columns of a table. -/
def stepNames (d : FoldDef α) (columns : List String) : List String :=
  d.accumulatorNames ++ d.elementNames ++ ((if d.index = "" then [] else [d.index]) ++ columns)

/-- The names bound in the merge of a fold. -/
def mergeNames (d : FoldDef α) : List String :=
  d.accumulatorNames ++ (if d.count = "" then [] else [d.count])

@[simp] theorem map_stepNames (columns : List String) :
    (d.map f).stepNames columns = d.stepNames columns := by
  unfold stepNames
  rw [map_accumulatorNames]
  rfl

@[simp] theorem map_mergeNames : (d.map f).mergeNames = d.mergeNames := by
  unfold mergeNames
  rw [map_accumulatorNames]
  rfl

/-- The formulas of a fold definition. -/
def parts (d : FoldDef α) : List α :=
  present d.inits ++ d.steps ++ d.merge.toList ++ d.whenEmpty.toList

theorem mem_parts_of_mem_steps {e : α} {d : FoldDef α} (h : e ∈ d.steps) : e ∈ d.parts := by
  simp [parts, h]

theorem mem_parts_of_mem_start {e : α} {seeds : List α} (h : some e ∈ d.start seeds) :
    e ∈ d.parts ∨ e ∈ seeds :=
  (mem_start d h).imp_left fun h => by simp [parts, h]

end FoldDef

/-- A case with its branch replaced. -/
def Case.map (f : α → β) (c : Case α) : Case β := ⟨c.values, c.branch.map f⟩

@[simp] theorem Case.map_matches (f : α → β) (c : Case α) (k : Int) :
    (c.map f).matches k = c.matches k := rfl

@[simp] theorem Case.map_branch (f : α → β) (c : Case α) :
    (c.map f).branch = c.branch.map f := rfl

/-- The immediate parts of a formula. -/
def Expr.parts : Expr → List Expr
  | .constant .. | .cell _ | .letVar .. => []
  | .operator _ args _ | .call _ args _ | .range _ _ args | .splice args | .subSection _ args
  | .count _ args => present args
  | .letIn _ value body => value.toList ++ body.toList
  | .switch selector cases otherwise _ =>
    selector.toList ++ present (cases.map (·.branch)) ++ otherwise.toList
  | .switchCase c => c.branch.toList
  | .fold _ d seeds _ elements _ => d.parts ++ seeds ++ present elements
  | .reduce d seed _ elements _ => d.parts ++ seed.toList ++ present elements
  | .foldArray d array _ => d.parts ++ array.toList
  | .foldVectors d seeds _ vectors _ => d.parts ++ seeds ++ present vectors
  | .foldTable d seeds _ _ filter _ table _ =>
    d.parts ++ seeds ++ filter.toList ++ table.toList
  | .parentSection _ inner => inner.toList

section Size

private theorem sizeOf_lt_of_mem_present {es : Children} (h : e ∈ present es) :
    sizeOf e < sizeOf es := by
  have h := List.sizeOf_lt_of_mem (mem_present.mp h)
  simp only [Option.some.sizeOf_spec] at h
  omega

private theorem sizeOf_lt_of_mem_toList {o : Option Expr} (h : e ∈ o.toList) :
    sizeOf e < sizeOf o := by
  simp only [mem_toList] at h
  subst h
  simp only [Option.some.sizeOf_spec]
  omega

private theorem sizeOf_lt_of_mem_branches {cs : List (Case Expr)}
    (h : e ∈ present (cs.map (·.branch))) : sizeOf e < sizeOf cs := by
  obtain ⟨c, hc, he⟩ := mem_map.mp (mem_present.mp h)
  have hs := List.sizeOf_lt_of_mem hc
  obtain ⟨values, branch⟩ := c
  simp only at he
  subst he
  simp only [Case.mk.sizeOf_spec, Option.some.sizeOf_spec] at hs
  omega

private theorem sizeOf_lt_of_mem_def {d : FoldDef Expr} (h : e ∈ d.parts) :
    sizeOf e < sizeOf d := by
  obtain ⟨accs, elements, index, count, merge, whenEmpty, commutative⟩ := d
  simp only [FoldDef.parts, FoldDef.inits, FoldDef.steps, mem_append] at h
  simp only [FoldDef.mk.sizeOf_spec]
  rcases h with ((h | h) | h) | h
  · obtain ⟨a, ha, he⟩ := mem_map.mp (mem_present.mp h)
    have hs := List.sizeOf_lt_of_mem ha
    obtain ⟨name, init, step⟩ := a
    simp only at he
    subst he
    simp only [Accumulator.mk.sizeOf_spec, Option.some.sizeOf_spec] at hs
    omega
  · obtain ⟨a, ha, he⟩ := mem_map.mp h
    have hs := List.sizeOf_lt_of_mem ha
    obtain ⟨name, init, step⟩ := a
    simp only at he
    subst he
    simp only [Accumulator.mk.sizeOf_spec] at hs
    omega
  · have := sizeOf_lt_of_mem_toList h
    omega
  · have := sizeOf_lt_of_mem_toList h
    omega

theorem Expr.sizeOf_lt_of_mem_parts (h : p ∈ e.parts) : sizeOf p < sizeOf e := by
  cases e
  all_goals
    simp only [Expr.parts, mem_append, not_mem_nil] at h
  case operator | call | range | splice | subSection | count =>
    have := sizeOf_lt_of_mem_present h
    simp
    omega
  case parentSection =>
    have := sizeOf_lt_of_mem_toList h
    simp
    omega
  case switchCase c =>
    have := sizeOf_lt_of_mem_toList h
    obtain ⟨values, branch⟩ := c
    simp at this ⊢
    omega
  case letIn value body =>
    have := h.imp sizeOf_lt_of_mem_toList sizeOf_lt_of_mem_toList
    simp
    omega
  case switch =>
    have := h.imp (Or.imp sizeOf_lt_of_mem_toList sizeOf_lt_of_mem_branches)
      sizeOf_lt_of_mem_toList
    simp
    omega
  case fold | foldVectors =>
    have := h.imp (Or.imp sizeOf_lt_of_mem_def List.sizeOf_lt_of_mem) sizeOf_lt_of_mem_present
    simp
    omega
  case reduce =>
    have := h.imp (Or.imp sizeOf_lt_of_mem_def sizeOf_lt_of_mem_toList) sizeOf_lt_of_mem_present
    simp
    omega
  case foldArray =>
    have := h.imp sizeOf_lt_of_mem_def sizeOf_lt_of_mem_toList
    simp
    omega
  case foldTable =>
    have := h.imp (Or.imp (Or.imp sizeOf_lt_of_mem_def List.sizeOf_lt_of_mem)
      sizeOf_lt_of_mem_toList) sizeOf_lt_of_mem_toList
    simp
    omega

end Size

/-- Whether `p` is a part of `e`, or a part of one of its parts, at any depth. -/
def Expr.Inside : Expr → Expr → Prop := Relation.TransGen fun p e => p ∈ e.parts

theorem Expr.Inside.part (h : p ∈ e.parts) : p.Inside e := .single h

theorem Expr.Inside.trans {q : Expr} (h : p.Inside q) (h' : q.Inside e) : p.Inside e :=
  Relation.TransGen.trans h h'

theorem Expr.Inside.sizeOf_lt (h : p.Inside e) : sizeOf p < sizeOf e := by
  induction h with
  | single h => exact Expr.sizeOf_lt_of_mem_parts h
  | tail _ h ih => exact Nat.lt_trans ih (Expr.sizeOf_lt_of_mem_parts h)

/-- **Induction on the parts of a formula.**  What holds of a formula whenever it holds of
everything inside it holds of every formula. -/
theorem Expr.induction_on_parts {P : Expr → Prop} (step : ∀ e, (∀ p, p.Inside e → P p) → P e)
    (e : Expr) : P e :=
  step e fun p _ => Expr.induction_on_parts step p
termination_by sizeOf e
decreasing_by exact Expr.Inside.sizeOf_lt ‹_›

/-! ## Walks and runs of lists and records -/

/-- The formulas of a fold definition that are used in any case. -/
def FoldDef.body {ε : Type} (d : FoldDef ε) : List ε :=
  d.steps ++ d.merge.toList ++ d.whenEmpty.toList

namespace Expr

/-- Whether a formula is a fold. -/
def isFold : Expr → Bool
  | fold .. | reduce .. | foldArray .. | foldVectors .. | foldTable .. => true
  | _ => false

/-- The parts of a formula that are used: first values that seeds take the place of are not, and
neither are those of a reduction. -/
def liveParts : Expr → List Expr
  | fold _ d seeds _ elements _ => present (d.start seeds) ++ d.body ++ present elements
  | reduce d seed _ elements _ => seed.toList ++ d.body ++ present elements
  | foldArray d array _ => present d.inits ++ d.body ++ array.toList
  | foldVectors d seeds _ vectors _ => present (d.start seeds) ++ d.body ++ present vectors
  | foldTable d seeds _ _ filter _ table _ =>
    present (d.start seeds) ++ d.body ++ filter.toList ++ table.toList
  | e => e.parts

theorem mem_parts_of_mem_liveParts {e p : Expr} (h : p ∈ e.liveParts) : p ∈ e.parts := by
  have hbody {d : FoldDef Expr} (hp : p ∈ d.body) : p ∈ d.parts := by
    simp only [FoldDef.body, FoldDef.parts, mem_append] at hp ⊢
    tauto
  have hinits {d : FoldDef Expr} (hp : some p ∈ d.inits) : p ∈ d.parts := by
    simp [FoldDef.parts, hp]
  have hstart {d : FoldDef Expr} {seeds : List Expr} :=
    @FoldDef.mem_parts_of_mem_start _ d p seeds
  cases e with
  | fold | reduce | foldArray | foldVectors | foldTable =>
    simp only [liveParts, parts, mem_append, mem_present] at h ⊢
    grind
  | _ => exact h

end Expr

export Expr (parts liveParts induction_on_parts)

section Walks

variable (site : Site) (enter : Address → Expr → Action)

theorem walkOption_eq (e : Option Expr) :
    walkOption site enter e = e.map (walk site enter) := by
  cases e <;> simp [walkOption]

theorem walkAll_eq (es : Children) :
    walkAll site enter es = es.map (Option.map (walk site enter)) := by
  induction es with
  | nil => simp [walkAll]
  | cons e es ih => simp [walkAll, walkOption_eq, ih]

/-- The range that an `INDEX` with the given arguments looks into. -/
def indexRange? : List (Option Expr) → Option (Int × Int × List (Option Expr))
  | some (.range rows cols elements) :: _ => some (rows, cols, elements)
  | _ => none

theorem indexRange?_eq_some {args : Children} {rows cols : Int}
    {elements : Children} (h : indexRange? args = some (rows, cols, elements)) :
    ∃ rest, args = some (.range rows cols elements) :: rest := by
  unfold indexRange? at h
  split at h
  · cases h
    exact ⟨_, rfl⟩
  · cases h

theorem walk_call (fn : String) (args : List (Option Expr)) (t : DataType) :
    (Expr.call fn args t).walk site enter =
      let node : Expr := .call fn args t
      let acts := args.map (Option.map (walk site enter))
      match Builtin.ofName? fn with
      | some .ifElse => ifForm site node acts
      | some .and => boolForm site fn t false acts
      | some .or => boolForm site fn t true acts
      | some .index =>
        indexForm site node ((indexRange? args).map fun r =>
          ⟨r.1, r.2.1, r.2.2.map (Option.map (walk site enter))⟩) acts
      | some .concatenate => concatForm site node fn t acts
      | some .row => positionForm site node fn (·.row) args acts
      | some .column => positionForm site node fn (·.col) args acts
      | _ => callForm site node fn acts := by
  have hgrid : (match args with
      | some (.range rows cols elements) :: _ =>
        some (⟨rows, cols, walkAll site enter elements⟩ : Grid)
      | _ => none) = (indexRange? args).map fun r =>
          ⟨r.1, r.2.1, r.2.2.map (Option.map (walk site enter))⟩ := by
    unfold indexRange?
    split
    · simp [walkAll_eq]
    · rfl
  rewrite [← walkAll_eq, ← hgrid, Expr.walk.eq_def]
  rfl

theorem walk_connective {decisive : Bool}
    (hf : Builtin.ofName? fn = some (if decisive then .or else .and)) (args : Children) :
    (Expr.call fn args t).walk site enter =
      boolForm site fn t decisive (args.map (Option.map (walk site enter))) := by
  rw [walk_call, hf]
  cases decisive <;> rfl

theorem walkSeeds_eq (es : List Expr) :
    walkSeeds site enter es = es.map (walk site enter) := by
  induction es with
  | nil => simp [walkSeeds]
  | cons e es ih => simp [walkSeeds, ih]

theorem walkCase_eq (c : Case Expr) : walkCase site enter c = c.map (walk site enter) := by
  obtain ⟨values, branch⟩ := c
  simp [walkCase, Case.map, walkOption_eq]

theorem walkCases_eq (cs : List (Case Expr)) :
    walkCases site enter cs = cs.map (Case.map (walk site enter)) := by
  induction cs with
  | nil => simp [walkCases]
  | cons c cs ih => simp [walkCases, walkCase_eq, ih]

theorem walkCaseNodes_eq (cs : List (Case Expr)) :
    walkCaseNodes site enter cs = cs.map fun c => some ((Expr.switchCase c).walk site enter) := by
  induction cs with
  | nil => simp [walkCaseNodes]
  | cons c cs ih => simp [walkCaseNodes, walk, ih]

theorem walkDef_eq (d : FoldDef Expr) : walkDef site enter d = d.map (walk site enter) := by
  have haccs (as : List (Accumulator Expr)) : walkAccumulators site enter as =
      as.map fun a => ⟨a.name, a.init.map (walk site enter), a.step.walk site enter⟩ := by
    induction as with
    | nil => simp [walkAccumulators]
    | cons a as ih =>
      obtain ⟨name, init, step⟩ := a
      simp [walkAccumulators, walkAccumulator, walkOption_eq, ih]
  obtain ⟨accs, elements, index, count, merge, whenEmpty, commutative⟩ := d
  simp [walkDef, FoldDef.map, haccs, walkOption_eq]

end Walks

section Runs

variable (ev : Evaluator) (enter : Address → Expr → Evaluation)

theorem evaluationOption_eq (e : Option Expr) :
    evaluationOption ev enter e = e.map (evaluation ev enter) := by
  cases e <;> simp [evaluationOption]

theorem evaluationAll_eq (es : Children) :
    evaluationAll ev enter es = es.map (Option.map (evaluation ev enter)) := by
  induction es with
  | nil => simp [evaluationAll]
  | cons e es ih => simp [evaluationAll, evaluationOption_eq, ih]

theorem evaluationSeeds_eq (es : List Expr) :
    evaluationSeeds ev enter es = es.map (evaluation ev enter) := by
  induction es with
  | nil => simp [evaluationSeeds]
  | cons e es ih => simp [evaluationSeeds, ih]

theorem evaluationCase_eq (c : Case Expr) :
    evaluationCase ev enter c = c.map (evaluation ev enter) := by
  obtain ⟨values, branch⟩ := c
  simp [evaluationCase, Case.map, evaluationOption_eq]

theorem evaluationCases_eq (cs : List (Case Expr)) :
    evaluationCases ev enter cs = cs.map (Case.map (evaluation ev enter)) := by
  induction cs with
  | nil => simp [evaluationCases]
  | cons c cs ih => simp [evaluationCases, evaluationCase_eq, ih]

theorem evaluationDef_eq (d : FoldDef Expr) :
    evaluationDef ev enter d = d.map (evaluation ev enter) := by
  have haccs (as : List (Accumulator Expr)) : evaluationAccumulators ev enter as =
      as.map fun a =>
        ⟨a.name, a.init.map (evaluation ev enter), a.step.evaluation ev enter⟩ := by
    induction as with
    | nil => simp [evaluationAccumulators]
    | cons a as ih =>
      obtain ⟨name, init, step⟩ := a
      simp [evaluationAccumulators, evaluationAccumulator, evaluationOption_eq, ih]
  obtain ⟨accs, elements, index, count, merge, whenEmpty, commutative⟩ := d
  simp [evaluationDef, FoldDef.map, haccs, evaluationOption_eq]

end Runs

end FormulaFold
