import FormulaFold.Proofs.Names

/-! # What runs see

A run looks up names in an environment.  This module says which names are bound around the parts of
a formula (`Env.Binds`, `FoldDef.stepEnv`, `FoldDef.mergeEnv`) and writes the forms that bind names
as they are used later on.
-/
namespace FormulaFold

variable {ev : Evaluator} {accs : List Value} {folded : Nat} {δ α β : Type}

theorem Run.bind_apply (x : Run α) (f : α → Run β) (visited : List Address) :
    (x >>= f) visited = match x visited with
      | .ok a visited' => f a visited'
      | .error e visited' => .error e visited' := by
  change EStateM.bind x f visited = _
  rw [EStateM.bind]
  split <;> simp_all

theorem Run.get_apply (visited : List Address) :
    (get : Run (List Address)) visited = .ok visited visited := rfl

/-- Whether every name that satisfies `p` is bound. -/
def Env.Binds (env : Env) (p : String → Bool) : Prop :=
  ∀ x, p x = true → (env.find? x).isSome = true

namespace Env

variable {env : Env} {p : String → Bool}

theorem find?_set (env : Env) (name : String) (y : Yield) (x : String) :
    (env.set name y).find? x = if name ≠ "" ∧ x = name then some y else env.find? x := by
  unfold set find?
  by_cases hname : name = ""
  · simp [hname]
  · by_cases hx : x = name
    · simp [hname, hx]
    · have hne : (x == name) = false := beq_eq_false_iff_ne.mpr hx
      simp [hname, hx, lookup_cons, hne]

theorem Binds.set (h : env.Binds p) (name : String) (y : Yield) :
    (env.set name y).Binds (binds [name] p) := by
  intro x hx
  rw [find?_set]
  rcases binds_iff.mp hx with ⟨hne, hmem⟩ | hx
  · rw [mem_singleton.mp hmem] at hne ⊢
    rw [if_pos ⟨hne, rfl⟩]
    rfl
  · split
    · rfl
    · exact h x hx

theorem Binds.imp {q : String → Bool} (h : env.Binds p) (hpq : ∀ x, q x = true → p x = true) :
    env.Binds q := fun x hx => h x (hpq x hx)

end Env

theorem cellForm_apply (enter : Address → Expr → Evaluation) (a : Address) (env : Env)
    (visited : List Address) : ev.cellForm enter a env visited =
      match env.cell? a with
      | some v => .ok (.one v) visited
      | none =>
        if (ev.book.get a).input then
          match ev.inputs.cell? a with
          | some v => .ok (.one v) visited
          | none => .error (.noInput a) visited
        else
          match (ev.book.get a).formula with
          | some f =>
            if visited.contains a then .error (.circular a) visited
            else Run.visiting a (enter a f ⟨[], some a, env.rows⟩) visited
          | none => .ok (.one (ev.engine.literal (ev.book.get a).value)) visited := by
  unfold Evaluator.cellForm
  cases env.cell? a with
  | some v => rfl
  | none =>
    dsimp only
    cases (ev.book.get a).input with
    | true => cases ev.inputs.cell? a <;> rfl
    | false =>
      cases (ev.book.get a).formula with
      | none => rfl
      | some f =>
        simp only [Run.bind_apply, Run.get_apply, false_eq_true,
          if_false]
        cases visited.contains a <;> rfl

/-! ## Folds -/

namespace FoldDef

variable {ε : Type} (d : FoldDef ε)

/-- What the steps of a fold see. -/
def stepEnv (env : Env) (folded : Nat) (accs elements : List Value)
    (extra : List (String × Value)) : Env :=
  (((env.setPairs (d.accumulatorNames.zip accs)).setPairs (d.elementNames.zip elements)).set
    d.index (.one (.number (Float.ofNat (folded + 1))))).setPairs extra

/-- What the merge of a fold sees. -/
def mergeEnv (env : Env) (folded : Nat) (accs : List Value) : Env :=
  (env.setPairs (d.accumulatorNames.zip accs)).set d.count
    (.one (.number (Float.ofNat folded)))

@[simp] theorem map_stepEnv (f : ε → δ) : (d.map f).stepEnv = d.stepEnv := by
  funext env folded accs elements extra
  simp [stepEnv]

@[simp] theorem map_mergeEnv (f : ε → δ) : (d.map f).mergeEnv = d.mergeEnv := by
  funext env folded accs
  simp [mergeEnv]

variable {d} {env : Env} {p : String → Bool}

theorem binds_stepNames (hx : binds (d.stepNames columns) p x = true) :
    binds columns (binds [d.index] (binds d.elementNames (binds d.accumulatorNames p))) x =
      true := by
  simp only [binds_iff, stepNames, mem_append] at hx ⊢
  rcases hx with ⟨hne, (hx | hx) | hx | hx⟩ | hx
  · exact .inr (.inr (.inr (.inl ⟨hne, hx⟩)))
  · exact .inr (.inr (.inl ⟨hne, hx⟩))
  · refine .inr (.inl ⟨hne, ?_⟩)
    split at hx
    · cases hx
    · exact hx
  · exact .inl ⟨hne, hx⟩
  · exact .inr (.inr (.inr (.inr hx)))

theorem binds_mergeNames (hx : binds d.mergeNames p x = true) :
    binds [d.count] (binds d.accumulatorNames p) x = true := by
  simp only [binds_iff, mergeNames, mem_append] at hx ⊢
  rcases hx with ⟨hne, hx | hx⟩ | hx
  · exact .inr (.inl ⟨hne, hx⟩)
  · refine .inl ⟨hne, ?_⟩
    split at hx
    · cases hx
    · exact hx
  · exact .inr (.inr hx)

end FoldDef

namespace RunFold

theorem step_eq (d : FoldDef Evaluation) (env : Env) (st : RunFold) (elements : List Value)
    (extra : List (String × Value)) :
    step d env st elements extra =
      if elements.length ≠ d.elementNames.length then
        throw (.misuse (.elementNames elements.length d.elementNames.length))
      else
        match st.accs with
        | none =>
          match elements with
          | [] => throw (.misuse .noElementName)
          | first :: _ => pure ⟨some [first], st.folded + 1⟩
        | some accs =>
          if d.accumulatorNames.length = accs.length then
            (fun vs => ⟨some vs, st.folded + 1⟩) <$>
              runSingles (d.stepEnv env st.folded accs elements extra) (d.steps.map some)
          else throw (.arity d.accumulatorNames.length accs.length) := by
  unfold step
  by_cases hlen : elements.length = d.elementNames.length
  · have hnames : d.elementNames.length = elements.length := hlen.symm
    simp only [hlen, ne_eq, not_true_eq_false, if_false]
    cases st.accs with
    | none => cases elements <;> rfl
    | some accs =>
      dsimp only
      unfold Env.bindAll Env.setAll?
      by_cases haccs : d.accumulatorNames.length = accs.length
      · simp only [haccs, if_true, hnames, pure_bind]
        rfl
      · simp only [haccs, if_false]
        rfl
  · simp only [ne_eq, hlen, not_false_eq_true, if_true]
    rfl

theorem result_eq (d : FoldDef Evaluation) (env : Env) (st : RunFold) :
    result d env st =
      match d.whenEmpty with
      | some whenEmpty => if st.folded = 0 then whenEmpty env else result.finish d env st
      | none => result.finish d env st := rfl

theorem finish_eq (d : FoldDef Evaluation) (env : Env) (st : RunFold) :
    result.finish d env st =
      match st.accs, d.merge with
      | none, _ => pure (.one .null)
      | some accs, none =>
        match accs with
        | [] => throw .missing
        | v :: _ => pure (.one v)
      | some accs, some merge =>
        if d.accumulatorNames.length = accs.length then merge (d.mergeEnv env st.folded accs)
        else throw (.arity d.accumulatorNames.length accs.length) := by
  unfold result.finish
  cases st.accs with
  | none => rfl
  | some accs =>
    cases d.merge with
    | none => rfl
    | some merge =>
      unfold Env.bindAll Env.setAll?
      by_cases haccs : d.accumulatorNames.length = accs.length
      · simp only [haccs, if_true, pure_bind]
        rfl
      · simp only [haccs, if_false]
        rfl

end RunFold

theorem passes_eq (table : TableRun) (env : Env) (position : Nat) (row : List Value) :
    table.passes env position row =
      match table.filter with
      | none => pure true
      | some filter =>
        if table.columns.length = row.length then
          filter (env.setPairs (table.columns.zip row)) >>= fun y =>
            match y.toBool with
            | .ok b => pure b
            | .error f =>
              throw (.filtering position f)
        else throw (.arity table.columns.length row.length) := by
  unfold TableRun.passes
  cases table.filter with
  | none => rfl
  | some filter =>
    unfold Env.bindAll Env.setAll?
    by_cases hlen : table.columns.length = row.length
    · dsimp only
      rewrite [if_pos hlen, if_pos hlen]
      rfl
    · simp only [hlen, if_false]
      rfl

/-- A fold of a table that was run to an array. -/
def runFoldRange (d : FoldDef Evaluation) (inits : List (Option Evaluation)) (folded : Nat)
    (table : TableRun) (env : Env) (rows cols : Int) (values : List Value) : Run Yield :=
  if cols ≠ table.columns.length then
    throw (.misuse (.columnCount cols table.columns.length))
  else if table.foldColumn < 0 ∨ cols ≤ table.foldColumn then
    throw (.misuse (.foldColumn (wrap (table.foldColumn + 1)) cols))
  else
    RunFold.start inits folded env >>= fun st =>
      runRows d table env st 1 ((rowsOf cols.toNat values.length values).take rows.toNat) >>=
        fun st => if (rowsOf cols.toNat values.length values).length < rows then
          throw (.filtering ((rowsOf cols.toNat values.length values).length + 1)
            (.outsideArray values.length))
          else st.result d env

theorem runFoldTable_eq (d : FoldDef Evaluation) (inits : List (Option Evaluation)) (folded : Nat)
    (table : TableRun) (source : Option Evaluation) (env : Env) :
    runFoldTable d inits folded table source env = runChild env source >>= fun
      | .one (.array rows cols values) => runFoldRange d inits folded table env rows cols values
      | y => throw (.notATable y.render) := by
  refine congrArg (runChild env source >>= ·) (funext fun y => ?_)
  cases y with
  | many vs => rfl
  | one v =>
    cases v with
    | array rows cols values =>
      dsimp only
      unfold runFoldRange
      by_cases hcols : cols ≠ table.columns.length
      · rewrite [if_pos hcols, if_pos hcols]
        rfl
      · by_cases hcolumn : table.foldColumn < 0 ∨ cols ≤ table.foldColumn
        · rewrite [if_neg hcols, if_neg hcols, if_pos hcolumn, if_pos hcolumn]
          rfl
        · rewrite [if_neg hcols, if_neg hcols, if_neg hcolumn, if_neg hcolumn]
          rfl
    | _ => rfl

/-! ## Calls -/

theorem evaluation_call {enter : Address → Expr → Evaluation} (fn : String)
    (args : Children) (t : DataType) : (Expr.call fn args t).evaluation ev enter =
      match ofName? fn with
      | some .ifElse => ev.ifForm (.call fn args t)
          (args.map (Option.map (evaluation ev enter)))
      | some .and => fun env => ev.boolForm (.call fn args t) fn false env
          (args.map (Option.map (evaluation ev enter)))
      | some .or => fun env => ev.boolForm (.call fn args t) fn true env
          (args.map (Option.map (evaluation ev enter)))
      | some .row => ev.positionForm (.call fn args t) fn (·.row) args
          (args.map (Option.map (evaluation ev enter)))
      | some .column => ev.positionForm (.call fn args t) fn (·.col) args
          (args.map (Option.map (evaluation ev enter)))
      | _ => ev.callForm (.call fn args t) fn
          (args.map (Option.map (evaluation ev enter))) := by
  rewrite [← evaluationAll_eq, Expr.evaluation.eq_def]
  rfl

end FormulaFold
