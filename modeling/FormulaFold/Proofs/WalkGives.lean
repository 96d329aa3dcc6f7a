import FormulaFold.Proofs.FoldGives
import FormulaFold.Proofs.Names
import Mathlib.Data.Option.Basic

/-! # What a walk gives

`NodeGives` says for each kind of node how what its walk gives depends on what the walks of its
parts give.  **Whatever a walk gives is given in one of these ways, under any contract that the
walks of its parts keep** (`holds_walk`), so that a property of all outcomes is proved by one
induction on the parts of a formula, with one case per kind of node.

The first use is the frame: **whatever a walk does, it leaves the bound names and the marked cells
as they were, forgets nothing and learns nothing of marked cells** (`frames_walk`).
-/
namespace FormulaFold

open Walk Walk.Contract

variable {C : Address → Outcome → Prop} {b : Bindings} {c : Case Expr} {e x : Expr}
  {R S : Giving} {o : Outcome} {p : String → Bool}

/-! ## Nodes -/

/-- What a call gives; the last argument says which form it has. -/
def CallGives (quiet : Prop) (site : Site) (R : Giving) (fn : String)
    (args : Children) (t : DataType) (o : Outcome) : Option Builtin → Prop
  | some .ifElse =>
    (∃ condition branches c, args = some condition :: branches ∧ R condition c ∧
      IfGives quiet site (.call fn args t) R c branches o) ∨
    ((∀ condition branches, args ≠ some condition :: branches) ∧
      ∃ os, Forall₂ (Child R) (trimmed args) os ∧
        Settles quiet site (.call fn args t) (site.engine.call Builtin.ifElse.name) os o)
  | some .and => ∃ r, Undecided site fn false R (trimmed args) r ∧ BoolGives fn t false r o
  | some .or => ∃ r, Undecided site fn true R (trimmed args) r ∧ BoolGives fn t true r o
  | some .index => IndexGives quiet site (.call fn args t) R args o
  | some .concatenate => ∃ os, Forall₂ (Child R) (trimmed args) os ∧
      o = site.concatenated (.call fn args t) fn t os ∧
      (quiet → os.all (·.isConstant) = true → site.kept? (.call fn args t)
        (site.engine.call Builtin.concatenate.name (Outcome.values os)) ≠ none)
  | some .row => PositionGives quiet site R fn (·.row) args t o
  | some .column => PositionGives quiet site R fn (·.col) args t o
  | _ => ∃ os, Forall₂ (Child R) (trimmed args) os ∧
      Settles quiet site (.call fn args t) (fun args => if site.engine.isVolatile fn then
        .error (.volatile fn) else site.engine.call fn args) os o

/-- What a child becomes in a rebuilt node: its outcome as a formula. -/
def Becomes (R : Giving) : Option Expr → Option Expr → Prop :=
  Option.Rel fun e e' => ∃ o, R e o ∧ e' = o.expr

/-- What a case becomes in a rebuilt switch. -/
def CaseBecomes (R : Giving) (c c' : Case Expr) : Prop :=
  c'.values = c.values ∧ Becomes R c.branch c'.branch

/-- What the walk of a node gives, where `R` says what the walks of its parts give and `C` what
cells give. -/
inductive NodeGives (quiet : Prop) (site : Site) (C : Address → Outcome → Prop)
    (R : Bindings → Giving) (b : Bindings) : Expr → Outcome → Prop
  | constant {v : Value} {t : DataType} :
      NodeGives quiet site C R b (.constant v t) (.constant v t)
  | operator {op : Op} {args : Children} {t : DataType} {os : List Outcome} {o : Outcome}
      (hos : Forall₂ (Child (R b)) (trimmed args) os)
      (ho : Settles quiet site (.operator op args t) op.compute os o) :
      NodeGives quiet site C R b (.operator op args t) o
  | call {fn : String} {args : Children} {t : DataType} {o : Outcome}
      (ho : CallGives quiet site (R b) fn args t o (ofName? fn)) :
      NodeGives quiet site C R b (.call fn args t) o
  | cell {a : Address} {o : Outcome} (ho : C a o) :
      NodeGives quiet site C R b (.cell a) o
  | range {rows cols : Int} {elements : Children} {os : List Outcome} {o : Outcome}
      (hos : Forall₂ (Child (R b)) (trimmed elements) os)
      (ho : Rebuilt (.range rows cols elements) os o) :
      NodeGives quiet site C R b (.range rows cols elements) o
  | letIn {name : String} {x y : Expr} {v r o : Outcome} (hv : R b x v)
      (hr : R (b.push name (if v.isConstant then some v else none)) y r)
      (ho : LetGives name v r o) :
      NodeGives quiet site C R b (.letIn name (some x) (some y)) o
  | letVar {name : String} {t : DataType} {o : Outcome} (ho : b.lookup name = .ok (some o)) :
      NodeGives quiet site C R b (.letVar name t) o
  | letVarLeft {name : String} {t : DataType} (ho : b.lookup name = .ok none) :
      NodeGives quiet site C R b (.letVar name t) (.residual (.letVar name t))
  | splice {elements : Children} {os : List Outcome} {o : Outcome}
      (hos : Forall₂ (Child (R b)) (trimmed elements) os) (ho : Rebuilt (.splice elements) os o) :
      NodeGives quiet site C R b (.splice elements) o
  | switch {x : Expr} {cases : List (Case Expr)} {otherwise : Option Expr} {t t' : DataType}
      {v : Value} {o : Outcome} (hx : R b x (.known v t'))
      (ho : Child (R b) (chosenBranch cases otherwise (v.toInt leastWord)) o) :
      NodeGives quiet site C R b (.switch (some x) cases otherwise t) o
  | switchLeft {x r : Expr} {cases cases' : List (Case Expr)} {otherwise otherwise' : Option Expr}
      {t : DataType} (hx : R b x (.residual r))
      (hcases : Forall₂ (CaseBecomes (R b)) cases cases')
      (hotherwise : Becomes (R b) otherwise otherwise')
      (hbranches : ∀ c ∈ cases, c.branch.isSome = true) :
      NodeGives quiet site C R b (.switch (some x) cases otherwise t)
        (.residual (.switch (some r) cases' otherwise' t))
  | switchCase {c c' : Case Expr} (hc : CaseBecomes (R b) c c') :
      NodeGives quiet site C R b (.switchCase c) (.residual (.switchCase c'))
  | fold {form : FoldForm} {d : FoldDef Expr} {seeds : List Expr} {folded : Nat}
      {elements : Children} {t : DataType} {os : List Outcome} {o : Outcome}
      (hos : Forall₂ (Child (R b)) elements os)
      (ho : ElementsGive R b d site.partialFolds (.fold form d seeds folded elements t)
        (d.start seeds) folded
        (fun st => .fold form d st.seeds st.folded ((st.held.flatten).map some) t) os o) :
      NodeGives quiet site C R b (.fold form d seeds folded elements t) o
  | reduce {d : FoldDef Expr} {seed : Option Expr} {folded : Nat}
      {elements : Children} {t : DataType} {os : List Outcome} {o : Outcome}
      (hos : Forall₂ (Child (R b)) elements os)
      (ho : ElementsGive R b d site.partialFolds (.reduce d seed folded elements t) [seed] folded
        (fun st => .reduce d st.seeds.head? st.folded ((st.held.flatten).map some) t) os o) :
      NodeGives quiet site C R b (.reduce d seed folded elements t) o
  | foldArray {d : FoldDef Expr} {array : Option Expr} {t : DataType} {a o : Outcome}
      (ha : Child (R b) array a) (ho : ArrayGives R b d (.foldArray d array t) d.inits a o) :
      NodeGives quiet site C R b (.foldArray d array t) o
  | foldVectors {d : FoldDef Expr} {seeds : List Expr} {folded : Nat}
      {vectors : Children} {t : DataType} {os : List Outcome} {o : Outcome}
      (hos : Forall₂ (Child (R b)) vectors os) (hne : os ≠ [])
      (hlen : os.length = d.elementNames.length)
      (ho : VectorsGive R b d site.partialFolds (.foldVectors d seeds folded vectors t)
        (d.start seeds) folded
        (fun st vectors => .foldVectors d st.seeds st.folded (vectors.map some) t) os o) :
      NodeGives quiet site C R b (.foldVectors d seeds folded vectors t) o
  | foldTable {d : FoldDef Expr} {seeds : List Expr} {folded : Nat}
      {columns : Option (List String)} {filter : Option Expr} {column : Int}
      {table : Option Expr} {t : DataType} {a o : Outcome} (ha : Child (R b) table a)
      (ho : TableGives R b d site.partialFolds
        (.foldTable d seeds folded columns filter column table t) (d.start seeds) folded
        (columns.getD []) filter column
        (fun st table => .foldTable d st.seeds st.folded columns filter column (some table) t)
        a o) :
      NodeGives quiet site C R b (.foldTable d seeds folded columns filter column table t) o
  | parentSection {s : Option String} {x : Expr} {r o : Outcome} (hr : R b x r)
      (ho : ParentGives (.parentSection s (some x)) r o) :
      NodeGives quiet site C R b (.parentSection s (some x)) o
  | subSection {s : Option String} {elements : Children} {os : List Outcome}
      {o : Outcome} (hos : Forall₂ (Child (R b)) (trimmed elements) os)
      (ho : Rebuilt (.subSection s elements) os o) :
      NodeGives quiet site C R b (.subSection s elements) o
  | count {static : Int} {args : Children} {o : Outcome}
      (ho : CountGives static args o) : NodeGives quiet site C R b (.count static args) o

theorem Becomes.imp {e e' : Option Expr} (hRS : ∀ x o, e = some x → R x o → S x o)
    (h : Becomes R e e') : Becomes S e e' := by
  cases h with
  | none => exact .none
  | some h =>
    obtain ⟨o, ho, rfl⟩ := h
    exact .some ⟨o, hRS _ o rfl ho, rfl⟩

theorem CaseBecomes.imp (hRS : ∀ x o, c.branch = some x → R x o → S x o)
    (h : CaseBecomes R c c') : CaseBecomes S c c' := ⟨h.1, h.2.imp hRS⟩

theorem forall₂_case_imp (hRS : ∀ x o, some x ∈ cs.map (·.branch) → R x o → S x o)
    (h : Forall₂ (CaseBecomes R) cs cs') : Forall₂ (CaseBecomes S) cs cs' := by
  induction h with
  | nil => exact .nil
  | cons hc _ ih =>
    refine .cons (hc.imp fun x o hx => hRS x o ?_) (ih fun x o hx => hRS x o ?_)
    · rw [map_cons, hx]
      exact mem_cons_self
    · exact mem_cons_of_mem _ hx

theorem mem_branches_of_chosenBranch (h : chosenBranch cs otherwise k = some x) :
    some x ∈ cs.map (·.branch) ∨ otherwise = some x := by
  unfold chosenBranch at h
  split at h
  · rename_i c hc
    exact .inl (h ▸ List.mem_map_of_mem (List.mem_of_find?_eq_some hc))
  · exact .inr h

/-! ## Rebuilt nodes -/

section Rebuilt

theorem becomes_keepMissing (h : Forall₂ (Child R) es os) :
    Forall₂ (Becomes R) es (keepMissing es os) := by
  induction h with
  | nil => exact .nil
  | @cons e o _ _ ho _ ih =>
    refine .cons ?_ ih
    cases e with
    | none => exact .none
    | some e => exact .some ⟨o, ho, rfl⟩

theorem keepMissing_append_missing (hlen : es.length = os.length) (n : Nat) :
    keepMissing (es ++ List.replicate n none) os =
      keepMissing es os ++ List.replicate n none := by
  induction es generalizing os with
  | nil =>
    obtain rfl := length_eq_zero_iff.mp hlen.symm
    simp only [nil_append, keepMissing]
    induction n with
    | zero => rfl
    | succ n ih => rw [List.replicate_succ, keepMissing, ih]
  | cons e es ih =>
    cases os with
    | nil => simp at hlen
    | cons o os =>
      simp only [cons_append, keepMissing]
      rw [ih (by simpa using hlen)]

theorem trimmed_keepMissing_nil (es : Children) : trimmed (keepMissing es []) = [] := by
  induction es with
  | nil => rfl
  | cons e es ih => rw [keepMissing, trimmed_none_cons, ih, if_pos rfl]

/-- Children that were left out at the end stay left out. -/
theorem becomes_keepMissing_trimmed (h : Forall₂ (Child R) (trimmed es) os) :
    Forall₂ (Becomes R) es (keepMissing es os) := by
  obtain ⟨n, hn⟩ := trimmed_append_missing es
  have hkeep := keepMissing_append_missing h.length_eq n
  rw [← hn] at hkeep
  have hmissing : Forall₂ (Becomes R) (List.replicate n none) (List.replicate n none) :=
    forall₂_same.mpr fun x hx => by
      rw [List.eq_of_mem_replicate hx]
      exact .none
  have hall : Forall₂ (Becomes R) (trimmed es ++ List.replicate n none)
      (keepMissing (trimmed es) os ++ List.replicate n none) :=
    rel_append (becomes_keepMissing h) hmissing
  rwa [← hn, ← hkeep] at hall

/-- The shape of a rebuilt range: a single row when the old shape does not fit. -/
def rangeShape (rows cols : Int) (length : Nat) : Int × Int :=
  if (length : Int) = wrap (rows * cols) then (rows, cols) else (1, length)

theorem withChildren_range (rows cols : Int) (es args : Children) :
    (Expr.range rows cols es).withChildren args =
      .ok (.range (rangeShape rows cols args.length).1 (rangeShape rows cols args.length).2
        args) := by
  simp only [Expr.withChildren, rangeShape]
  split <;> rfl

theorem rebuilt_range (h : Rebuilt (.range rows cols es) os o) :
    o = .residual (.range (rangeShape rows cols (keepMissing es os).length).1
      (rangeShape rows cols (keepMissing es os).length).2 (keepMissing es os)) := by
  obtain ⟨e, he, rfl⟩ := h
  have he : (Expr.range rows cols es).withChildren (keepMissing es os) = .ok e := he
  rw [withChildren_range] at he
  cases he
  rfl

theorem caseBecomes_of_rebuilt (hos : Forall₂ (Child R) (trimmed [c.branch]) os)
    (ho : Rebuilt (.switchCase c) os o) :
    ∃ c', CaseBecomes R c c' ∧ o = .residual (.switchCase c') := by
  obtain ⟨e, he, rfl⟩ := ho
  have hkept := becomes_keepMissing_trimmed hos
  simp only [Expr.children] at he
  generalize keepMissing [c.branch] os = kept at he hkept
  cases hkept with
  | @cons _ branch _ _ hbranch hnil =>
    cases hnil
    cases he
    exact ⟨⟨c.values, branch⟩, ⟨rfl, hbranch⟩, rfl⟩

/-- The cases of a rebuilt switch. -/
theorem casesOf_of_becomes
    (hcase : ∀ c ∈ cs, ∀ o, S (.switchCase c) o →
      ∃ c', CaseBecomes R c c' ∧ o = .residual (.switchCase c'))
    (h : Forall₂ (Becomes S) (cs.map fun c => some (.switchCase c)) args) :
    ∃ cs', Expr.casesOf args = .ok cs' ∧ Forall₂ (CaseBecomes R) cs cs' := by
  induction cs generalizing args with
  | nil =>
    cases h
    exact ⟨[], rfl, .nil⟩
  | cons c cs ih =>
    rw [forall_mem_cons] at hcase
    cases h with
    | cons hc hcs =>
      obtain ⟨o, ho, rfl⟩ := hc
      obtain ⟨c', hc', rfl⟩ := hcase.1 o ho
      obtain ⟨cs', hcs', hall⟩ := ih hcase.2 hcs
      refine ⟨c' :: cs', ?_, .cons hc' hall⟩
      simp only [Outcome.expr, Expr.casesOf, hcs']
      rfl

/-- A rebuilt switch; `S` says what its cases give where they are nodes of their own. -/
theorem switch_of_becomes (hcase : ∀ c ∈ cs, ∀ o, S (.switchCase c) o →
      ∃ c', CaseBecomes R c c' ∧ o = .residual (.switchCase c'))
    (hotherwise : ∀ y o, otherwise = some y → S y o → R y o)
    (hos : Forall₂ (Child S)
      (trimmed (cs.map (fun c => some (.switchCase c)) ++ [otherwise])) os)
    (ho : Rebuilt (.switch (some x) cs otherwise t) (.residual r :: os) o) :
    ∃ cs' otherwise', Forall₂ (CaseBecomes R) cs cs' ∧ Becomes R otherwise otherwise' ∧
      o = .residual (.switch (some r) cs' otherwise' t) := by
  obtain ⟨e, he, rfl⟩ := ho
  have hkept := becomes_keepMissing_trimmed hos
  simp only [Expr.children, keepMissing, map_some, Outcome.expr] at he
  generalize keepMissing (cs.map (fun c => some (.switchCase c)) ++ [otherwise]) os = kept
    at he hkept
  obtain ⟨us, vs, rfl, hus, hvs⟩ := forall₂_append_left hkept
  cases hvs with
  | @cons _ o' _ _ ho' hnil =>
    cases hnil
    obtain ⟨cs', hcs', hall⟩ := casesOf_of_becomes hcase hus
    refine ⟨cs', o', hall, ho'.imp hotherwise, ?_⟩
    have hwith (args : Children) (hne : args ≠ []) :
        (Expr.switch (some x) cs otherwise t).withChildren (some r :: args) =
          (Expr.casesOf args.dropLast).map fun cs => .switch (some r) cs
            (args.getLastD none) t := by
      cases args with
      | nil => exact absurd rfl hne
      | cons second rest =>
        simp only [Expr.withChildren]
        cases Expr.casesOf (second :: rest).dropLast <;> rfl
    rw [hwith _ (by simp), List.dropLast_concat, hcs'] at he
    cases he
    simp [ofExpr]

end Rebuilt

/-! ## Walks -/

/-- The formulas of a fold definition that are walked under the names around the fold. -/
def FoldDef.outerParts (d : FoldDef Expr) : List Expr := present d.inits ++ d.whenEmpty.toList

/-- The parts of a formula that are walked under the names around it. -/
def Expr.outerParts : Expr → List Expr
  | .letIn _ value _ => value.toList
  | .count .. => []
  | .fold _ d seeds _ elements _ | .foldVectors d seeds _ elements _ =>
    d.outerParts ++ (seeds ++ present elements)
  | .reduce d seed _ elements _ => d.outerParts ++ (seed.toList ++ present elements)
  | .foldArray d array _ => d.outerParts ++ array.toList
  | .foldTable d seeds _ _ _ _ table _ => d.outerParts ++ (seeds ++ table.toList)
  | e => e.parts

/-- The definition of a fold, and the columns that its steps see. -/
def Expr.definition? : Expr → Option (FoldDef Expr × List String)
  | .fold _ d .. | .reduce d .. | .foldArray d .. | .foldVectors d .. => some (d, [])
  | .foldTable d _ _ columns .. => some (d, columns.getD [])
  | _ => none

/-- The formulas that the walk of `e` under the names `b` may walk next, and the names for them. -/
inductive Expr.Walks (b : Bindings) (e : Expr) : Bindings → Expr → Prop
  | outer {x : Expr} (hx : x ∈ e.outerParts) : e.Walks b b x
  | element {fn : String} {rows cols : Int} {elements args : Children} {t : DataType}
      {x : Expr} (he : e = .call fn (some (.range rows cols elements) :: args) t)
      (hx : some x ∈ elements) : e.Walks b b x
  | body {name : String} {value : Option Expr} {x : Expr} (o : Option Outcome)
      (he : e = .letIn name value (some x)) : e.Walks b (b.push name o) x
  | step {d : FoldDef Expr} {columns : List String} {x : Expr} (pairs : Pairs)
      (he : e.definition? = some (d, columns)) (hx : x ∈ d.steps)
      (hpairs : pairs.map (·.1) = d.stepNames columns) : e.Walks b (b.pushAll pairs) x
  | merge {d : FoldDef Expr} {columns : List String} {x : Expr} (pairs : Pairs)
      (he : e.definition? = some (d, columns)) (hx : d.merge = some x)
      (hpairs : pairs.map (·.1) = d.mergeNames) : e.Walks b (b.pushAll pairs) x
  | filter {d : FoldDef Expr} {seeds : List Expr} {folded : Nat} {columns : Option (List String)}
      {x : Expr} {column : Int} {table : Option Expr} {t : DataType}
      (pairs : Pairs)
      (he : e = .foldTable d seeds folded columns (some x) column table t)
      (hpairs : pairs.map (·.1) = columns.getD []) : e.Walks b (b.pushAll pairs) x

theorem Expr.mem_parts_of_definition? (he : e.definition? = some (d, columns)) (hx : x ∈ d.parts) :
    x ∈ e.parts := by
  cases e <;> cases he <;> simp [parts, hx]

theorem Expr.Walks.inside (h : e.Walks b b' x) : x.Inside e := by
  cases h with
  | outer hx =>
    refine .part ?_
    cases e <;>
      simp only [Expr.outerParts, FoldDef.outerParts, parts, FoldDef.parts, mem_append,
        not_mem_nil] at hx ⊢ <;> tauto
  | @element _ rows cols elements _ _ _ he hx =>
    have hrange : x.Inside (.range rows cols elements) := .part (by simpa [parts] using hx)
    exact hrange.trans (he ▸ .part (by simp [parts]))
  | body _ he => exact he ▸ .part (by simp [parts])
  | step _ he hx => exact .part (mem_parts_of_definition? he (by simp [FoldDef.parts, hx]))
  | merge _ he hx => exact .part (mem_parts_of_definition? he (by simp [FoldDef.parts, hx]))
  | filter _ he => exact he ▸ .part (by simp [parts])

section Walk

variable {E : Memo → Prop} {bound : Prop} {site : Site} {enter : Address → Expr → Action} {A : Prop}

theorem resume_eq (site : Site) (w : Expr → Action) (node : Expr) (d : FoldDef Expr)
    (seeds : List Expr) :
    FoldPlan.resume site node (d.map w) (seeds.map w) = planOf w site node d (d.start seeds) := by
  rw [FoldPlan.resume, FoldDef.map_start]
  rfl

variable {J : Contract site.book E bound} {R : Bindings → Giving}

theorem holds_walk_call {fn : String} {args : Children} {t : DataType}
    (hargs : ∀ x, some x ∈ args → J.Holds True b (x.walk site enter) (R b x))
    (helements : ∀ r, indexRange? args = some r → ∀ x, some x ∈ r.2.2 →
      J.Holds True b (x.walk site enter) (R b x)) :
    J.Holds A b ((Expr.call fn args t).walk site enter) fun o =>
      CallGives J.quiet site (R b) fn args t o (ofName? fn) := by
  rw [walk_call]
  dsimp only
  generalize ofName? fn = f
  rcases f with _ | f
  · exact holds_callForm hargs
  cases f
  case ifElse =>
    by_cases hcond : ∃ c rest, args = some c :: rest
    · obtain ⟨c, rest, rfl⟩ := hcond
      dsimp only
      rw [map_cons, map_some, ifForm_some_cons]
      exact (hargs c mem_cons_self).any.bind fun v =>
        (holds_ifRest fun x hx => hargs x (mem_cons_of_mem _ hx)).imp
          fun o h ho => .inl ⟨c, rest, v, rfl, h.2, ho⟩
    · have hcond (c : Expr) (rest : Children) : args ≠ some c :: rest :=
        fun heq => hcond ⟨c, rest, heq⟩
      have heq : ifForm site (.call fn args t) (args.map (Option.map (walk site enter))) =
          site.generic (.call fn args t) (site.engine.call Builtin.ifElse.name) []
            (trimmed (args.map (Option.map (walk site enter)))) := by
        rcases args with _ | ⟨_ | c, rest⟩
        · rfl
        · rfl
        · exact absurd rfl (hcond c rest)
      dsimp only
      rw [heq]
      exact (holds_computed hargs).imp fun o _ ho => .inr ⟨hcond, ho⟩
  case and | or => exact holds_boolForm hargs
  case index => exact holds_indexForm hargs helements
  case concatenate => exact holds_concatForm hargs
  case row | column => exact holds_positionForm hargs
  all_goals exact holds_callForm hargs

/-- A case without a branch is not walked. -/
theorem holds_walk_case (hc : ∀ x, c.branch = some x → J.Holds True b (x.walk site enter) (R b x)) :
    J.Holds A b ((Expr.switchCase c).walk site enter) fun o => c.branch.isSome = true ∧
      ∃ c', CaseBecomes (R b) c c' ∧ o = .residual (.switchCase c') := by
  obtain ⟨values, branch⟩ := c
  rw [walk, walkCase_eq]
  cases branch with
  | none => exact holds_raise rfl
  | some x =>
    rw [Case.map_branch, ← List.map_singleton]
    refine (holds_rebuildForm fun y hy => hc y (mem_singleton.mp hy).symm).imp
      fun o _ h => h.elim fun os h => ⟨rfl, caseBecomes_of_rebuilt h.1 h.2⟩

theorem holds_walk_switch {selector : Option Expr} {cases : List (Case Expr)}
    (hselector : ∀ x, selector = some x → J.Holds True b (x.walk site enter) (R b x))
    (hcases : ∀ c ∈ cases, ∀ x, c.branch = some x → J.Holds True b (x.walk site enter) (R b x))
    (hotherwise : ∀ x, otherwise = some x → J.Holds True b (x.walk site enter) (R b x)) :
    J.Holds A b ((Expr.switch selector cases otherwise t).walk site enter)
      (NodeGives J.quiet site C R b (.switch selector cases otherwise t)) := by
  rw [walk, walkOption_eq, walkOption_eq, walkCases_eq, walkCaseNodes_eq]
  have hacts : (selector.map (walk site enter) ::
      (cases.map (fun c => some ((Expr.switchCase c).walk site enter)) ++
        [otherwise.map (walk site enter)])) =
      (selector :: (cases.map (fun c => some (.switchCase c)) ++ [otherwise])).map
        (Option.map (walk site enter)) := by
    simp [Function.comp_def]
  rw [hacts]
  -- A node may be a case and the default at once: what is known of either is known of it.
  let S (x : Expr) (o : Outcome) : Prop := (otherwise = some x → R b x o) ∧
    ∀ c ∈ cases, x = .switchCase c → c.branch.isSome = true ∧
      ∃ c', CaseBecomes (R b) c c' ∧ o = .residual (.switchCase c')
  have hnodes (x : Expr) (hx : some x ∈ cases.map (fun c => some (.switchCase c)) ++ [otherwise]) :
      J.Holds True b (x.walk site enter) (S x) := by
    have hcase (c : Case Expr) (hc : c ∈ cases) (hx : x = .switchCase c) :
        J.Holds True b (x.walk site enter) fun o => ∀ c' ∈ cases, x = .switchCase c' →
          c'.branch.isSome = true ∧ ∃ c'', CaseBecomes (R b) c' c'' ∧
            o = .residual (.switchCase c'') := by
      subst hx
      refine (holds_walk_case (hcases c hc)).imp fun o _ ho => ?_
      rintro _ _ ⟨⟩
      exact ho
    by_cases hother : otherwise = some x
    · have hholds := hotherwise x hother
      by_cases hc : ∃ c ∈ cases, x = .switchCase c
      · obtain ⟨c, hc, hx⟩ := hc
        exact (hholds.and (hcase c hc hx)).imp fun o _ ho => ⟨fun _ => ho.1, ho.2⟩
      · exact hholds.imp fun o _ ho => ⟨fun _ => ho, fun c hmem hx => absurd ⟨c, hmem, hx⟩ hc⟩
    · rcases mem_append.mp hx with hx | hx
      · obtain ⟨c, hc, hx⟩ := mem_map.mp hx
        exact (hcase c hc (Option.some.inj hx).symm).imp fun o _ ho => ⟨(absurd · hother), ho⟩
      · exact absurd (mem_singleton.mp hx).symm hother
  refine (holds_switchForm (S := S) hselector (fun k x hx => ?_) hnodes).imp ?_
  · rcases mem_branches_of_chosenBranch hx with hx | hx
    · obtain ⟨c, hc, hx⟩ := mem_map.mp hx
      exact hcases c hc x hx
    · exact hotherwise x hx
  · rintro o _ ⟨x, s, rfl, hs, ho⟩
    cases ho with
    | chosen ho => exact .switch hs ho
    | left hos ho =>
      obtain ⟨cases', otherwise', hcases', hotherwise', rfl⟩ :=
        switch_of_becomes (R := R b) (fun c hc o ho => (ho.2 c hc rfl).2) (fun y o hy ho => ho.1 hy)
          hos ho
      refine .switchLeft hs hcases' hotherwise' fun c hc => ?_
      have hmem : some (Expr.switchCase c) ∈
          trimmed (cases.map (fun c => some (.switchCase c)) ++ [otherwise]) :=
        mem_trimmed_of_some_mem (List.mem_append_left _ (mem_map.mpr ⟨c, hc, rfl⟩))
      obtain ⟨o, _, ho⟩ := exists_of_forall₂_of_mem hos.flip hmem
      exact (ho.2 c hc rfl).1

/-- **Whatever a walk gives depends on what the walks of its parts give**, as `NodeGives`
says. -/
theorem holds_walk {C : Address → Outcome → Prop} {e : Expr}
    (hw : ∀ b' x, e.Walks b b' x → J.Holds True b' (x.walk site enter) (R b' x))
    (hcell : ∀ a, e = .cell a → J.Holds True b (cellForm site enter a) (C a))
    (hname : bound → ∀ name t, e = .letVar name t → ∃ o, b.lookup name = .ok o) :
    J.Holds True b (e.walk site enter) (NodeGives J.quiet site C R b e) := by
  have houter (x : Expr) (hx : x ∈ e.outerParts) : J.Holds True b (x.walk site enter) (R b x) :=
    hw b x (.outer hx)
  have hfold (d : FoldDef Expr) (columns : List String) (inits : Children)
      (he : e.definition? = some (d, columns)) (hinits : ∀ x, some x ∈ inits → x ∈ e.outerParts)
      (hempty : ∀ x, d.whenEmpty = some x → x ∈ e.outerParts) :
      J.Folds (walk site enter) R b d inits columns :=
    ⟨fun x hx => houter x (hinits x hx),
      fun x hx pairs hpairs => hw _ x (.step pairs he hx hpairs),
      fun x hx pairs hpairs => hw _ x (.merge pairs he hx hpairs),
      fun x hx => houter x (hempty x hx)⟩
  have hresume (d : FoldDef Expr) (columns : List String) (seeds : List Expr)
      (he : e.definition? = some (d, columns))
      (hparts : ∀ x, x ∈ d.outerParts ∨ x ∈ seeds → x ∈ e.outerParts) :
      J.Folds (walk site enter) R b d (d.start seeds) columns := by
    refine hfold d columns _ he (fun x hx => hparts x ?_) fun x hx => hparts x (.inl ?_)
    · exact (FoldDef.mem_start d hx).imp_left fun h => by simp [FoldDef.outerParts, h]
    · simp [FoldDef.outerParts, hx]
  cases e with
  | constant v t =>
    rw [walk]
    exact holds_pure fun _ => .constant
  | operator op args t =>
    rw [walk, walkAll_eq]
    refine (holds_computed fun x hx => houter x ?_).imp fun o _ h => h.elim fun os h =>
      .operator h.1 h.2
    simpa [Expr.outerParts, parts] using hx
  | call fn args t =>
    refine (holds_walk_call (fun x hx => houter x ?_) fun r hr x hx => ?_).imp
      fun o _ ho => .call ho
    · simpa [Expr.outerParts, parts] using hx
    · obtain ⟨rest, rfl⟩ := indexRange?_eq_some hr
      exact hw b x (.element rfl hx)
  | cell a =>
    rw [walk]
    exact (hcell a rfl).imp fun o _ ho => .cell ho
  | range rows cols elements =>
    rw [walk, walkAll_eq]
    refine (holds_rebuildForm fun x hx => houter x ?_).imp fun o _ h => h.elim fun os h =>
      .range h.1 h.2
    simpa [Expr.outerParts, parts] using hx
  | letIn name value body =>
    rw [walk, walkOption_eq, walkOption_eq]
    refine (holds_letForm (fun x hx => houter x ?_) fun y o hy => ?_).imp ?_
    · simp [Expr.outerParts, hx]
    · exact hw _ y (.body o (by rw [hy]))
    · rintro o _ ⟨x, y, v, r, rfl, rfl, hv, hr, ho⟩
      exact .letIn hv hr ho
  | letVar name t =>
    rw [walk]
    refine (holds_nameForm fun hb => hname hb name t rfl).imp ?_
    rintro o _ (ho | ⟨ho, rfl⟩)
    · exact .letVar ho
    · exact .letVarLeft ho
  | splice elements =>
    rw [walk, walkAll_eq]
    refine (holds_rebuildForm fun x hx => houter x ?_).imp fun o _ h => h.elim fun os h =>
      .splice h.1 h.2
    simpa [Expr.outerParts, parts] using hx
  | switch selector cases otherwise t =>
    refine holds_walk_switch (fun x hx => houter x ?_) (fun c hc x hx => houter x ?_)
      fun x hx => houter x ?_
    · simp [Expr.outerParts, parts, hx]
    · simp only [Expr.outerParts, parts, mem_append, mem_present]
      exact .inl (.inr (mem_map.mpr ⟨c, hc, hx⟩))
    · simp [Expr.outerParts, parts, hx]
  | switchCase c =>
    refine (holds_walk_case fun x hx => houter x ?_).imp ?_
    · simp [Expr.outerParts, parts, hx]
    · rintro o _ ⟨_, c', hc', rfl⟩
      exact .switchCase hc'
  | fold form d seeds folded elements t =>
    rw [walk, walkDef_eq, walkSeeds_eq, walkAll_eq, resume_eq]
    refine (holds_foldElements (hresume d [] seeds rfl ?_) fun x hx => houter x ?_).imp
      fun o _ h => h.elim fun os h => .fold h.1 h.2
    · simp +contextual [Expr.outerParts, or_imp]
    · simp [Expr.outerParts, hx]
  | reduce d seed folded elements t =>
    rw [walk, walkDef_eq, walkOption_eq, walkAll_eq]
    refine (holds_foldElements (hfold d [] [seed] rfl (fun x hx => ?_) fun x hx => ?_)
      fun x hx => houter x ?_).imp fun o _ h => h.elim fun os h => .reduce h.1 h.2
    · simp [Expr.outerParts, ← mem_singleton.mp hx]
    · simp [Expr.outerParts, FoldDef.outerParts, hx]
    · simp [Expr.outerParts, hx]
  | foldArray d array t =>
    rw [walk, walkDef_eq, walkOption_eq]
    have hplan := resume_eq site (walk site enter) (.foldArray d array t) d []
    rw [map_nil] at hplan
    rw [hplan]
    refine (holds_foldArrayForm (hresume d [] [] rfl ?_) fun x hx => houter x ?_).imp
      fun o _ h => h.elim fun a h => .foldArray h.1 h.2
    · simp +contextual [Expr.outerParts]
    · simp [Expr.outerParts, hx]
  | foldVectors d seeds folded vectors t =>
    rw [walk, walkDef_eq, walkSeeds_eq, walkAll_eq, resume_eq]
    refine (holds_foldVectorsForm (hresume d [] seeds rfl ?_) fun x hx => houter x ?_).imp
      fun o _ h => h.elim fun os h => .foldVectors h.1 h.2.1 h.2.2.1 h.2.2.2
    · simp +contextual [Expr.outerParts, or_imp]
    · simp [Expr.outerParts, hx]
  | foldTable d seeds folded columns filter column table t =>
    rw [walk, walkDef_eq, walkSeeds_eq, walkOption_eq, walkOption_eq, resume_eq]
    refine (holds_foldTableForm (fun x hx pairs hpairs => ?_) (hresume d _ seeds rfl ?_)
      fun x hx => houter x ?_).imp fun o _ h => h.elim fun a h => .foldTable h.1 h.2
    · exact hw _ x (.filter pairs (by rw [hx]) hpairs)
    · simp +contextual [Expr.outerParts, or_imp]
    · simp [Expr.outerParts, hx]
  | parentSection s inner =>
    rw [walk, walkOption_eq]
    refine (holds_parentForm fun x hx => houter x ?_).imp ?_
    · simp [Expr.outerParts, parts, hx]
    · rintro o _ ⟨x, r, rfl, hr, ho⟩
      exact .parentSection hr ho
  | subSection s elements =>
    rw [walk, walkAll_eq]
    refine (holds_rebuildForm fun x hx => houter x ?_).imp fun o _ h => h.elim fun os h =>
      .subSection h.1 h.2
    simpa [Expr.outerParts, parts] using hx
  | count static args =>
    rw [walk]
    exact holds_countForm.imp fun o _ ho => .count ho

end Walk

/-! ## The frame of a walk -/

namespace Bindings

/-- Whether a name is bound, be it as undefined. -/
def isBound (b : Bindings) (name : String) : Bool := b.entries.any (·.name = name)

theorem exists_lookup {name : String} (h : b.isBound name = true) : ∃ o, b.lookup name = .ok o := by
  unfold lookup
  cases hfind : b.entries.find? (·.name = name) with
  | some entry => exact ⟨entry.outcome, rfl⟩
  | none =>
    simp only [isBound, List.any_eq_true] at h
    obtain ⟨entry, hentry, hname⟩ := h
    exact absurd hname (by simpa using List.find?_eq_none.mp hfind entry hentry)

@[simp] theorem isBound_push (b : Bindings) (name : String) (o : Option Outcome) (x : String) :
    (b.push name o).isBound x = (name = x || b.isBound x) := by
  simp [isBound, push]

theorem isBound_pushAll (b : Bindings) (pairs : Pairs) (x : String) :
    (b.pushAll pairs).isBound x = binds (pairs.map (·.1)) b.isBound x := by
  induction pairs generalizing b with
  | nil => simp [pushAll, binds]
  | cons pair rest ih =>
    obtain ⟨name, o⟩ := pair
    unfold pushAll
    rw [map_cons]
    by_cases hname : name = ""
    · rw [if_pos hname, ih]
      by_cases hx : x = ""
      · simp [binds, hx]
      · simp [binds, hname, hx, beq_eq_false_iff_ne.mpr hx]
    · rw [if_neg hname, ih]
      by_cases hx : x = name
      · simp [binds, hx, hname]
      · simp [binds, Ne.symm hx, beq_eq_false_iff_ne.mpr hx]

end Bindings

theorem isScoped_of_definition? (he : e.definition? = some (d, columns))
    (h : e.isScoped false p = true) : d.Scoped false p columns := by
  cases e <;> cases he <;> simp only [Expr.isScoped, and_eq_true, defScoped_iff] at h <;>
    tauto

theorem isScoped_of_mem_outerParts (hx : x ∈ e.outerParts) (he : e.isScoped false p = true) :
    x.isScoped false p = true := by
  have hdef {d : FoldDef Expr} {columns : List String} (hd : d.Scoped false p columns)
      (hx : some x ∈ d.inits ∨ d.whenEmpty = some x) : x.isScoped false p = true :=
    hx.elim (hd.inits x) (hd.whenEmpty x)
  cases e
  case constant | cell | letVar | count => cases hx
  all_goals
    simp only [Expr.outerParts, FoldDef.outerParts, parts, mem_append, mem_present,
      mem_toList] at hx
    simp only [Expr.isScoped, and_eq_true, allScoped_iff, optionScoped_iff, seedsScoped_iff,
      defScoped_iff, casesScoped_iff, caseScoped_iff] at he
  case letIn => exact he.1 x hx
  case switch =>
    rcases hx with (hx | hx) | hx
    · exact he.1.1 x hx
    · obtain ⟨c, hc, hx⟩ := mem_map.mp hx
      exact he.1.2 c hc x hx
    · exact he.2 x hx
  case foldArray => exact hx.elim (hdef he.1) (he.2 x)
  case foldTable => exact hx.elim (hdef he.1.1.1) fun hx => hx.elim (he.1.1.2 x) (he.2 x)
  case fold | reduce | foldVectors =>
    exact hx.elim (hdef he.1.1) fun hx => hx.elim (he.1.2 x) (he.2 x)
  all_goals exact he x hx

/-- The names of the next formulas are bound if those of the formula are. -/
theorem Expr.Walks.isScoped (hx : e.Walks b b' x) (he : e.isScoped false b.isBound = true) :
    x.isScoped false b'.isBound = true := by
  have hpushed (pairs : Pairs) (names : List String)
      (hpairs : pairs.map (·.1) = names) (h : x.isScoped false (binds names b.isBound) = true) :
      x.isScoped false (b.pushAll pairs).isBound = true := by
    rw [funext (b.isBound_pushAll pairs), hpairs]
    exact h
  cases hx with
  | outer hx => exact isScoped_of_mem_outerParts hx he
  | element he' hx =>
    subst he'
    simp only [Expr.isScoped, allScoped_iff] at he
    exact allScoped_iff.mp (he _ mem_cons_self) x hx
  | body o he' =>
    subst he'
    simp only [Expr.isScoped, and_eq_true, optionScoped_iff] at he
    refine Expr.isScoped_imp id x _ _ (fun y hy => ?_) (he.2 x rfl)
    rw [Bindings.isBound_push]
    rcases binds_iff.mp hy with ⟨_, hy⟩ | hy
    · simp [mem_singleton.mp hy]
    · simp [hy]
  | step pairs hd hx hpairs =>
    exact hpushed pairs _ hpairs ((isScoped_of_definition? hd he).steps x hx)
  | merge pairs hd hx hpairs =>
    exact hpushed pairs _ hpairs ((isScoped_of_definition? hd he).merge x hx)
  | filter pairs he' hpairs =>
    subst he'
    simp only [Expr.isScoped, and_eq_true, optionScoped_iff] at he
    exact hpushed pairs _ hpairs (he.1.2 x rfl)

/-- **The frame of a walk.** -/
theorem frames_walk {E : Memo → Prop} {bound : Prop}
    {enter : Address → Expr → Action} (hE : Earns E site enter)
    (henter : ∀ a f, (site.book.get a).formula = some f →
      Frames site.book E bound .empty (enter a f)) (e : Expr) :
    ∀ b : Bindings, (bound → e.isScoped false b.isBound = true) →
      Frames site.book E bound b (e.walk site enter) := by
  induction e using induction_on_parts with
  | step e ih =>
  intro b hs
  refine (holds_walk (J := framing site.book E bound False) (R := fun _ _ _ => True)
    (C := fun _ _ => True) (fun b' x hx => holds_framing ?_)
    (fun a _ => holds_framing (frames_cellForm hE (henter a))) fun hb name t he => ?_).frames
  · exact ih x hx.inside b' fun hb => hx.isScoped (hs hb)
  · subst he
    exact Bindings.exists_lookup (hs hb)

end FormulaFold
