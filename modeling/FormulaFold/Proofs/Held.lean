import FormulaFold.Proofs.Commuting
import FormulaFold.Proofs.PartialFolds
import FormulaFold.Proofs.RestingFolds

/-! # What a fold done in part holds

A fold goes through its elements one by one and folds, drops or holds each of them.  So what it
leaves to the run is what it held: elements in their order, among them all that are not known, and
as many less as were folded or dropped (`exists_remainder_of_folds`).  **A fold done in part loses,
repeats and moves no element** (`remainder_of_optimize`).

That an outcome is such a fold can be seen from it: the formulas of a definition do not contain the
definition itself, so nothing else that the fold comes to has its definition.
-/
namespace FormulaFold

open Walk Walk.Contract

variable {b : Bindings} {R : Bindings → Giving} {s s' : WalkState}

theorem exists_of_passGives {filter : Option Expr} {pass : Option Bool}
    (h : PassGives R b columns filter row pass) (hpass : pass = some false) :
    ∃ p o, filter = some p ∧ o.truth? = some false ∧ R (b.pushAll (columns.zip row)) p o := by
  cases h with
  | all => cases hpass
  | tested hp ho => exact ⟨_, _, hp, hpass, ho⟩

/-! ## Folds with a definition of their own -/

namespace FoldDef

variable {d : FoldDef Expr}

/-- No fold in the formula has the definition `d`. -/
def AbsentIn (d : FoldDef Expr) (e : Expr) : Prop := e.Labelled {l | l.d ≠ d}

theorem absentIn_of_mem_parts {p : Expr} (hp : p ∈ d.parts) : d.AbsentIn p := by
  rintro x hx l hl rfl
  have hpart : p ∈ x.parts := by
    cases x <;> cases hl <;> simp [Expr.parts, hp]
  have hlt := (Expr.Inside.part hpart).sizeOf_lt
  rcases Relation.reflTransGen_iff_eq_or_transGen.mp hx with rfl | hx
  · exact Nat.lt_irrefl _ hlt
  · exact Nat.lt_asymm hlt (Expr.Inside.sizeOf_lt hx)

theorem lasting_absentIn (partialFolds : Bool) (d : FoldDef Expr) :
    Lasting partialFolds d.AbsentIn :=
  lasting_labelled fun _ _ hl _ heq h => hl (heq.symm.trans h)

theorem carries_absentIn (hR : ∀ b x o, R b x o → Lasting.LastsIn d.AbsentIn b x o)
    (hb : b.Constant) (inits : Children) :
    d.Carries R b inits (fun o => o.isConstant = true) (fun _ => True)
      fun o => d.AbsentIn o.expr where
  accumulates := accumulates_isConstant
  inits _ _ _ _ hconst := hconst
  known _ _ := isConstant_of_isKnown
  blank := (lasting_absentIn true d).constant _ _
  first _ := (lasting_absentIn true d).of_isConstant
  whenEmpty e _ he ho := hR _ _ _ ho hb (absentIn_of_mem_parts (by simp [FoldDef.parts, he]))
  merge _ e _ _ hpairs he ho :=
    hR _ _ _ ho (hb.pushAll hpairs) (absentIn_of_mem_parts (by simp [FoldDef.parts, he]))

end FoldDef

/-! ## Folds done in part -/

/-- The elements of a fold that was done in part, with the outcomes of the elements that it had. -/
def LeftOfElements (d : FoldDef Expr) (os : List Outcome) (folded folded' : Nat)
    (es : Children) : Prop :=
  ∃ held : List Outcome, es = held.map (fun o => some o.expr) ∧
    held.length < (flattenOutcomes os).length ∧
    Remainder Outcome.isKnown d.orderSensitive (flattenOutcomes os) held [] folded folded'

/-- The rows of a table that is written out. -/
def writtenRows (rows cols : Int) (elements : Children) : List (List Outcome) :=
  (rowsOf cols.toNat elements.length (elements.map ofChild)).take rows.toNat

/-- The table of a fold that was done in part, with the outcome of the table that it had.  Rows of
which `Rejects` holds were filtered out. -/
def LeftOfTable (Rejects : List Outcome → Prop) (d : FoldDef Expr) (a : Outcome)
    (folded folded' : Nat) (table : Expr) : Prop :=
  ∃ (rows cols : Int) (elements : Children) (held dropped : List (List Outcome)),
    a = .residual (.range rows cols elements) ∧
    table = .range held.length cols (held.flatten.map fun o => some o.expr) ∧
    rows = (writtenRows rows cols elements).length ∧
    held.length < (writtenRows rows cols elements).length ∧
    Remainder (fun row => row.all (·.isKnown)) d.orderSensitive (writtenRows rows cols elements)
      held dropped folded folded' ∧
    ∀ row ∈ dropped, Rejects row

section Gives

variable {e : Expr} (hR : ∀ b x o, R b x o → Lasting.LastsIn d.AbsentIn b x o) (hb : b.Constant)
  (he : e.label? = some l) (hl : l.d = d)
include hR hb he hl

/-- The value of a fold is no fold with its definition. -/
theorem not_resultGives {st : FoldState}
    (hst : st.All (fun o => o.isConstant = true) fun _ => True) :
    ¬ResultGives R b d st (.residual e) := fun h =>
  (FoldDef.carries_absentIn hR hb []).result hst h e .refl l he hl

theorem leftOfElements_of_elementsGive {rebuild : FoldState → Expr}
    (h : ElementsGive R b d partialFolds node inits folded rebuild os (.residual e)) :
    Rebuilt node os (.residual e) ∨ ∃ st, .residual e = ofExpr (rebuild st) ∧
      LeftOfElements d os folded st.folded (st.held.flatten.map some) := by
  have hcarries := FoldDef.carries_absentIn hR hb inits
  generalize ho : Outcome.residual e = o at h ⊢
  cases h with
  | notStarted _ ho => exact .inl ho
  | @folded st st' _ hstart htuples h =>
    obtain ⟨accs, rfl⟩ := exists_start_of_startGives hstart rfl
    have hst : st'.All (fun o => o.isConstant = true) fun _ => True :=
      hcarries.accumulates.tuples (fun _ _ _ _ => isConstant_of_isKnown) (fun _ _ _ _ => trivial)
        (hcarries.start hstart) htuples
    have hhandles (st : FoldState) (o : Outcome) (st' : FoldState)
        (h : TupleGives R b d st [o] st') :
        st.Handles (fun o => [o.expr]) Outcome.isKnown d.orderSensitive (fun _ => False) o st' :=
      handles_of_itemGives (by rfl) (by simp) (by simp) h
    obtain ⟨held, dropped, hleft, hdrops, hheld, _, hless⟩ :=
      exists_remainder_of_folds hhandles (folds_map.mp htuples)
    cases h with
    | result _ h => exact absurd (ho ▸ h) (not_resultGives hR hb he hl hst)
    | whole _ _ h => exact .inl h
    | rebuilt _ hprogress =>
      obtain rfl : dropped = [] := List.eq_nil_iff_forall_not_mem.mpr hdrops
      refine .inr ⟨st', rfl, held, ?_, hless rfl (by simp_all), hleft⟩
      rw [hheld, FoldState.start, nil_append, ← List.flatMap_def, ← List.map_eq_flatMap,
        map_map]
      rfl

theorem leftOfTable_of_tableGives {columns : List String} {filter : Option Expr} {column : Int}
    {rebuild : FoldState → Expr → Expr} {a : Outcome}
    (h : TableGives R b d partialFolds node inits folded columns filter column rebuild a
      (.residual e)) :
    Rebuilt node [a] (.residual e) ∨ ∃ st table, .residual e = ofExpr (rebuild st table) ∧
      LeftOfTable (fun row => PassGives R b columns filter row (some false)) d a folded st.folded
        table := by
  have hcarries := FoldDef.carries_absentIn hR hb inits
  generalize ho : Outcome.residual e = o at h ⊢
  cases h with
  | sized _ ho | notStarted _ _ _ ho => exact .inl ho
  | @folded rows cols elements st st' _ ha _ _ hstart _ hall hrows h =>
    obtain ⟨accs, rfl⟩ := exists_start_of_startGives hstart rfl
    have hst : st'.All (fun o => o.isConstant = true) fun _ => True :=
      hcarries.accumulates.rows (fun _ _ _ _ => isConstant_of_isKnown) (fun _ _ _ _ => trivial)
        (hcarries.start hstart) hrows
    obtain ⟨held, dropped, hleft, hdrops, hheld, _, hless⟩ :=
      exists_remainder_of_folds (fun _ row _ => handles_of_itemGives (x := row) rfl rfl id) hrows
    cases h with
    | result _ h => exact absurd (ho ▸ h) (not_resultGives hR hb he hl hst)
    | whole _ _ h => exact .inl h
    | rebuilt _ hprogress =>
      have hless := hless rfl (by simp_all)
      refine .inr ⟨st', _, rfl, rows, cols, elements, held, dropped, ha, ?_, ?_, hless,
        hleft, hdrops⟩
      · rw [hheld]
        simp [FoldState.start, List.map_flatten, Function.comp_def]
      · simp only [writtenRows, List.length_take] at hless ⊢
        omega

end Gives

/-- An action that starts with `x` goes on with what `x` gives. -/
theorem exists_gives_of_bind {α β : Type} {book : Workbook} {E : Memo → Prop} {bound : Prop}
    {x : Walk α} {k : α → Walk β} {r : β} (hx : Frames book E bound s.bindings x)
    (h : (x >>= k) s = .ok r s') :
    ∃ a s₁, x s = .ok a s₁ ∧ Gives s₁.memo s'.memo s.bindings (k a) r := by
  rw [bind_apply] at h
  cases hok : x s with
  | error f s₁ =>
    rw [hok] at h
    cases h
  | ok a s₁ =>
    rw [hok] at h
    exact ⟨a, s₁, rfl, ((hx s rfl).growth hok).bindings ▸ gives_of_ok h⟩

theorem exists_of_runAll_single (h : runAll [act] s = .ok os s') :
    ∃ o, os = [o] := by
  rw [← bind_pure (runAll [act]), runAll_single_bind, bind_apply] at h
  split at h <;> cases h
  exact ⟨_, rfl⟩

/-- The walk of a fold over a list walks its elements first. -/
theorem ListFold.walk_eq (h : ListFold d node inits folded es)
    (site : Site) (enter : Address → Expr → Action) :
    ∃ rebuild, node.walk site enter = runAll (es.map (Option.map (walk site enter))) >>=
        (planOf (walk site enter) site node d inits).foldWalked folded rebuild ∧
      ∀ st, ∃ inits', ListFold d (rebuild st) inits' st.folded (st.held.flatten.map some) := by
  cases h with
  | fold =>
    rw [walk, walkDef_eq, walkSeeds_eq, walkAll_eq, resume_eq]
    exact ⟨_, rfl, fun st => ⟨_, .fold⟩⟩
  | reduce =>
    rw [walk, walkDef_eq, walkOption_eq, walkAll_eq]
    exact ⟨_, rfl, fun st => ⟨_, .reduce⟩⟩

section Optimize

variable {opt : Optimizer}

theorem holds_giving {P : Prop} (x : Expr) (b : Bindings) :
    (giving book (Earned (fun _ => True) book) False (fun _ => True) L U).Holds P b
      (x.walk (opt.site book origin) (opt.enter book n))
      fun o => Gives L U b (opt.walkDeep book n origin x) o := by
  rw [← opt.walkDeep_eq]
  exact holds_gives (frames_walkDeep_open trivial n origin x b)

theorem folds_giving : (giving book (Earned (fun _ => True) book) False (fun _ => True) L U).Folds
      (walk (opt.site book origin) (opt.enter book n))
      (fun b x o => Gives L U b (opt.walkDeep book n origin x) o) b d inits columns :=
  ⟨fun x _ => holds_giving x b, fun x _ _ _ => holds_giving x _, fun x _ _ _ => holds_giving x _,
    fun x _ => holds_giving x b⟩

theorem frames_walkAll (es : Children) : Frames book (Earned (fun _ => True) book) False b
      (runAll (es.map (Option.map (walk (opt.site book origin) (opt.enter book n))))) :=
  fun s hs => (holds_runAll (A := True)
    (fun x _ => holds_giving (L := s.memo) (U := s.memo) x b) s hs).1

theorem leftOfElements_of_walk {inits' es' : Children}
    (hnode : ListFold d node inits folded es) (he : ListFold d e inits' folded' es')
    (hs : s.bindings.Constant) (h : opt.walkDeep book n origin node s = .ok (.residual e) s') :
    ∃ os s₁, runAll (es.map (Option.map (opt.walkDeep book n origin))) s = .ok os s₁ ∧
      (Rebuilt node os (.residual e) ∨ LeftOfElements d os folded folded' es') := by
  obtain ⟨rebuild, heq, hrebuild⟩ := hnode.walk_eq (opt.site book origin) (opt.enter book n)
  rw [opt.walkDeep_eq, heq] at h
  obtain ⟨os, s₁, hos, hgives⟩ := exists_gives_of_bind (frames_walkAll es) h
  have hgives := (holds_foldWalked (A := True) folds_giving).of_gives trivial hgives
  obtain ⟨l, hlabel, hl⟩ : ∃ l, e.label? = some l ∧ l.d = d := by
    cases he <;> exact ⟨_, rfl, rfl⟩
  rw [← funext (opt.walkDeep_eq book n origin)] at hos
  refine ⟨os, s₁, hos, (leftOfElements_of_elementsGive (fun _ x _ => lasts_of_gives
    (d.lasting_absentIn _) x) hs hlabel hl hgives).imp_right ?_⟩
  rintro ⟨st, hst, hleft⟩
  obtain ⟨inits', hfold⟩ := hrebuild st
  rw [hfold.ofExpr] at hst
  cases hst
  generalize hfolded : st.folded = folded₁ at hfold hleft
  generalize hheld : st.held.flatten.map some = es₁ at hfold hleft
  generalize rebuild st = e at hfold he
  cases hfold <;> cases he <;> exact hleft

theorem leftOfTable_of_walk {seeds seeds' : List Expr} {columns columns' : Option (List String)}
    {filter' table : Option Expr} {table' : Expr} {column' : Int} {t t' : DataType}
    (hnode : node = .foldTable d seeds folded columns filter column table t)
    (he : e = .foldTable d seeds' folded' columns' filter' column' (some table') t')
    (hs : s.bindings.Constant) (h : opt.walkDeep book n origin node s = .ok (.residual e) s') :
    ∃ a s₁, runAll [table.map (opt.walkDeep book n origin)] s = .ok [a] s₁ ∧
      (Rebuilt node [a] (.residual e) ∨ LeftOfTable (fun row => ∃ p o t t', filter = some p ∧
        o.truth? = some false ∧ t.bindings = s.bindings.pushAll ((columns.getD []).zip row) ∧
        opt.walkDeep book n origin p t = .ok o t') d a folded folded' table') := by
  subst hnode he
  rw [opt.walkDeep_eq, walk, walkDef_eq, walkSeeds_eq, walkOption_eq, walkOption_eq, resume_eq,
    foldTableForm_eq] at h
  obtain ⟨os, s₁, hos, hgives⟩ := exists_gives_of_bind (frames_walkAll [table]) h
  obtain ⟨a, rfl⟩ := exists_of_runAll_single hos
  have hgives := (holds_foldTabled (A := True) (fun p _ _ _ => holds_giving p _)
    folds_giving).of_gives trivial hgives
  rw [← funext (opt.walkDeep_eq book n origin)] at hos
  refine ⟨a, s₁, hos, (leftOfTable_of_tableGives (fun _ x _ => lasts_of_gives
    (d.lasting_absentIn _) x) hs rfl rfl hgives).imp_right ?_⟩
  rintro ⟨st, table₁, hst, rows, cols, elements, held, dropped, ha, htable, hrows, hless, hleft,
    hdrops⟩
  cases hst
  refine ⟨rows, cols, elements, held, dropped, ha, htable, hrows, hless, hleft, fun row hrow => ?_⟩
  obtain ⟨p, o, hp, htruth, t, t', ht, _, _, hok, _⟩ := exists_of_passGives (hdrops row hrow) rfl
  exact ⟨p, o, t, t', hp, htruth, ht, hok⟩

end Optimize

/-- **A fold done in part loses, repeats and moves no element.**  A fold over a list or a table that
is left with its definition is left around its optimized elements, or holds some of them: in their
order, with all that are not known, fewer than there were, and as many less as were folded; if the
order matters they are the last ones.  Rows may also be rejected by the filter. -/
theorem remainder_of_optimize (opt : Optimizer) (book : Workbook) (origin : Option Address)
    (node e : Expr) (d : FoldDef Expr) (s s' : WalkState)
    (hr : opt.optimize book (some node) origin s = .ok (.residual e) s') :
    (∀ inits folded es inits' folded' es', ListFold d node inits folded es →
      ListFold d e inits' folded' es' →
      ∃ os s₁, runAll (es.map (Option.map (opt.walkDeep book book.cells.length origin)))
          (under .empty s) = .ok os s₁ ∧
        (Rebuilt node os (.residual e) ∨ LeftOfElements d os folded folded' es')) ∧
    ∀ seeds folded columns filter column table t seeds' folded' columns' filter' column' table' t',
      node = .foldTable d seeds folded columns filter column table t →
      e = .foldTable d seeds' folded' columns' filter' column' (some table') t' →
      ∃ a s₁, runAll [table.map (opt.walkDeep book book.cells.length origin)] (under .empty s) =
          .ok [a] s₁ ∧
        (Rebuilt node [a] (.residual e) ∨ LeftOfTable (fun row => ∃ p o t t', filter = some p ∧
          o.truth? = some false ∧
          t.bindings = Bindings.empty.pushAll ((columns.getD []).zip row) ∧
          opt.walkDeep book book.cells.length origin p t = .ok o t') d a folded
            folded' table') := by
  obtain ⟨t, hwalk⟩ := exists_walk_of_optimize hr
  refine ⟨fun _ _ _ _ _ _ hnode he => ?_, fun _ _ _ _ _ _ _ _ _ _ _ _ _ _ hnode he => ?_⟩
  · exact leftOfElements_of_walk hnode he Bindings.constant_empty hwalk
  · exact leftOfTable_of_walk hnode he Bindings.constant_empty hwalk

namespace KeptExample

open Sample

/-- Marks for the rows of a table of one column that hold "a". -/
def tallyRows (seeds : List Expr) (folded : Nat) (elements : List Expr) : Expr :=
  .foldTable (marks (text "")) seeds folded (some ["c"])
    (some (.operator .eq [some (.letVar "c" .unknown), some (text "a")] .unknown)) 0
    (some (.range elements.length 1 (elements.map some))) .string

/-- Marks for the rows of a table with the input, and what is left of them. -/
def markedRows : Expr := tallyRows [] 0 [text "a", .cell (cellAt 1), text "b"]

def markedRowsLeft : Expr := tallyRows [text "i"] 1 [.cell (cellAt 1)]

end KeptExample

open Sample KeptExample in
/-- A known element and a row that passes are marked, another row is rejected, and the input is
held. -/
theorem remainder_of_optimize_tally :
    ((∃ s', (optimizer true).optimize (evaluator [input, known]).book (some marked) none .initial =
        .ok (.residual markedLeft) s') ∧
      ∃ os, LeftOfElements (marks (text "")) os 0 1 [some (.cell (cellAt 1))]) ∧
    (∃ s', (optimizer true).optimize (evaluator [input]).book (some markedRows) none .initial =
        .ok (.residual markedRowsLeft) s') ∧
      ∃ Rejects a, LeftOfTable Rejects (marks (text "")) a 0 1
        (.range 1 1 [some (.cell (cellAt 1))]) := by
  obtain ⟨s₁, h₁⟩ : ∃ s', (optimizer true).optimize (evaluator [input, known]).book (some marked)
    none .initial = .ok (.residual markedLeft) s' := ⟨_, rfl⟩
  obtain ⟨s₂, h₂⟩ : ∃ s', (optimizer true).optimize (evaluator [input]).book (some markedRows)
    none .initial = .ok (.residual markedRowsLeft) s' := ⟨_, rfl⟩
  refine ⟨⟨⟨s₁, h₁⟩, ?_⟩, ⟨s₂, h₂⟩, ?_⟩
  · obtain ⟨os, _, _, ⟨_, ⟨⟩, ⟨⟩⟩ | hleft⟩ :=
      (remainder_of_optimize _ _ _ _ _ (marks (text "")) _ _ h₁).1 _ _ _ _ _ _ .fold .fold
    exact ⟨os, hleft⟩
  · obtain ⟨a, _, _, ⟨_, ⟨⟩, ⟨⟩⟩ | hleft⟩ :=
      (remainder_of_optimize _ _ _ _ _ (marks (text "")) _ _ h₂).2 _ _ _ _ _ _ _ _ _ _ _ _ _ _
        rfl rfl
    exact ⟨_, a, hleft⟩

end FormulaFold
