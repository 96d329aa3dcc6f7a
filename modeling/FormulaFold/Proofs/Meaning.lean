import FormulaFold.Proofs.FoldGives
import FormulaFold.Proofs.RunFrames

/-! # What a run yields

A run that succeeds leaves the cells being run as they were, so what it yields can be said
without states.  `NodeYields` says what a node yields, given what its parts yield in the
environments in which they are run; `Evaluator.runs_iff` says that the run of a formula yields
just that.  A formula is then taken apart by a case split on what it yields, and put together by
a constructor.
-/
namespace FormulaFold

open Run

variable {a : Address} {b : Bool} {env : Env} {ev : Evaluator} {e node : Expr} {vs : List Value}
  {position : Nat} {fn : String} {y : Yield} {α β : Type}

/-- What formulas may yield when they are run. -/
abbrev Yielding := Expr → Yield → Prop

/-! ## Actions -/

namespace Run

/-- `x` succeeds with `a` while the given cells are being run. -/
def Yields (x : Run α) (visited : List Address) (a : α) : Prop := x visited = .ok a visited

variable {visited : List Address}

theorem yields_pure {a b : α} : Yields (pure a) visited b ↔ b = a := by
  constructor
  · intro h
    cases h
    rfl
  · rintro rfl
    rfl

theorem not_yields_throw {f : RunFault} {a : α} : ¬Yields (throw f) visited a := by rintro ⟨⟩

theorem yields_bind {x : Run α} {f : α → Run β} {c : β} (hx : Keeps False x) :
    Yields (x >>= f) visited c ↔ ∃ a, Yields x visited a ∧ Yields (f a) visited c := by
  have hkeeps := hx visited
  unfold Yields
  rw [bind_apply]
  cases h : x visited with
  | error e visited' => simp
  | ok a visited' =>
    rw [h] at hkeeps
    cases hkeeps
    simp

theorem yields_map {x : Run α} {f : α → β} {c : β} (hx : Keeps False x) :
    Yields (f <$> x) visited c ↔ ∃ a, Yields x visited a ∧ c = f a := by
  have h : f <$> x = x >>= fun a => pure (f a) := rfl
  simp only [h, yields_bind hx, yields_pure]

theorem yields_ite {p : Prop} [Decidable p] {x y : Run α} {a : α} :
    Yields (if p then x else y) visited a ↔ if p then Yields x visited a
      else Yields y visited a := by
  split <;> rfl

theorem yields_visiting {x : Run α} (hx : Keeps False x) (ha : a ∉ visited) {r : α} :
    Yields (visiting a x) visited r ↔ Yields x (a :: visited) r := by
  have hkeeps := hx (a :: visited)
  have hframe := keeps_visiting hx ha
  unfold Yields
  unfold visiting at hframe ⊢
  cases h : x (a :: visited) with
  | error e visited' => simp
  | ok r' visited' =>
    rw [h] at hkeeps hframe
    cases hkeeps
    dsimp only at hframe ⊢
    rw [hframe]
    simp

theorem yields_attempt {result : Except Failure α} {a : α} :
    Yields (ev.attempt node result) visited a ↔ result = .ok a := by
  unfold Evaluator.attempt
  cases result with
  | ok b => simp [yields_pure, eq_comm]
  | error f => simp [not_yields_throw]

theorem yields_computed {result : Except Failure Value} :
    Yields (ev.computed node result) visited y ↔
      ∃ v, result = .ok v ∧ y = .one (ev.engine.adjust v) := by
  unfold Evaluator.computed
  rw [yields_bind keeps_attempt]
  simp only [yields_attempt, yields_pure]

end Run

/-! ## Children -/

/-- `ChildOr` for what children yield; a missing one yields a blank. -/
abbrev ChildYields (M : Yielding) : Option Expr → Yield → Prop :=
  ChildOr (.one .null) M

section Children

variable {visited : List Address} {f : Expr → Evaluation} {M : Yielding}
  {es : Children}

/-- What the parts of a formula yield, said of their runs. -/
structure Reads (visited : List Address) (f : Expr → Evaluation) (M : Env → Yielding) :
    Prop where
  keeps : ∀ e env, Keeps False (f e env)
  yields : ∀ e env y, Yields (f e env) visited y ↔ M env e y

variable {M : Env → Yielding} (hM : Reads visited f M)
include hM

theorem yields_runChild {e : Option Expr} :
    Yields (runChild env (e.map f)) visited y ↔ ChildYields (M env) e y := by
  cases e with
  | none => exact yields_pure
  | some e => exact hM.yields e env y

theorem yields_runItems : Yields (runItems env (es.map (Option.map f))) visited vs ↔
      ∃ ys, Forall₂ (ChildYields (M env)) es ys ∧ vs = ys.flatMap Yield.items := by
  induction es generalizing vs with
  | nil => simp [runItems, yields_pure]
  | cons e es ih =>
    simp only [map_cons, runItems, yields_bind (keeps_runChild hM.keeps),
      yields_bind (keeps_runItems hM.keeps), yields_pure, ih, yields_runChild hM]
    constructor
    · rintro ⟨y, hy, _, ⟨ys, hys, rfl⟩, rfl⟩
      exact ⟨y :: ys, .cons hy hys, rfl⟩
    · rintro ⟨_, hys, rfl⟩
      cases hys with
      | cons hy hys => exact ⟨_, hy, _, ⟨_, hys, rfl⟩, rfl⟩

theorem yields_runSingles : Yields (runSingles env (es.map (Option.map f))) visited vs ↔
      ∃ ys, Forall₂ (ChildYields (M env)) es ys ∧ vs = ys.map Yield.single := by
  induction es generalizing vs with
  | nil => simp [runSingles, yields_pure]
  | cons e es ih =>
    simp only [map_cons, runSingles, yields_bind (keeps_runChild hM.keeps),
      yields_bind (keeps_runSingles hM.keeps), yields_pure, ih, yields_runChild hM]
    constructor
    · rintro ⟨y, hy, _, ⟨ys, hys, rfl⟩, rfl⟩
      exact ⟨y :: ys, .cons hy hys, rfl⟩
    · rintro ⟨_, hys, rfl⟩
      cases hys with
      | cons hy hys => exact ⟨_, hy, _, ⟨_, hys, rfl⟩, rfl⟩

end Children

/-! ## Forms -/

/-- What a node yields that is computed from its arguments. -/
def ComputedYields (engine : Engine) (M : Yielding)
    (compute : Computation) (args : Children) (y : Yield) : Prop :=
  ∃ ys v, Forall₂ (ChildYields M) (trimmed args) ys ∧
    compute (ys.flatMap Yield.items) = .ok v ∧ y = .one (engine.adjust v)

/-- What `IF` yields. -/
def IfYields (engine : Engine) (M : Yielding) (args : Children) (y : Yield) : Prop :=
  if cardinality args = 0 then
    ∃ v, engine.call Builtin.ifElse.name [] = .ok v ∧ y = .one (engine.adjust v)
  else
    ∃ c b, ChildYields M args[0]?.join c ∧ c.toBool = .ok b ∧
      if b then ChildOr (.one (.number 0.0)) M args[1]?.join y
      else ChildOr (.one (.bool false)) M args[2]?.join y

/-- The truth of one argument of `AND` and `OR`. -/
def Engine.truthOf (engine : Engine) (fn : String) (y : Yield) : Except Failure Bool :=
  match y.single with
  | .array rows cols values => do (← engine.call fn [.array rows cols values]).toBool
  | v => v.toBool

/-- What `AND` and `OR` yield: the first decisive argument ends them. -/
inductive BoolYields (engine : Engine) (fn : String) (decisive : Bool) (M : Yielding) :
    List (Option Expr) → Yield → Prop
  | nil : BoolYields engine fn decisive M [] (.one (.bool !decisive))
  | missing {rest : Children} {y : Yield}
      (hrest : BoolYields engine fn decisive M rest y) :
      BoolYields engine fn decisive M (none :: rest) y
  | decided {e : Expr} {x : Yield} {rest : Children} (hx : M e x)
      (htruth : engine.truthOf fn x = .ok decisive) :
      BoolYields engine fn decisive M (some e :: rest) (.one (.bool decisive))
  | next {e : Expr} {x y : Yield} {rest : Children} (hx : M e x)
      (htruth : engine.truthOf fn x = .ok !decisive)
      (hrest : BoolYields engine fn decisive M rest y) :
      BoolYields engine fn decisive M (some e :: rest) y

/-- What `ROW` and `COLUMN` yield. -/
def PositionYields (engine : Engine) (M : Yielding) (env : Env) (fn : String)
    (position : Address → Int) (args : Children) (y : Yield) : Prop :=
  match Evaluator.positionCell? args env with
  | some a => y = .one (.number (Float.ofInt (position a)))
  | none => ComputedYields engine M (engine.call fn) args y

/-- What a call yields; the last argument says which form it has. -/
def CallYields (engine : Engine) (M : Yielding) (env : Env) (fn : String)
    (args : Children) (y : Yield) : Option Builtin → Prop
  | some .ifElse => IfYields engine M args y
  | some .and => BoolYields engine fn false M args y
  | some .or => BoolYields engine fn true M args y
  | some .row => PositionYields engine M env fn (·.row) args y
  | some .column => PositionYields engine M env fn (·.col) args y
  | _ => ComputedYields engine M (engine.call fn) args y

section Forms

variable {visited : List Address} {f : Expr → Evaluation} {M : Env → Yielding}
  {es : Children}

theorem yields_truth {x : Yield} :
    Yields (ev.truth node fn x) visited b ↔ ev.engine.truthOf fn x = .ok b := by
  unfold Evaluator.truth Engine.truthOf
  cases x.single
  case array rows cols values =>
    dsimp only
    rw [yields_bind keeps_attempt]
    simp only [yields_attempt]
    cases ev.engine.call fn [.array rows cols values] <;> simp [bind, Except.bind]
  all_goals exact yields_attempt

variable (hM : Reads visited f M)
include hM

theorem yields_runArguments {compute : Computation} :
    Yields (runItems env (trimmed (es.map (Option.map f))) >>= fun values =>
        ev.computed node (compute values)) visited y ↔
      ComputedYields ev.engine (M env) compute es y := by
  rw [trimmed_map, yields_bind (keeps_runItems hM.keeps)]
  simp only [yields_runItems hM, yields_computed, ComputedYields]
  constructor
  · rintro ⟨_, ⟨ys, hys, rfl⟩, v, hv, rfl⟩
    exact ⟨ys, v, hys, hv, rfl⟩
  · rintro ⟨ys, v, hys, hv, rfl⟩
    exact ⟨_, ⟨ys, hys, rfl⟩, v, hv, rfl⟩

theorem yields_branch (i : Nat) (v : Value) : Yields (match es[i]?.join.map f with
    | some branch => branch env
    | none => pure (.one v)) visited y ↔ ChildOr (.one v) (M env) es[i]?.join y := by
  cases es[i]?.join with
  | none => exact yields_pure
  | some e => exact hM.yields e env y

theorem yields_ifForm : Yields (ev.ifForm node (es.map (Option.map f)) env) visited y ↔
      IfYields ev.engine (M env) es y := by
  have hcard : cardinality (es.map (Option.map f)) = cardinality es := by
    unfold cardinality
    rw [trimmed_map, length_map]
  have hget (i : Nat) : (es.map (Option.map f))[i]?.join = es[i]?.join.map f := by
    rw [getElem?_map]
    cases es[i]? with
    | none => rfl
    | some e => cases e <;> rfl
  unfold Evaluator.ifForm IfYields
  rw [yields_ite, hcard]
  split
  · exact yields_computed
  · simp only [hget, yields_bind (keeps_runChild hM.keeps), yields_runChild hM,
      yields_bind keeps_attempt, yields_attempt, yields_ite]
    constructor
    · rintro ⟨c, hc, b, hb, hy⟩
      refine ⟨c, b, hc, hb, ?_⟩
      cases b with
      | true => exact (yields_branch hM 1 _).mp hy
      | false => exact (yields_branch hM 2 _).mp hy
    · rintro ⟨c, b, hc, hb, hy⟩
      refine ⟨c, hc, b, hb, ?_⟩
      cases b with
      | true => exact (yields_branch hM 1 _).mpr hy
      | false => exact (yields_branch hM 2 _).mpr hy

theorem yields_boolForm {decisive : Bool} :
    Yields (ev.boolForm node fn decisive env (es.map (Option.map f))) visited y ↔
      BoolYields ev.engine fn decisive (M env) es y := by
  induction es generalizing y with
  | nil =>
    refine yields_pure.trans ⟨?_, ?_⟩
    · rintro rfl
      exact .nil
    · rintro ⟨⟩
      rfl
  | cons e es ih =>
    cases e with
    | none =>
      refine ih.trans ⟨.missing, ?_⟩
      rintro ⟨⟩
      assumption
    | some e =>
      simp only [map_cons, map_some, Evaluator.boolForm, yields_bind (hM.keeps e env),
        yields_bind keeps_truth, hM.yields, yields_truth, yields_ite, yields_pure, ih]
      constructor
      · rintro ⟨x, hx, b, htruth, hy⟩
        by_cases hb : b = decisive
        · subst hb
          rw [if_pos rfl] at hy
          subst hy
          exact .decided hx htruth
        · rw [if_neg hb] at hy
          exact .next hx (by rw [htruth]; cases b <;> cases decisive <;> simp_all) hy
      · rintro (_ | _ | ⟨hx, htruth⟩ | ⟨hx, htruth, hrest⟩)
        · exact ⟨_, hx, _, htruth, by rw [if_pos rfl]⟩
        · exact ⟨_, hx, _, htruth, by rwa [if_neg (by cases decisive <;> simp)]⟩

theorem yields_positionForm {position : Address → Int} :
    Yields (ev.positionForm node fn position es (es.map (Option.map f)) env) visited y ↔
      PositionYields ev.engine (M env) env fn position es y := by
  unfold Evaluator.positionForm PositionYields
  cases Evaluator.positionCell? es env with
  | some a => exact yields_pure
  | none => exact yields_runArguments hM

theorem yields_rowsForm {rows : List Row} :
    Yields (Evaluator.rowsForm (es.map (Option.map f)) env rows) visited vs ↔
      ∃ yss, Forall₂ (fun row ys => Forall₂ (ChildYields (M (env.enterRow row))) es ys)
        rows yss ∧ vs = yss.flatMap fun ys => ys.flatMap Yield.items := by
  induction rows generalizing vs with
  | nil => simp [Evaluator.rowsForm, yields_pure]
  | cons row rows ih =>
    simp only [Evaluator.rowsForm, yields_bind (keeps_runItems hM.keeps),
      yields_bind (keeps_rowsForm hM.keeps), yields_pure, yields_runItems hM, ih]
    constructor
    · rintro ⟨_, ⟨ys, hys, rfl⟩, _, ⟨yss, hyss, rfl⟩, rfl⟩
      exact ⟨ys :: yss, .cons hys hyss, rfl⟩
    · rintro ⟨_, hyss, rfl⟩
      cases hyss with
      | cons hys hyss => exact ⟨_, ⟨_, hys, rfl⟩, _, ⟨_, hyss, rfl⟩, rfl⟩

theorem yields_switchForm {selector otherwise : Option Expr} {cases : List (Case Expr)} :
    Yields (Evaluator.switchForm (selector.map f) (cases.map (Case.map f)) (otherwise.map f) env)
        visited y ↔
      ∃ x, ChildYields (M env) selector x ∧
        ChildYields (M env) (chosenBranch cases otherwise (x.toInt leastWord)) y := by
  have hfind (k : Int) : (cases.map (Case.map f)).find? (·.matches k) =
      (cases.find? (·.matches k)).map (Case.map f) := by
    rw [List.find?_map]
    rfl
  unfold Evaluator.switchForm
  rw [yields_bind (keeps_runChild hM.keeps)]
  simp only [yields_runChild hM, hfind]
  refine exists_congr fun x => and_congr_right fun _ => ?_
  unfold chosenBranch
  cases cases.find? (·.matches (x.toInt leastWord)) with
  | none => exact yields_runChild hM
  | some c => exact yields_runChild hM

end Forms

/-! ## Folds -/

theorem folds_append {σ ξ : Type} {step : σ → ξ → σ → Prop} {st st'' : σ} {xs ys : List ξ} :
    Folds step st (xs ++ ys) st'' ↔ ∃ st', Folds step st xs st' ∧ Folds step st' ys st'' := by
  induction xs generalizing st with
  | nil =>
    constructor
    · intro h
      exact ⟨st, .nil, h⟩
    · rintro ⟨_, ⟨⟩, h⟩
      exact h
  | cons x xs ih =>
    constructor
    · rintro (_ | ⟨hx, h⟩)
      obtain ⟨st', hxs, hys⟩ := ih.mp h
      exact ⟨st', .cons hx hxs, hys⟩
    · rintro ⟨st', _ | ⟨hx, hxs⟩, hys⟩
      exact .cons hx (ih.mpr ⟨st', hxs, hys⟩)

/-- The state that a fold is started in. -/
inductive StartYields (M : Yielding) (inits : Children) (folded : Nat) :
    RunFold → Prop
  | first (hinits : inits = [none]) : StartYields M inits folded ⟨none, folded⟩
  | inits {ys : List Yield} (hinits : inits ≠ [none])
      (hys : Forall₂ (ChildYields M) inits ys) :
      StartYields M inits folded ⟨some (ys.map Yield.single), folded⟩

/-- The state after one element. -/
inductive StepYields (M : Env → Yielding) (env : Env) (d : FoldDef Expr) (st : RunFold)
    (elements : List Value) (extra : List (String × Value)) : RunFold → Prop
  | first {v : Value} {rest : List Value} (haccs : st.accs = none)
      (hlen : elements.length = d.elementNames.length) (helements : elements = v :: rest) :
      StepYields M env d st elements extra ⟨some [v], st.folded + 1⟩
  | next {accs : List Value} {ys : List Yield} (haccs : st.accs = some accs)
      (hlen : elements.length = d.elementNames.length)
      (hnames : d.accumulatorNames.length = accs.length)
      (hys : Forall₂ (M (d.stepEnv env st.folded accs elements extra)) d.steps ys) :
      StepYields M env d st elements extra ⟨some (ys.map Yield.single), st.folded + 1⟩

/-- What the end of a fold yields. -/
inductive ResultYields (M : Env → Yielding) (env : Env) (d : FoldDef Expr)
    (st : RunFold) : Yield → Prop
  | whenEmpty {e : Expr} {y : Yield} (he : d.whenEmpty = some e) (hfolded : st.folded = 0)
      (hy : M env e y) : ResultYields M env d st y
  | blank (hsome : d.whenEmpty.isSome → st.folded ≠ 0) (haccs : st.accs = none) :
      ResultYields M env d st (.one .null)
  | first {v : Value} {accs : List Value} (hsome : d.whenEmpty.isSome → st.folded ≠ 0)
      (haccs : st.accs = some (v :: accs)) (hmerge : d.merge = none) :
      ResultYields M env d st (.one v)
  | merged {accs : List Value} {e : Expr} {y : Yield}
      (hsome : d.whenEmpty.isSome → st.folded ≠ 0) (haccs : st.accs = some accs)
      (hmerge : d.merge = some e) (hnames : d.accumulatorNames.length = accs.length)
      (hy : M (d.mergeEnv env st.folded accs) e y) : ResultYields M env d st y

/-- The state after elements that are values on their own. -/
abbrev ElementsYield (M : Env → Yielding) (env : Env) (d : FoldDef Expr) :
    RunFold → List (List Value) → RunFold → Prop :=
  Folds fun st elements => StepYields M env d st elements []

section Folds

variable {visited : List Address} {f : Expr → Evaluation} {M : Env → Yielding}
  {es inits : Children} {d : FoldDef Expr} {folded : Nat} {st st' : RunFold}
  (hM : Reads visited f M)
include hM

theorem yields_start :
    Yields (RunFold.start (inits.map (Option.map f)) folded env) visited st ↔
      StartYields (M env) inits folded st := by
  by_cases hinits : inits = [none]
  · subst hinits
    refine yields_pure.trans ⟨?_, ?_⟩
    · rintro rfl
      exact .first rfl
    · rintro (_ | ⟨hne, _⟩)
      · rfl
      · exact absurd rfl hne
  · have heq : RunFold.start (inits.map (Option.map f)) folded env =
        (fun vs => ⟨some vs, folded⟩) <$> runSingles env (inits.map (Option.map f)) := by
      unfold RunFold.start
      split
      · rename_i hnone
        refine absurd ?_ hinits
        simp only [map_eq_cons_iff, map_eq_nil_iff, map_eq_none_iff] at hnone
        obtain ⟨_, _, rfl, rfl, rfl⟩ := hnone
        rfl
      · rfl
    rw [heq, yields_map (keeps_runSingles hM.keeps)]
    simp only [yields_runSingles hM]
    constructor
    · rintro ⟨_, ⟨ys, hys, rfl⟩, rfl⟩
      exact .inits hinits hys
    · rintro (hinits' | ⟨_, hys⟩)
      · exact absurd hinits' hinits
      · exact ⟨_, ⟨_, hys, rfl⟩, rfl⟩

theorem yields_step {elements : List Value} {extra : List (String × Value)} :
    Yields (st.step (d.map f) env elements extra) visited st' ↔
      StepYields M env d st elements extra st' := by
  rw [RunFold.step_eq, FoldDef.map_elementNames, FoldDef.map_accumulatorNames,
    FoldDef.map_stepEnv, FoldDef.map_steps, map_map]
  have hsteps : d.steps.map (some ∘ f) = (d.steps.map some).map (Option.map f) := by
    simp [Function.comp_def]
  by_cases hlen : elements.length = d.elementNames.length
  · rw [if_neg (not_not.mpr hlen)]
    cases haccs : st.accs with
    | none =>
      cases elements with
      | nil =>
        refine iff_of_false not_yields_throw ?_
        rintro (⟨_, _, h⟩ | ⟨haccs', _⟩)
        · cases h
        · rw [haccs] at haccs'
          cases haccs'
      | cons v rest =>
        refine yields_pure.trans ⟨?_, ?_⟩
        · rintro rfl
          exact .first haccs hlen rfl
        · rintro (⟨_, _, h⟩ | ⟨haccs', _⟩)
          · cases h
            rfl
          · rw [haccs] at haccs'
            cases haccs'
    | some accs =>
      dsimp only
      by_cases hnames : d.accumulatorNames.length = accs.length
      · rw [if_pos hnames, hsteps,
          yields_map (keeps_runSingles hM.keeps)]
        simp only [yields_runSingles hM, forall₂_map_left_iff]
        constructor
        · rintro ⟨_, ⟨ys, hys, rfl⟩, rfl⟩
          exact .next haccs hlen hnames hys
        · rintro (⟨haccs', _⟩ | ⟨haccs', _, _, hys⟩)
          · rw [haccs] at haccs'
            cases haccs'
          · rw [haccs] at haccs'
            cases haccs'
            exact ⟨_, ⟨_, hys, rfl⟩, rfl⟩
      · rw [if_neg hnames]
        refine iff_of_false not_yields_throw ?_
        rintro (⟨haccs', _⟩ | ⟨haccs', _, hnames', _⟩)
        · rw [haccs] at haccs'
          cases haccs'
        · rw [haccs] at haccs'
          cases haccs'
          exact hnames hnames'
  · rw [if_pos hlen]
    refine iff_of_false not_yields_throw ?_
    rintro (⟨_, hlen', _⟩ | ⟨_, hlen', _⟩)
    · exact hlen hlen'
    · exact hlen hlen'

theorem yields_steps {tuples : List (List Value)} :
    Yields (st.steps (d.map f) env tuples) visited st' ↔ ElementsYield M env d st tuples st' := by
  induction tuples generalizing st with
  | nil =>
    refine yields_pure.trans ⟨?_, ?_⟩
    · rintro rfl
      exact .nil
    · rintro ⟨⟩
      rfl
  | cons tuple tuples ih =>
    rw [RunFold.steps, yields_bind (keeps_step hM.keeps)]
    simp only [yields_step hM, ih]
    constructor
    · rintro ⟨st₁, h, hrest⟩
      exact .cons h hrest
    · rintro (_ | ⟨h, hrest⟩)
      exact ⟨_, h, hrest⟩

theorem yields_runElements :
    Yields (runElements (d.map f) env st (es.map (Option.map f))) visited st' ↔
      ∃ ys, Forall₂ (ChildYields (M env)) es ys ∧
        ElementsYield M env d st ((ys.flatMap Yield.leaves).map ([·])) st' := by
  induction es generalizing st with
  | nil =>
    refine yields_pure.trans ⟨?_, ?_⟩
    · rintro rfl
      exact ⟨[], .nil, .nil⟩
    · rintro ⟨_, ⟨⟩, ⟨⟩⟩
      rfl
  | cons e es ih =>
    rw [map_cons, runElements, yields_bind (keeps_runChild hM.keeps)]
    simp only [yields_bind (keeps_steps hM.keeps), yields_runChild hM,
      yields_steps hM, ih]
    constructor
    · rintro ⟨y, hy, st₁, hsteps, ys, hys, hrest⟩
      refine ⟨y :: ys, .cons hy hys, ?_⟩
      rw [flatMap_cons, map_append]
      exact folds_append.mpr ⟨st₁, hsteps, hrest⟩
    · rintro ⟨_, _ | ⟨hy, hys⟩, hfolds⟩
      rw [flatMap_cons, map_append] at hfolds
      obtain ⟨st₁, hsteps, hrest⟩ := folds_append.mp hfolds
      exact ⟨_, hy, st₁, hsteps, _, hys, hrest⟩

theorem yields_result :
    Yields (st.result (d.map f) env) visited y ↔ ResultYields M env d st y := by
  have hfinish (hsome : d.whenEmpty.isSome → st.folded ≠ 0) :
      Yields (RunFold.result.finish (d.map f) env st) visited y ↔ ResultYields M env d st y := by
    rw [RunFold.finish_eq, FoldDef.map_accumulatorNames, FoldDef.map_mergeEnv, FoldDef.map_merge]
    have hempty (e : Expr) (he : d.whenEmpty = some e) (hfolded : st.folded = 0) : False :=
      hsome (by rw [he]; rfl) hfolded
    cases haccs : st.accs with
    | none =>
      refine yields_pure.trans ⟨?_, ?_⟩
      · rintro rfl
        exact .blank hsome haccs
      · rintro (⟨he, hfolded, _⟩ | _ | ⟨_, haccs', _⟩ | ⟨_, haccs', _⟩)
        · exact (hempty _ he hfolded).elim
        · rfl
        all_goals
          rw [haccs] at haccs'
          cases haccs'
    | some accs =>
      cases hmerge : d.merge with
      | none =>
        have hyields : ResultYields M env d st y ↔ ∃ v rest, accs = v :: rest ∧ y = .one v := by
          constructor
          · rintro (⟨he, hfolded, _⟩ | ⟨_, haccs'⟩ | ⟨_, haccs', _⟩ | ⟨_, _, hmerge', _⟩)
            · exact (hempty _ he hfolded).elim
            · cases haccs.symm.trans haccs'
            · cases haccs.symm.trans haccs'
              exact ⟨_, _, rfl, rfl⟩
            · cases hmerge.symm.trans hmerge'
          · rintro ⟨v, rest, rfl, rfl⟩
            exact .first hsome haccs hmerge
        rw [hyields]
        cases accs with
        | nil => simpa using not_yields_throw
        | cons v rest => simpa using yields_pure
      | some e =>
        simp only [map_some, yields_ite, hM.yields, not_yields_throw]
        constructor
        · intro h
          split at h
          · exact .merged hsome haccs hmerge ‹_› h
          · exact h.elim
        · rintro (⟨he, hfolded, _⟩ | ⟨_, haccs'⟩ | ⟨_, _, hmerge'⟩ |
            ⟨_, haccs', hmerge', hnames, hy⟩)
          · exact (hempty _ he hfolded).elim
          · rw [haccs] at haccs'
            cases haccs'
          · rw [hmerge] at hmerge'
            cases hmerge'
          · rw [haccs] at haccs'
            rw [hmerge] at hmerge'
            cases haccs'
            cases hmerge'
            rwa [if_pos hnames]
  rw [RunFold.result_eq, FoldDef.map_whenEmpty]
  cases hempty : d.whenEmpty with
  | none => exact hfinish (by simp [hempty])
  | some e =>
    simp only [map_some, yields_ite, hM.yields]
    split
    · rename_i hfolded
      constructor
      · exact .whenEmpty hempty hfolded
      · have hsome : d.whenEmpty.isSome := by rw [hempty]; rfl
        rintro (⟨he, _, hy⟩ | ⟨hne, _⟩ | ⟨hne, _⟩ | ⟨hne, _⟩)
        · rw [hempty] at he
          cases he
          exact hy
        all_goals exact absurd hfolded (hne hsome)
    · exact hfinish fun _ => ‹_›

end Folds

/-- What a fold over a list of elements yields. -/
inductive ListYields (M : Env → Yielding) (env : Env) (d : FoldDef Expr)
    (inits : Children) (folded : Nat) (es : Children) (y : Yield) : Prop
  | mk {st st' : RunFold} {ys : List Yield} (hstart : StartYields (M env) inits folded st)
      (hys : Forall₂ (ChildYields (M env)) es ys)
      (hfolds : ElementsYield M env d st ((ys.flatMap Yield.leaves).map ([·])) st')
      (hy : ResultYields M env d st' y)

/-- What a fold over one array yields. -/
inductive ArrayYields (M : Env → Yielding) (env : Env) (d : FoldDef Expr)
    (array : Option Expr) (y : Yield) : Prop
  | mk {st st' : RunFold} {a : Yield} (ha : ChildYields (M env) array a)
      (hstart : StartYields (M env) d.inits 0 st)
      (hfolds : ElementsYield M env d st (a.leaves.map ([·])) st')
      (hy : ResultYields M env d st' y)

/-- What a fold over vectors yields. -/
inductive VectorsYield (M : Env → Yielding) (env : Env) (d : FoldDef Expr)
    (inits : Children) (folded : Nat) (es : Children) (y : Yield) : Prop
  | mk {st st' : RunFold} {ys : List Yield} {n : Nat} (hne : es ≠ [])
      (hlen : es.length = d.elementNames.length)
      (hys : Forall₂ (ChildYields (M env)) es ys) (hn : ∀ y ∈ ys, y.leaves.length = n)
      (hstart : StartYields (M env) inits folded st)
      (hfolds : ElementsYield M env d st (columnsOf n (ys.map Yield.leaves)) st')
      (hy : ResultYields M env d st' y)

/-- Whether a row of a table passes the filter. -/
inductive PassYields (M : Env → Yielding) (env : Env) (columns : List String)
    (filter : Option Expr) (row : List Value) : Bool → Prop
  | all (hfilter : filter = none) : PassYields M env columns filter row true
  | tested {e : Expr} {y : Yield} {b : Bool} (hfilter : filter = some e)
      (hlen : columns.length = row.length) (hy : M (env.setPairs (columns.zip row)) e y)
      (hb : y.toBool = .ok b) : PassYields M env columns filter row b

/-- The state after one row of a table. -/
inductive RowYields (M : Env → Yielding) (env : Env) (d : FoldDef Expr)
    (columns : List String) (filter : Option Expr) (column : Int) (st : RunFold)
    (row : List Value) : RunFold → Prop
  | dropped (hpass : PassYields M env columns filter row false) :
      RowYields M env d columns filter column st row st
  | taken {st' : RunFold} (hpass : PassYields M env columns filter row true)
      (hstep : StepYields M env d st (d.rowElements column row) (columns.zip row) st') :
      RowYields M env d columns filter column st row st'

/-- What a fold of a table yields. -/
inductive TableYields (M : Env → Yielding) (env : Env) (d : FoldDef Expr)
    (inits : Children) (folded : Nat) (columns : List String) (filter : Option Expr)
    (column : Int) (table : Option Expr) (y : Yield) : Prop
  | mk {st st' : RunFold} {rows cols : Int} {values : List Value}
      (htable : ChildYields (M env) table (.one (.array rows cols values)))
      (hcols : cols = columns.length) (hcolumn : 0 ≤ column ∧ column < cols)
      (hstart : StartYields (M env) inits folded st)
      (hfolds : Folds (RowYields M env d columns filter column) st
        ((rowsOf cols.toNat values.length values).take rows.toNat) st')
      (hall : rows ≤ (rowsOf cols.toNat values.length values).length)
      (hy : ResultYields M env d st' y)

section Folds

variable {visited : List Address} {f : Expr → Evaluation} {M : Env → Yielding}
  {es inits : Children} {d : FoldDef Expr} {folded : Nat} {st st' : RunFold}
  {columns : List String} {filter : Option Expr} {column : Int} (hM : Reads visited f M)
include hM

theorem yields_runFold :
    Yields (runFold (d.map f) (inits.map (Option.map f)) folded (es.map (Option.map f)) env)
        visited y ↔ ListYields M env d inits folded es y := by
  unfold runFold
  rw [yields_bind (keeps_start hM.keeps)]
  simp only [yields_bind (keeps_runElements hM.keeps),
    yields_start hM, yields_runElements hM, yields_result hM]
  constructor
  · rintro ⟨st, hstart, st', ⟨ys, hys, hfolds⟩, hy⟩
    exact .mk hstart hys hfolds hy
  · rintro ⟨hstart, hys, hfolds, hy⟩
    exact ⟨_, hstart, _, ⟨_, hys, hfolds⟩, hy⟩

theorem yields_runFoldArray {array : Option Expr} :
    Yields (runFoldArray (d.map f) (array.map f) env) visited y ↔ ArrayYields M env d array y := by
  unfold runFoldArray
  rw [yields_bind (keeps_runChild hM.keeps), FoldDef.map_inits]
  simp only [yields_bind (keeps_start hM.keeps),
    yields_bind (keeps_steps hM.keeps), yields_runChild hM, yields_start hM,
    yields_steps hM, yields_result hM]
  constructor
  · rintro ⟨a, ha, st, hstart, st', hfolds, hy⟩
    exact .mk ha hstart hfolds hy
  · rintro ⟨ha, hstart, hfolds, hy⟩
    exact ⟨_, ha, _, hstart, _, hfolds, hy⟩

theorem yields_runVectors {first : Option Nat} {vs : List (List Value)} :
    Yields (runVectors env first position (es.map (Option.map f))) visited vs ↔
      ∃ ys n, Forall₂ (ChildYields (M env)) es ys ∧ vs = ys.map Yield.leaves ∧
        (∀ k, first = some k → n = k) ∧ ∀ y ∈ ys, y.leaves.length = n := by
  induction es generalizing first position vs with
  | nil =>
    refine yields_pure.trans ⟨?_, ?_⟩
    · rintro rfl
      refine ⟨[], first.getD 0, .nil, rfl, ?_, by simp⟩
      rintro k rfl
      rfl
    · rintro ⟨_, _, ⟨⟩, rfl, _⟩
      rfl
  | cons e es ih =>
    have heq (y : Yield) : (do
        if y.leaves.length ≠ first.getD y.leaves.length then
          throw (.misuse (.vectorLength position y.leaves.length (first.getD y.leaves.length)))
        return y.leaves :: (← runVectors env (some (first.getD y.leaves.length)) (position + 1)
          (es.map (Option.map f))) : Run (List (List Value))) =
        if y.leaves.length ≠ first.getD y.leaves.length then
          throw (.misuse (.vectorLength position y.leaves.length (first.getD y.leaves.length)))
        else (y.leaves :: ·) <$> runVectors env (some (first.getD y.leaves.length)) (position + 1)
          (es.map (Option.map f)) := by
      split <;> rfl
    rw [map_cons, runVectors, yields_bind (keeps_runChild hM.keeps)]
    simp only [heq, yields_runChild hM, yields_ite, yields_map (keeps_runVectors hM.keeps),
      not_yields_throw, ih]
    constructor
    · rintro ⟨y, hy, h⟩
      split at h
      · exact h.elim
      · rename_i hlen
        obtain ⟨_, ⟨ys, n, hys, rfl, hn, hall⟩, rfl⟩ := h
        have hn := hn _ rfl
        refine ⟨y :: ys, n, .cons hy hys, rfl, ?_, ?_⟩
        · rintro k rfl
          exact hn
        · refine forall_mem_cons.mpr ⟨?_, hall⟩
          rw [hn]
          exact not_not.mp hlen
    · rintro ⟨_, n, _ | ⟨hy, hys⟩, rfl, hn, hall⟩
      have hall := forall_mem_cons.mp hall
      refine ⟨_, hy, ?_⟩
      have hfirst : first.getD n = n := by
        cases first with
        | none => rfl
        | some k => exact (hn k rfl).symm
      rw [hall.1, hfirst, if_neg (not_not.mpr rfl)]
      exact ⟨_, ⟨_, n, hys, rfl, fun k hk => Option.some.inj hk, hall.2⟩, rfl⟩

theorem yields_runFoldVectors :
    Yields (runFoldVectors (d.map f) (inits.map (Option.map f)) folded (es.map (Option.map f)) env)
        visited y ↔ VectorsYield M env d inits folded es y := by
  have heq : runFoldVectors (d.map f) (inits.map (Option.map f)) folded
      (es.map (Option.map f)) env = if es = [] ∨ es.length ≠ d.elementNames.length then
        throw (.misuse (.vectorCount es.length d.elementNames.length))
      else runVectors env none 1 (es.map (Option.map f)) >>= fun vectors =>
        RunFold.start (inits.map (Option.map f)) folded env >>= fun st =>
          st.steps (d.map f) env (columnsOf ((vectors.headD []).length) vectors) >>= fun st =>
            st.result (d.map f) env := by
    unfold runFoldVectors
    rw [FoldDef.map_elementNames]
    by_cases h : es = [] ∨ es.length ≠ d.elementNames.length
    · rw [if_pos h]
      simp only [isEmpty_iff, map_eq_nil_iff, length_map, if_pos h]
      rfl
    · rw [if_neg h]
      simp only [isEmpty_iff, map_eq_nil_iff, length_map, if_neg h]
  rw [heq]
  simp only [yields_ite, not_yields_throw,
    yields_bind (keeps_runVectors hM.keeps),
    yields_bind (keeps_start hM.keeps),
    yields_bind (keeps_steps hM.keeps), yields_runVectors hM, yields_start hM,
    yields_steps hM, yields_result hM]
  -- The vectors are as long as the first one, which is there.
  have hhead {ys : List Yield} {n : Nat} (hne : es ≠ [])
      (hys : Forall₂ (ChildYields (M env)) es ys) (hn : ∀ y ∈ ys, y.leaves.length = n) :
      ((ys.map Yield.leaves).headD []).length = n := by
    cases hys with
    | nil => exact absurd rfl hne
    | cons _ _ => exact hn _ mem_cons_self
  constructor
  · intro h
    split at h
    · exact h.elim
    · rename_i hcount
      obtain ⟨hne, hlen⟩ := not_or.mp hcount
      obtain ⟨_, ⟨ys, n, hys, rfl, _, hn⟩, st, hstart, st', hfolds, hy⟩ := h
      rw [hhead hne hys hn] at hfolds
      exact .mk hne (not_not.mp hlen) hys hn hstart hfolds hy
  · rintro ⟨hne, hlen, hys, hn, hstart, hfolds, hy⟩
    rw [if_neg (by simp [hne, hlen])]
    refine ⟨_, ⟨_, _, hys, rfl, by simp, hn⟩, _, hstart, _, ?_, hy⟩
    rwa [hhead hne hys hn]

omit hM in
theorem yields_tested : Yields (match y.toBool with
    | .ok b => pure b
    | .error f => throw (.filtering position f))
    visited b ↔ y.toBool = .ok b := by
  cases y.toBool with
  | ok c => simp [yields_pure, eq_comm]
  | error g => simp [not_yields_throw]

theorem yields_passes {row : List Value} :
    Yields ((⟨columns, filter.map f, column⟩ : TableRun).passes env position row) visited b ↔
      PassYields M env columns filter row b := by
  rw [passes_eq]
  cases hfilter : filter with
  | none =>
    refine yields_pure.trans ⟨?_, ?_⟩
    · rintro rfl
      exact .all rfl
    · rintro (_ | ⟨h, _⟩)
      · rfl
      · cases h
  | some e =>
    simp only [map_some, yields_ite, yields_bind (hM.keeps e _), hM.yields,
      not_yields_throw]
    constructor
    · intro h
      split at h
      · obtain ⟨y, hy, hb⟩ := h
        exact .tested rfl ‹_› hy (yields_tested.mp hb)
      · exact h.elim
    · rintro (⟨h⟩ | ⟨h, hlen, hy, hb⟩)
      · cases h
      · cases h
        rw [if_pos hlen]
        exact ⟨_, hy, yields_tested.mpr hb⟩

theorem yields_runRows {rows : List (List Value)} :
    Yields (runRows (d.map f) ⟨columns, filter.map f, column⟩ env st position rows) visited st' ↔
      Folds (RowYields M env d columns filter column) st rows st' := by
  induction rows generalizing st position with
  | nil =>
    refine yields_pure.trans ⟨?_, ?_⟩
    · rintro rfl
      exact .nil
    · rintro ⟨⟩
      rfl
  | cons row rows ih =>
    have heq : runRows (d.map f) ⟨columns, filter.map f, column⟩ env st position (row :: rows) =
        (⟨columns, filter.map f, column⟩ : TableRun).passes env position row >>= fun b =>
          (if b then st.step (d.map f) env (d.rowElements column row) (columns.zip row)
            else pure st) >>= fun st =>
            runRows (d.map f) ⟨columns, filter.map f, column⟩ env st (position + 1) rows := by
      rw [runRows]
      congr 1
      funext b
      cases b <;> rfl
    have hstep (b : Bool) : Keeps False (if b then
        st.step (d.map f) env (d.rowElements column row) (columns.zip row) else pure st) :=
      keeps_ite (keeps_step hM.keeps) (keeps_pure _)
    rw [heq, yields_bind (keeps_passes hM.keeps)]
    simp only [yields_bind (hstep _), yields_passes hM, yields_ite, yields_step hM, yields_pure, ih]
    constructor
    · rintro ⟨b, hb, st₁, h, hrest⟩
      cases b with
      | true => exact .cons (.taken hb h) hrest
      | false =>
        cases h
        exact .cons (.dropped hb) hrest
    · rintro (_ | ⟨hrow, hrest⟩)
      cases hrow with
      | dropped hpass => exact ⟨false, hpass, _, rfl, hrest⟩
      | taken hpass h => exact ⟨true, hpass, _, h, hrest⟩

theorem yields_runFoldTable {table : Option Expr} :
    Yields (runFoldTable (d.map f) (inits.map (Option.map f)) folded
        ⟨columns, filter.map f, column⟩ (table.map f) env) visited y ↔
      TableYields M env d inits folded columns filter column table y := by
  have hrows (st : RunFold) (rows cols : Int) (values : List Value)
      (hcols : cols = columns.length) : Keeps False (runRows (d.map f)
        ⟨columns, filter.map f, column⟩ env st 1
        ((rowsOf cols.toNat values.length values).take rows.toNat)) := by
    refine keeps_runRows hM.keeps fun row hrow => ?_
    rw [length_of_mem_rowsOf (mem_of_mem_take hrow), hcols]
    rfl
  rw [runFoldTable_eq, yields_bind (keeps_runChild hM.keeps)]
  simp only [yields_runChild hM]
  constructor
  · rintro ⟨a, ha, h⟩
    split at h
    · rename_i rows cols values
      unfold runFoldRange at h
      simp only [yields_ite, not_yields_throw] at h
      split at h
      · exact h.elim
      · rename_i hcols
        have hcols : cols = columns.length := not_not.mp hcols
        split at h
        · exact h.elim
        · rw [yields_bind (keeps_start hM.keeps)] at h
          simp only [yields_bind (hrows _ rows cols values hcols), yields_start hM,
            yields_runRows hM, yields_ite, not_yields_throw, yields_result hM] at h
          obtain ⟨st, hstart, st', hfolds, h⟩ := h
          split at h
          · exact h.elim
          · exact .mk ha hcols (by omega) hstart hfolds (by omega) h
    · exact (not_yields_throw h).elim
  · rintro ⟨htable, hcols, hcolumn, hstart, hfolds, hall, hy⟩
    refine ⟨_, htable, ?_⟩
    rename_i st st' rows cols values
    unfold runFoldRange
    have hcolumn' : ¬(column < 0 ∨ cols ≤ column) := by omega
    simp only [hcols, ne_eq, not_true_eq_false, if_false] at hcolumn' hfolds hall ⊢
    rw [if_neg hcolumn', yields_bind (keeps_start hM.keeps)]
    refine ⟨st, (yields_start hM).mpr hstart, ?_⟩
    rw [yields_bind (hrows st rows columns.length values rfl)]
    refine ⟨st', (yields_runRows hM).mpr hfolds, ?_⟩
    rw [if_neg (by omega)]
    exact (yields_result hM).mpr hy

end Folds

/-! ## Formulas -/

/-- What a reference to a cell yields; `entered` is what its formula yields among the given
rows. -/
inductive CellYields (ev : Evaluator) (entered : Address → Expr → List Row → Yield → Prop)
    (env : Env) (a : Address) : Yield → Prop
  | row {v : Value} (hrow : env.cell? a = some v) : CellYields ev entered env a (.one v)
  | input {v : Value} (hrow : env.cell? a = none) (hinput : (ev.book.get a).input = true)
      (hv : ev.inputs.cell? a = some v) : CellYields ev entered env a (.one v)
  | formula {f : Expr} {y : Yield} (hrow : env.cell? a = none)
      (hinput : (ev.book.get a).input = false) (hformula : (ev.book.get a).formula = some f)
      (hy : entered a f env.rows y) : CellYields ev entered env a y
  | literal (hrow : env.cell? a = none) (hinput : (ev.book.get a).input = false)
      (hformula : (ev.book.get a).formula = none) :
      CellYields ev entered env a (.one (ev.engine.literal (ev.book.get a).value))

/-- What a node yields, where `M env` says what the parts yield that are run in `env`. -/
inductive NodeYields (ev : Evaluator) (entered : Address → Expr → List Row → Yield → Prop)
    (M : Env → Yielding) (env : Env) : Expr → Yield → Prop
  | constant {v : Value} {t : DataType} : NodeYields ev entered M env (.constant v t) (.one v)
  | operator {op : Op} {args : Children} {t : DataType} {y : Yield}
      (hy : ComputedYields ev.engine (M env) op.compute args y) :
      NodeYields ev entered M env (.operator op args t) y
  | call {fn : String} {args : Children} {t : DataType} {y : Yield}
      (hy : CallYields ev.engine (M env) env fn args y (ofName? fn)) :
      NodeYields ev entered M env (.call fn args t) y
  | cell {a : Address} {y : Yield} (hy : CellYields ev entered env a y) :
      NodeYields ev entered M env (.cell a) y
  | range {rows cols : Int} {elements : Children} {ys : List Yield}
      (hys : Forall₂ (ChildYields (M env)) elements ys) :
      NodeYields ev entered M env (.range rows cols elements)
        (.one (.grid rows cols (ys.map Yield.single)))
  | letIn {name : String} {value body : Option Expr} {x y : Yield}
      (hx : ChildYields (M env) value x) (hy : ChildYields (M (env.set name x)) body y) :
      NodeYields ev entered M env (.letIn name value body) y
  | letVar {name : String} {t : DataType} {y : Yield} (hy : env.find? name = some y) :
      NodeYields ev entered M env (.letVar name t) y
  | splice {elements : Children} {ys : List Yield}
      (hys : Forall₂ (ChildYields (M env)) elements ys) :
      NodeYields ev entered M env (.splice elements) (.many (ys.flatMap Yield.items))
  | switch {selector : Option Expr} {cases : List (Case Expr)} {otherwise : Option Expr}
      {t : DataType} {x y : Yield} (hx : ChildYields (M env) selector x)
      (hy : ChildYields (M env) (chosenBranch cases otherwise (x.toInt leastWord)) y) :
      NodeYields ev entered M env (.switch selector cases otherwise t) y
  | switchCase {c : Case Expr} {y : Yield} (hy : ChildYields (M env) c.branch y) :
      NodeYields ev entered M env (.switchCase c) y
  | fold {form : FoldForm} {d : FoldDef Expr} {seeds : List Expr} {folded : Nat}
      {elements : Children} {t : DataType} {y : Yield}
      (hy : ListYields M env d (d.start seeds) folded elements y) :
      NodeYields ev entered M env (.fold form d seeds folded elements t) y
  | reduce {d : FoldDef Expr} {seed : Option Expr} {folded : Nat}
      {elements : Children} {t : DataType} {y : Yield}
      (hy : ListYields M env d [seed] folded elements y) :
      NodeYields ev entered M env (.reduce d seed folded elements t) y
  | foldArray {d : FoldDef Expr} {array : Option Expr} {t : DataType} {y : Yield}
      (hy : ArrayYields M env d array y) : NodeYields ev entered M env (.foldArray d array t) y
  | foldVectors {d : FoldDef Expr} {seeds : List Expr} {folded : Nat}
      {vectors : Children} {t : DataType} {y : Yield}
      (hy : VectorsYield M env d (d.start seeds) folded vectors y) :
      NodeYields ev entered M env (.foldVectors d seeds folded vectors t) y
  | foldTable {d : FoldDef Expr} {seeds : List Expr} {folded : Nat}
      {columns : Option (List String)} {filter : Option Expr} {column : Int}
      {table : Option Expr} {t : DataType} {y : Yield}
      (hy : TableYields M env d (d.start seeds) folded (columns.getD []) filter column table y) :
      NodeYields ev entered M env (.foldTable d seeds folded columns filter column table t) y
  | parentSection {s : Option String} {inner : Option Expr} {y : Yield}
      (hy : ChildYields (M env.outerRow) inner y) :
      NodeYields ev entered M env (.parentSection s inner) y
  | subSection {s : Option String} {elements : Children} {yss : List (List Yield)}
      (hyss : Forall₂ (fun row ys =>
        Forall₂ (ChildYields (M (env.enterRow row))) elements ys) (ev.inputs.rows s) yss) :
      NodeYields ev entered M env (.subSection s elements)
        (.many (yss.flatMap fun ys => ys.flatMap Yield.items))
  | count {static : Int} {args : Children} :
      NodeYields ev entered M env (.count static args) (.one (.number (Float.ofInt
        (wrap (static + Expr.countRunArgs ev.inputs (trimmed args))))))

namespace Evaluator

variable (ev : Evaluator)

/-- How cells are entered when at most `n` formulas may be entered inside each other. -/
def enter : Nat → Address → Expr → Evaluation
  | 0 => fun _ _ _ => throw .tooDeep
  | n + 1 => fun _ formula => ev.runDeep n formula

theorem runDeep_eq (n : Nat) (e : Expr) : ev.runDeep n e = e.evaluation ev (ev.enter n) := by
  cases n <;> rfl

theorem keeps_run (n : Nat) (e : Expr) (env : Env) : Keeps False (ev.runDeep n e env) :=
  keeps_runDeep False.elim n e env (fun _ => true) False.elim False.elim

theorem keeps_enter (n : Nat) (a : Address) (f : Expr) (env : Env) :
    Keeps False (ev.enter n a f env) := by
  cases n with
  | zero => exact keeps_throw False.elim
  | succ n => exact ev.keeps_run n f env

end Evaluator

/-- An evaluator in the middle of a run: at most `depth` formulas more are entered inside each
other, and the cells `visited` are being run. -/
structure Runner extends Evaluator where
  depth : Nat
  visited : List Address

namespace Runner

variable (ev : Runner)

/-- What a formula yields in an environment. -/
def Runs (env : Env) (e : Expr) (y : Yield) : Prop :=
  Yields (ev.runDeep ev.depth e env) ev.visited y

/-- What the formula of a cell yields once the cell is entered. -/
def Entered (a : Address) (f : Expr) (rows : List Row) (y : Yield) : Prop :=
  a ∉ ev.visited ∧ Yields (ev.enter ev.depth a f ⟨[], some a, rows⟩) (a :: ev.visited) y

theorem reads_run : Reads ev.visited (evaluation ev.toEvaluator (ev.enter ev.depth)) ev.Runs where
  keeps e env := by
    rw [← Evaluator.runDeep_eq]
    exact ev.keeps_run ev.depth e env
  yields e env y := by
    rw [← Evaluator.runDeep_eq]
    rfl

theorem yields_cellForm : Yields (ev.cellForm (ev.enter ev.depth) a env) ev.visited y ↔
      CellYields ev.toEvaluator ev.Entered env a y := by
  unfold Yields
  rw [cellForm_apply]
  constructor
  · intro h
    cases hrow : env.cell? a with
    | some v =>
      rw [hrow] at h
      cases h
      exact .row hrow
    | none =>
      rw [hrow] at h
      dsimp only at h
      split at h
      · rename_i hinput
        split at h
        · cases h
          exact .input hrow hinput ‹_›
        · cases h
      · rename_i hinput
        have hinput : (ev.book.get a).input = false := by simpa using hinput
        split at h
        · rename_i f hformula
          split at h
          · cases h
          · rename_i ha
            have ha : a ∉ ev.visited := by simpa using ha
            refine .formula hrow hinput hformula ⟨ha, ?_⟩
            exact (yields_visiting (ev.keeps_enter ev.depth a f _) ha).mp h
        · cases h
          exact .literal hrow hinput ‹_›
  · rintro (hrow | ⟨hrow, hinput, hv⟩ | ⟨hrow, hinput, hformula, ha, hy⟩ | ⟨hrow, hinput, hformula⟩)
    · rw [hrow]
    · simp only [hrow, hinput, if_true, hv]
    · have hcontains : ev.visited.contains a = false := by simpa using ha
      simp only [hrow, hinput, hformula, hcontains, false_eq_true, if_false]
      exact (yields_visiting (ev.keeps_enter ev.depth a _ _) ha).mpr hy
    · simp only [hrow, hinput, hformula, false_eq_true, if_false]

variable {ev}

theorem runs_call_iff {args : Children} {t : DataType} :
    ev.Runs env (.call fn args t) y ↔
      CallYields ev.engine (ev.Runs env) env fn args y (ofName? fn) := by
  have hM := ev.reads_run
  unfold Runs
  rw [Evaluator.runDeep_eq, evaluation_call]
  generalize ofName? fn = b
  rcases b with _ | b
  · exact yields_runArguments hM
  cases b
  case ifElse => exact yields_ifForm hM
  case and | or => exact yields_boolForm hM
  case row | column => exact yields_positionForm hM
  all_goals exact yields_runArguments hM

/-- **The run of a formula yields what its node yields.** -/
theorem runs_iff : ev.Runs env e y ↔
      NodeYields ev.toEvaluator ev.Entered ev.Runs env e y := by
  have hM := ev.reads_run
  -- Every node has one constructor, whose premise is what its form yields.
  have hnode {e : Expr} {P : Prop}
      (hform : Yields (e.evaluation ev.toEvaluator (ev.enter ev.depth) env) ev.visited y ↔ P)
      (hmk : P → NodeYields ev.toEvaluator ev.Entered ev.Runs env e y)
      (hof : NodeYields ev.toEvaluator ev.Entered ev.Runs env e y → P) :
      ev.Runs env e y ↔
        NodeYields ev.toEvaluator ev.Entered ev.Runs env e y := by
    unfold Runs
    rw [Evaluator.runDeep_eq]
    exact hform.trans ⟨hmk, hof⟩
  cases e with
  | constant v t =>
    refine hnode (P := y = .one v) ?_ (by rintro rfl; exact .constant) (by rintro ⟨⟩; rfl)
    rw [evaluation]
    exact yields_pure
  | operator op args t =>
    refine hnode ?_ .operator (by rintro ⟨⟩; assumption)
    rw [evaluation, evaluationAll_eq]
    exact yields_runArguments hM
  | call fn args t => exact runs_call_iff.trans ⟨.call, by rintro ⟨⟩; assumption⟩
  | cell a =>
    refine hnode ?_ .cell (by rintro ⟨⟩; assumption)
    rw [evaluation]
    exact ev.yields_cellForm
  | range rows cols elements =>
    refine hnode (P := ∃ vs, (∃ ys, Forall₂ (ChildYields (ev.Runs env)) elements ys ∧
      vs = ys.map Yield.single) ∧ y = .one (.grid rows cols vs)) ?_ ?_ ?_
    · rw [evaluation, evaluationAll_eq, yields_bind (keeps_runSingles hM.keeps)]
      simp only [yields_runSingles hM, yields_pure]
    · rintro ⟨_, ⟨ys, hys, rfl⟩, rfl⟩
      exact .range hys
    · intro h
      cases h with
      | range hys => exact ⟨_, ⟨_, hys, rfl⟩, rfl⟩
  | letIn name value body =>
    refine hnode (P := ∃ x, ChildYields (ev.Runs env) value x ∧
      ChildYields (ev.Runs (env.set name x)) body y) ?_ ?_ ?_
    · rw [evaluation, evaluationOption_eq, evaluationOption_eq,
        yields_bind (keeps_runChild hM.keeps)]
      simp only [yields_runChild hM]
    · rintro ⟨x, hx, hy⟩
      exact .letIn hx hy
    · intro h
      cases h with
      | letIn hx hy => exact ⟨_, hx, hy⟩
  | letVar name t =>
    refine hnode (P := env.find? name = some y) ?_ .letVar (by rintro ⟨⟩; assumption)
    rw [evaluation, Evaluator.nameForm]
    cases env.find? name with
    | none => exact iff_of_false not_yields_throw (by simp)
    | some x => simp [yields_pure, eq_comm]
  | splice elements =>
    refine hnode (P := ∃ vs, (∃ ys, Forall₂ (ChildYields (ev.Runs env)) elements ys ∧
      vs = ys.flatMap Yield.items) ∧ y = .many vs) ?_ ?_ ?_
    · rw [evaluation, evaluationAll_eq, yields_bind (keeps_runItems hM.keeps)]
      simp only [yields_runItems hM, yields_pure]
    · rintro ⟨_, ⟨ys, hys, rfl⟩, rfl⟩
      exact .splice hys
    · intro h
      cases h with
      | splice hys => exact ⟨_, ⟨_, hys, rfl⟩, rfl⟩
  | switch selector cases otherwise t =>
    refine hnode (P := ∃ x, ChildYields (ev.Runs env) selector x ∧
      ChildYields (ev.Runs env) (chosenBranch cases otherwise (x.toInt leastWord)) y)
      ?_ (by rintro ⟨_, hx, hy⟩; exact .switch hx hy) (by rintro ⟨⟩; exact ⟨_, ‹_›, ‹_›⟩)
    rw [evaluation, evaluationOption_eq, evaluationOption_eq, evaluationCases_eq]
    exact yields_switchForm hM
  | switchCase c =>
    refine hnode ?_ .switchCase (by rintro ⟨⟩; assumption)
    rw [evaluation, evaluationCase_eq]
    exact yields_runChild hM
  | fold form d seeds folded elements t =>
    refine hnode ?_ .fold (by rintro ⟨⟩; assumption)
    rw [evaluation, evaluationDef_eq, evaluationSeeds_eq, evaluationAll_eq, FoldDef.map_start]
    exact yields_runFold hM
  | reduce d seed folded elements t =>
    refine hnode ?_ .reduce (by rintro ⟨⟩; assumption)
    rw [evaluation, evaluationDef_eq, evaluationOption_eq, evaluationAll_eq,
      ← List.map_singleton (f := Option.map (evaluation ev.toEvaluator (ev.enter ev.depth)))]
    exact yields_runFold hM
  | foldArray d array t =>
    refine hnode ?_ .foldArray (by rintro ⟨⟩; assumption)
    rw [evaluation, evaluationDef_eq, evaluationOption_eq]
    exact yields_runFoldArray hM
  | foldVectors d seeds folded vectors t =>
    refine hnode ?_ .foldVectors (by rintro ⟨⟩; assumption)
    rw [evaluation, evaluationDef_eq, evaluationSeeds_eq, evaluationAll_eq, FoldDef.map_start]
    exact yields_runFoldVectors hM
  | foldTable d seeds folded columns filter column table t =>
    refine hnode ?_ .foldTable (by rintro ⟨⟩; assumption)
    rw [evaluation, evaluationDef_eq, evaluationSeeds_eq, evaluationOption_eq,
      evaluationOption_eq, FoldDef.map_start]
    exact yields_runFoldTable hM
  | parentSection s inner =>
    refine hnode ?_ .parentSection (by rintro ⟨⟩; assumption)
    rw [evaluation, evaluationOption_eq]
    exact yields_runChild hM
  | subSection s elements =>
    refine hnode (P := ∃ vs, (∃ yss, Forall₂ (fun row ys =>
      Forall₂ (ChildYields (ev.Runs (env.enterRow row))) elements ys)
        (ev.inputs.rows s) yss ∧ vs = yss.flatMap fun ys => ys.flatMap Yield.items) ∧
          y = .many vs) ?_ ?_ ?_
    · rw [evaluation, evaluationAll_eq, yields_bind (keeps_rowsForm hM.keeps)]
      simp only [yields_rowsForm hM, yields_pure]
    · rintro ⟨_, ⟨yss, hyss, rfl⟩, rfl⟩
      exact .subSection hyss
    · intro h
      cases h with
      | subSection hyss => exact ⟨_, ⟨_, hyss, rfl⟩, rfl⟩
  | count static args =>
    refine hnode (P := y = .one (.number (Float.ofInt
      (wrap (static + Expr.countRunArgs ev.inputs (trimmed args)))))) ?_
      (by rintro rfl; exact .count) (by rintro ⟨⟩; rfl)
    rw [evaluation]
    exact yields_pure

end Runner

export Runner (runs_iff runs_call_iff)

namespace Evaluator

/-- What a formula yields in an environment, at most `n` formulas deep and while the given cells
are being run. -/
abbrev Runs (ev : Evaluator) (n : Nat) (visited : List Address) : Env → Yielding :=
  Runner.Runs ⟨ev, n, visited⟩

@[inherit_doc Runner.Entered]
abbrev Entered (ev : Evaluator) (n : Nat) (visited : List Address) :=
  Runner.Entered ⟨ev, n, visited⟩

/-- The start of a run: each cell may be entered, and none is being run. -/
abbrev atStart (ev : Evaluator) : Runner := ⟨ev, ev.book.cells.length, []⟩

end Evaluator

/-! ## Other cells being run -/

/-- Succeeding with the same while other cells are being run. -/
def Run.yieldsAgain (visited visited' : List Address) : Congruence False where
  Rel x x' := Keeps False x ∧ Keeps False x' ∧ ∀ a, Yields x visited a → Yields x' visited' a
  pure _ := ⟨keeps_pure _, keeps_pure _, fun _ h => yields_pure.mpr (yields_pure.mp h)⟩
  throw _ := ⟨keeps_throw False.elim, keeps_throw False.elim, fun _ h => absurd h not_yields_throw⟩
  bind := by
    rintro α β x x' k k' ⟨hx, hx', hyields⟩ hk
    refine ⟨hx.bind fun a => (hk a).1, hx'.bind fun a => (hk a).2.1, fun b h => ?_⟩
    obtain ⟨a, ha, hb⟩ := (yields_bind hx).mp h
    exact (yields_bind hx').mpr ⟨a, hyields a ha, (hk a).2.2 b hb⟩

namespace Evaluator

variable {n n' : Nat} {visited visited' : List Address}

/-- A formula yields the same in environments that may be exchanged for each other if the cells that
it refers to do. -/
theorem Runs.of_exchanged {closed : Prop} {inputs' : Inputs} {q : Address → Prop}
    {E : (String → Bool) → Env → Env → Prop} {p : String → Bool}
    (hE : (Run.yieldsAgain visited visited').Exchanges closed ev.inputs inputs' E)
    (hcell : ∀ a, q a → ∀ p env env' y, E p env env' →
      CellYields ev (ev.Entered n visited) env a y → CellYields ⟨ev.engine, ev.book, inputs'⟩
        (Entered ⟨ev.engine, ev.book, inputs'⟩ n' visited') env' a y)
    (he : e.Confined q) (hs : closed → e.isScoped false p = true) (henv : E p env env')
    (hy : ev.Runs n visited env e y) :
    Runs ⟨ev.engine, ev.book, inputs'⟩ n' visited' env' e y := by
  unfold Runs Runner.Runs at hy ⊢
  rw [runDeep_eq] at hy ⊢
  refine (Run.Congruence.exchanged hE (fun a ha p env env' h => ?_) e he env env' p hs
    henv).2.2 y hy
  refine ⟨keeps_cellForm fun f _ => ev.keeps_enter n a f _,
    keeps_cellForm fun f _ => keeps_enter _ n' a f _, fun y hy => ?_⟩
  have hy := hcell a ha p env env' y h ((Runner.yields_cellForm ⟨ev, n, visited⟩).mp hy)
  exact (Runner.yields_cellForm ⟨⟨ev.engine, ev.book, inputs'⟩, n', visited'⟩).mpr hy

theorem Runs.of_entered
    (h : ∀ a f rows y, ev.Entered n visited a f rows y → ev.Entered n' visited' a f rows y)
    (hy : ev.Runs n visited env e y) : ev.Runs n' visited' env e y := by
  refine Runs.of_exchanged ((Run.yieldsAgain visited visited').exchanges_same ev.inputs)
    (fun a _ p env env' y henv hy => ?_) (Expr.confined_of_mentions fun _ => id)
    (p := fun _ => true) False.elim ⟨rfl, False.elim⟩ hy
  rw [henv.1]
  cases hy with
  | row hrow => exact .row hrow
  | input hrow hinput hv => exact .input hrow hinput hv
  | formula hrow hinput hformula hy => exact .formula hrow hinput hformula (h _ _ _ _ hy)
  | literal hrow hinput hformula => exact .literal hrow hinput hformula

/-- A run that may enter more formulas, while fewer cells are being run, yields the same. -/
theorem Runs.mono (h : ev.Runs n visited env e y) (hn : n ≤ n') (hvisited : visited' ⊆ visited) :
    ev.Runs n' visited' env e y := by
  induction n generalizing n' visited visited' env e y with
  | zero => exact Runs.of_entered (fun a f rows y hy => absurd hy.2 Run.not_yields_throw) h
  | succ n ih =>
    obtain ⟨m, rfl⟩ : ∃ m, n' = m + 1 := ⟨n' - 1, by omega⟩
    refine Runs.of_entered (fun a f rows y hy => ⟨fun ha => hy.1 (hvisited ha), ?_⟩) h
    exact ih hy.2 (by omega) (List.cons_subset_cons a hvisited)

end Evaluator

end FormulaFold
