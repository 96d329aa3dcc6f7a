import FormulaFold.Proofs.Upholding

/-! # Constants that convert

Ahead of the run a splice inside of an aggregate is an array, whereas a run puts its values among
those around it.  A conversion to a truth value or to text does not see the difference where it
succeeds: it looks into arrays of one value only.  **The truth and the text that are known of a
constant are those that a run finds** (`truthOf_of_runs`, `joinTexts_of_runs`).
-/
namespace FormulaFold

open Builtin

variable {α β ε : Type} {ev : Runner} {env : Env} {e : Expr}
  {y : Yield} {v : Value} {vs ws : List Value} {ys : List Yield} {b : β}

/-- A conversion that looks into arrays of one value and into no others. -/
structure Value.Unwraps (conv : Value → Except Failure β) : Prop where
  one : ∀ rows cols v, conv (.array rows cols [v]) = conv v
  only : ∀ {rows cols vs b}, conv (.array rows cols vs) = .ok b → ∃ v, vs = [v]

theorem Value.unwraps_toBool : Unwraps toBool where
  one _ _ _ := by rw [toBool]
  only {_ _ vs _} h := by
    rcases vs with _ | ⟨v, _ | _⟩
    · cases h
    · exact ⟨v, rfl⟩
    · cases h

theorem Value.unwraps_toText : Unwraps toText where
  one _ _ _ := by rw [toText]
  only {_ _ vs _} h := by
    rcases vs with _ | ⟨v, _ | _⟩
    · cases h
    · exact ⟨v, rfl⟩
    · cases h

/-! ## Lists of values -/

theorem exists_of_mapM {f : α → Except ε β} {xs : List α} {bs : List β} (h : xs.mapM f = .ok bs) :
    ∀ x ∈ xs, ∃ b, f x = .ok b := by
  induction xs generalizing bs with
  | nil => simp
  | cons x xs ih =>
    rw [List.mapM_cons] at h
    cases hx : f x with
    | error e =>
      rw [hx] at h
      cases h
    | ok b =>
      cases hxs : xs.mapM f with
      | error e =>
        rw [hx, hxs] at h
        cases h
      | ok bs => exact forall_mem_cons.mpr ⟨⟨b, hx⟩, ih hxs⟩

theorem mapM_eq_of_map_eq {f : α → Except ε β} {xs xs' : List α} (h : xs.map f = xs'.map f) :
    xs.mapM f = xs'.mapM f := by
  have hid (xs : List α) : xs.mapM f = (xs.map f).mapM id := by rw [List.mapM_map]; rfl
  rw [hid, hid, h]

theorem allTrue_eq (vs : List Value) : allTrue vs = (·.all id) <$> vs.mapM Value.toBool := by
  induction vs with
  | nil => rfl
  | cons v vs ih =>
    rw [allTrue, ih, List.mapM_cons]
    cases v.toBool <;> cases vs.mapM Value.toBool <;> rfl

theorem anyTrue_eq (vs : List Value) : anyTrue vs = (·.any id) <$> vs.mapM Value.toBool := by
  induction vs with
  | nil => rfl
  | cons v vs ih =>
    rw [anyTrue, ih, List.mapM_cons]
    cases v.toBool <;> cases vs.mapM Value.toBool <;> rfl

theorem joinTexts_eq (vs : List Value) : joinTexts vs = String.join <$> vs.mapM Value.toText := by
  induction vs with
  | nil => rfl
  | cons v vs ih =>
    rw [joinTexts, ih, List.mapM_cons]
    cases v.toText <;> cases vs.mapM Value.toText <;>
      simp [bind, Except.bind, pure, Except.pure, Functor.map, Except.map]

theorem flat_append (vs ws : List Value) : flat (vs ++ ws) = flat vs ++ flat ws := by
  induction vs with
  | nil => rfl
  | cons v vs ih => cases v <;> simp [flat, ih]

theorem exists_grid_eq (rows cols : Int) (vs : List Value) :
    ∃ rows' cols', Value.grid rows cols vs = .array rows' cols' vs := by
  unfold Value.grid
  split
  · exact ⟨_, _, rfl⟩
  · exact ⟨_, _, rfl⟩

theorem flat_singleton_grid (rows cols : Int) (vs : List Value) :
    flat [Value.grid rows cols vs] = vs := by
  obtain ⟨rows', cols', hgrid⟩ := exists_grid_eq rows cols vs
  rw [hgrid, flat, flat, append_nil]

/-! ## Constants -/

theorem isConstant_of_isAggregate (h : e.isAggregate = true) :
    (ofExpr e).isConstant = true := by
  cases e <;> first | cases h | exact h

theorem allAggregate_some_cons (x : Expr) (es : Children) :
    Expr.allAggregate (some x :: es) =
      ((ofExpr x).isConstant && Expr.allAggregate es) := by
  cases x <;> rfl

section Unwraps

variable {conv : Value → Except Failure β} (hconv : Value.Unwraps conv)
include hconv

theorem Value.Unwraps.grid (rows cols : Int) (v : Value) : conv (.grid rows cols [v]) = conv v := by
  obtain ⟨rows', cols', hgrid⟩ := exists_grid_eq rows cols [v]
  rw [hgrid, hconv.one]

theorem Value.Unwraps.exists_of_grid (h : conv (.grid rows cols vs) = .ok b) : ∃ v, vs = [v] := by
  obtain ⟨rows', cols', hgrid⟩ := exists_grid_eq rows cols vs
  rw [hgrid] at h
  exact hconv.only h

theorem Value.Unwraps.single (h : y.items = [v]) : conv y.single = conv v := by
  cases y with
  | one u =>
    cases h
    rfl
  | many us =>
    obtain rfl : us = [v] := h
    exact hconv.grid 1 ([v].length) v

/-- A constant that converts yields one value, which converts to the same. -/
theorem exists_item_of_converts (he : (ofExpr e).isConstant = true)
    (hb : conv e.materialize = .ok b) (hy : ev.Runs env e y) :
    ∃ v, y.items = [v] ∧ conv v = .ok b := by
  induction e using induction_on_parts generalizing y with
  | step e ih =>
  -- An aggregate that converts has one element.
  have helement {es : Children} {rows cols : Int} {ys : List Yield}
      (hagg : Expr.allAggregate es = true) (hparts : ∀ x, some x ∈ es → x ∈ e.parts)
      (hb : conv (.grid rows cols (materializeAll es)) = .ok b)
      (hys : Forall₂ (ChildYields (ev.Runs env)) es ys) :
      ∃ y v, ys = [y] ∧ y.items = [v] ∧ conv v = .ok b := by
    obtain ⟨m, hm⟩ := hconv.exists_of_grid hb
    rw [hm, hconv.grid] at hb
    rcases es with _ | ⟨_ | x, _ | ⟨x', es⟩⟩
    · cases hm
    · cases hagg
    · cases hagg
    · rw [allAggregate_some_cons, and_eq_true] at hagg
      cases hm
      obtain _ | ⟨hx, ⟨⟩⟩ := hys
      obtain ⟨v, hv, hb⟩ := ih x (.part (hparts x mem_cons_self)) hagg.1 hb hx
      exact ⟨_, v, rfl, hv, hb⟩
    · cases x' <;> cases hm
  cases e with
  | constant v t =>
    rw [runs_constant.mp hy]
    exact ⟨v, rfl, hb⟩
  | range rows cols es =>
    obtain ⟨ys, hys, rfl⟩ := runs_range.mp hy
    obtain ⟨y, v, rfl, hv, hb⟩ := helement he (by simp [parts]) hb hys
    exact ⟨_, rfl, by rw [List.map_singleton, hconv.grid, hconv.single hv, hb]⟩
  | splice es =>
    obtain ⟨ys, hys, rfl⟩ := runs_splice.mp hy
    obtain ⟨y, v, rfl, hv, hb⟩ := helement he (by simp [parts]) hb hys
    exact ⟨v, by simpa [Yield.items] using hv, hb⟩
  | _ => cases he

/-- The elements of an aggregate convert alike ahead of the run and in it. -/
theorem map_conv_of_runs {es : Children} (hes : Expr.allAggregate es = true)
    (hall : ∀ v ∈ materializeAll es, ∃ b, conv v = .ok b)
    (hys : Forall₂ (ChildYields (ev.Runs env)) es ys) :
    (ys.map Yield.single).map conv = (materializeAll es).map conv ∧
      (ys.flatMap Yield.items).map conv = (materializeAll es).map conv := by
  induction hys with
  | nil => exact ⟨rfl, rfl⟩
  | @cons x y es ys hx _ ih =>
    cases x with
    | none => cases hes
    | some x =>
      rw [allAggregate_some_cons, and_eq_true] at hes
      have hall := forall_mem_cons.mp hall
      obtain ⟨b, hb⟩ := hall.1
      obtain ⟨v, hv, hvb⟩ := exists_item_of_converts hconv hes.1 hb hx
      obtain ⟨hsingles, hitems⟩ := ih hes.2 hall.2
      rw [materializeAll, map_cons, map_cons, map_cons, flatMap_cons,
        map_append, hsingles, hitems, hconv.single hv, hv, hvb, hb]
      exact ⟨rfl, by rw [List.map_singleton, hvb]; rfl⟩

end Unwraps

/-! ## Truths -/

section Truths

variable {fn : String} (hfn : ofName? fn = some .and ∨ ofName? fn = some .or)
include hfn

/-- `AND` and `OR` of an array are those of the truths of its values, all of which convert. -/
theorem call_array_of_map_toBool (engine : Engine) {rows cols rows' cols' : Int}
    (h : (engine.call fn [.array rows cols vs]) = .ok v) :
    (∀ u ∈ vs, ∃ b, u.toBool = .ok b) ∧ ∀ ws, ws.map Value.toBool = vs.map Value.toBool →
      engine.call fn [.array rows' cols' ws] = .ok v := by
  have hflat (rows cols : Int) (vs : List Value) : flat [.array rows cols vs] = vs := by
    rw [flat, flat, append_nil]
  have hempty {ws : List Value} (hws : ws.map Value.toBool = vs.map Value.toBool) :
      ws.isEmpty = vs.isEmpty := by
    have := congrArg List.length hws
    simp only [length_map] at this
    cases ws <;> cases vs <;> simp_all
  rcases hfn with hfn | hfn
  all_goals
    simp only [Engine.call, hfn, compute, hflat, allTrue_eq, anyTrue_eq] at h ⊢
    cases hvs : vs.mapM Value.toBool with
    | error f =>
      rw [hvs] at h
      split at h <;> cases h
    | ok bs =>
      refine ⟨exists_of_mapM hvs, fun ws hws => ?_⟩
      rw [hempty hws, mapM_eq_of_map_eq hws]
      exact h

/-- A run of a constant finds the truth that is known of it. -/
theorem truthOf_of_runs {site : Site} (hengine : site.engine = ev.engine) {o : Outcome} {b : Bool}
    (h : site.truthOf? fn o = some b) (hy : ev.Runs env o.expr y) :
    ev.engine.truthOf fn y = .ok b := by
  unfold Site.truthOf? at h
  split at h
  case isFalse => cases h
  rename_i hconst
  have hresult : site.truthResult fn o = .ok b := by
    cases hresult : site.truthResult fn o with
    | error f =>
      rw [hresult] at h
      cases h
    | ok b' =>
      rw [hresult] at h
      cases h
      rfl
  rw [← hengine]
  cases o with
  | known v t =>
    rw [runs_constant.mp hy]
    cases v with
    | array rows cols vs =>
      obtain ⟨v, rfl⟩ := Value.unwraps_toBool.only hresult
      have hv : v.toBool = .ok b := (Value.unwraps_toBool.one rows cols v).symm.trans hresult
      rcases hfn with hfn | hfn
      all_goals simp [Engine.truthOf, Yield.single, Engine.call, hfn, compute, flat, allTrue,
        anyTrue, hv, bind, Except.bind, pure, Except.pure, Value.toBool]
    | _ => exact hresult
  | residual e =>
    -- What a run finds is the call of an array of values that convert like those of the aggregate.
    have harray {rows cols rows' cols' : Int} {es : Children} {ws : List Value}
        (he : e.materialize = .grid rows cols (materializeAll es))
        (hsingle : y.single = .grid rows' cols' ws)
        (hws : (∀ v ∈ materializeAll es, ∃ b, v.toBool = .ok b) →
          ws.map Value.toBool = (materializeAll es).map Value.toBool) :
        site.engine.truthOf fn y = .ok b := by
      obtain ⟨r, c, hgrid⟩ := exists_grid_eq rows cols (materializeAll es)
      obtain ⟨r', c', hgrid'⟩ := exists_grid_eq rows' cols' ws
      rw [Site.truthResult, he, hgrid] at hresult
      simp only [Engine.truthOf, hsingle, hgrid']
      cases hcall : site.engine.call fn [.array r c (materializeAll es)] with
      | error f =>
        rw [hcall] at hresult
        cases hresult
      | ok v =>
        obtain ⟨hall, hcall'⟩ := call_array_of_map_toBool hfn site.engine hcall
        rw [hcall' ws (hws hall), ← hresult, hcall]
    cases e with
    | range rows cols es =>
      obtain ⟨ys, hys, rfl⟩ := runs_range.mp hy
      exact harray rfl rfl fun hall => (map_conv_of_runs Value.unwraps_toBool hconst hall hys).1
    | splice es =>
      obtain ⟨ys, hys, rfl⟩ := runs_splice.mp hy
      exact harray rfl rfl fun hall => (map_conv_of_runs Value.unwraps_toBool hconst hall hys).2
    | _ => cases hconst

end Truths

/-! ## Texts -/

/-- Values are the same texts ahead of the run and in it if those of each formula are. -/
theorem map_toText_flatMap {M : α → Yield → Prop} {f : α → List Value} {xs : List α}
    (hM : ∀ x ∈ xs, ∀ y, (∀ v ∈ flat (f x), ∃ s, v.toText = .ok s) → M x y →
      (flat y.items).map Value.toText = (flat (f x)).map Value.toText)
    (hall : ∀ v ∈ flat (xs.flatMap f), ∃ s, v.toText = .ok s) (hys : Forall₂ M xs ys) :
    (flat (ys.flatMap Yield.items)).map Value.toText =
      (flat (xs.flatMap f)).map Value.toText := by
  induction hys with
  | nil => rfl
  | cons hy _ ih =>
    rw [flatMap_cons, flat_append] at hall
    have hM := forall_mem_cons.mp hM
    have hall := forall_mem_append.mp hall
    rw [flatMap_cons, flatMap_cons, flat_append, flat_append, map_append,
      map_append, hM.1 _ hall.1 hy, ih hM.2 hall.2]

theorem spliceAll_eq_flatMap (es : Children) :
    Expr.spliceAll es = es.flatMap fun e => e.elim [.null] Expr.spliceValues := by
  induction es with
  | nil => simp [Expr.spliceAll]
  | cons e es ih => cases e <;> simp [Expr.spliceAll, ih]

theorem map_toText_of_runs (he : (ofExpr e).isConstant = true)
    (hall : ∀ v ∈ flat e.spliceValues, ∃ s, v.toText = .ok s) (hy : ev.Runs env e y) :
    (flat y.items).map Value.toText = (flat e.spliceValues).map Value.toText := by
  induction e using induction_on_parts generalizing y with
  | step e ih =>
  cases e with
  | constant v t =>
    rw [runs_constant.mp hy]
    rfl
  | range rows cols es =>
    obtain ⟨ys, hys, rfl⟩ := runs_range.mp hy
    simp only [Expr.spliceValues, Expr.materialize, flat_singleton_grid, Yield.items] at hall ⊢
    exact (map_conv_of_runs Value.unwraps_toText he hall hys).1
  | splice es =>
    obtain ⟨ys, hys, rfl⟩ := runs_splice.mp hy
    rw [Expr.spliceValues, spliceAll_eq_flatMap] at hall ⊢
    refine map_toText_flatMap (fun x hx y hall hy => ?_) hall hys
    cases x with
    | none =>
      obtain rfl : y = .one .null := hy
      rfl
    | some x =>
      have hconst : (ofExpr x).isConstant = true := by
        obtain ⟨_, ⟨⟩, hx | ⟨v, t, rfl⟩⟩ := Expr.allAggregate_iff.mp he _ hx
        · exact isConstant_of_isAggregate hx
        · rfl
      exact ih x (.part (by simpa [parts] using hx)) hconst hall hy
  | _ => cases he

/-- A run of constants finds the text that is known of them. -/
theorem joinTexts_of_runs {os : List Outcome} {s : String}
    (hconst : ∀ o ∈ os, o.isConstant = true) (hs : joinTexts (flat (Outcome.values os)) = .ok s)
    (hys : Forall₂ (fun o => ev.Runs env o.expr) os ys) :
    joinTexts (flat (ys.flatMap Yield.items)) = .ok s := by
  have hall : ∀ v ∈ flat (os.flatMap Outcome.arguments), ∃ s, v.toText = .ok s := by
    cases htexts : (flat (Outcome.values os)).mapM Value.toText with
    | error f =>
      rw [joinTexts_eq, htexts] at hs
      cases hs
    | ok ss => exact exists_of_mapM htexts
  rw [← hs, joinTexts_eq, joinTexts_eq, mapM_eq_of_map_eq]
  refine map_toText_flatMap (fun o ho y hall hy => ?_) hall hys
  cases o with
  | known v t => exact map_toText_of_runs (e := .constant v t) rfl hall hy
  | residual e => exact map_toText_of_runs (isConstant_of_isAggregate (hconst _ ho)) hall hy

end FormulaFold
