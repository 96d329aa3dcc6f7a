import FormulaFold.Proofs.Complaints
import FormulaFold.Proofs.Laws
import FormulaFold.Proofs.Preservation
import FormulaFold.Proofs.Transparency
import Mathlib.Tactic.Linarith

/-! # Selecting ahead of the run

`INDEX` with known indices into a range that is written in the formula is settled without the
engine.  What the walk finds out about the indices is what the engine finds out (`Foretells`):
**where the walk rejects an index the engine fails, and the element that the walk selects is the one
that the engine selects** (`call_index_of_optimize`).
-/
namespace FormulaFold

open Walk Builtin

variable {t : DataType} {f : Failure} {x : Float} {os : List Outcome} {r : Outcome}

/-! ## Selections -/

section Engine

open Float.Model UnpackedFloat

/-- The bits of the exponent are all set in a number that is not finite. -/
theorem exponentBits_of_not_isFinite (h : isFinite x = false) :
    x.toBits.toNat / Nat.pow 2 52 % Nat.pow 2 11 = 2047 := by
  have hunpack : (!x.toModel.unpack.isNaN && !x.toModel.unpack.isInf) = false := h
  have hbits : (@unpackExponent double x.toModel.toBits.toBitVec).toNat =
      x.toBits.toNat / Nat.pow 2 52 % Nat.pow 2 11 := by
    simp [unpackExponent, BitVec.extractLsb, Nat.shiftRight_eq_div_pow]
    rfl
  rw [← hbits]
  by_cases hexponent : @unpackExponent double x.toModel.toBits.toBitVec = -1#_
  · rw [hexponent]
    rfl
  · unfold Float.Model.unpack UnpackedFloat.unpack at hunpack
    dsimp only at hunpack
    rw [if_neg hexponent] at hunpack
    by_cases hzero : @unpackExponent double x.toModel.toBits.toBitVec = 0#_
    · rw [if_pos hzero] at hunpack
      by_cases hmantissa : @unpackMantissa double x.toModel.toBits.toBitVec = 0#_
      · rw [dif_pos hmantissa] at hunpack
        cases hunpack
      · rw [dif_neg hmantissa] at hunpack
        cases hunpack
    · rw [if_neg hzero] at hunpack
      cases hunpack

/-- A number that is not finite fits no word. -/
theorem truncate_of_not_isFinite (h : isFinite x = false) : truncate x = leastWord := by
  have hbits := exponentBits_of_not_isFinite h
  have hofFloat : Decimal.Binary.ofFloat x =
      ⟨Nat.pow 2 52 + x.toBits.toNat % Nat.pow 2 52, 972⟩ := by
    unfold Decimal.Binary.ofFloat
    dsimp only
    rw [hbits]
    rfl
  unfold truncate
  simp only [hofFloat, if_pos (show (0 : Int) ≤ 972 by decide)]
  generalize hk : (972 : Int).toNat = k
  have hlarge : Nat.pow 2 52 * Nat.pow 2 11 ≤
      (Nat.pow 2 52 + x.toBits.toNat % Nat.pow 2 52) * Nat.pow 2 k :=
    Nat.mul_le_mul (Nat.le_add_right _ _) (Nat.pow_le_pow_right (by decide) (by omega))
  generalize (Nat.pow 2 52 + x.toBits.toNat % Nat.pow 2 52) * Nat.pow 2 k = n at hlarge ⊢
  have hlarge : 0x8000000000000000 ≤ n := hlarge
  have hleast (i : Int) (hi : i = -n ∨ i = n) :
      (if fitsWord i then i else leastWord) = leastWord := by
    split
    · rename_i hfits
      simp only [fitsWord, and_eq_true, decide_eq_true_eq] at hfits
      unfold leastWord
      omega
    · rfl
  exact hleast _ (ite_eq_or_eq _ _ _)

/-- What is no index ahead of the run is cut off to the least word. -/
theorem truncate_of_indexOf?_none (h : indexOf? (.known v t) = none)
    (hx : v.toNumber = .ok x) : truncate x = leastWord := by
  simp only [indexOf?, Value.toInt, hx] at h
  by_cases hfinite : isFinite x = true
  · rw [if_pos hfinite] at h
    by_contra hne
    simp [hne] at h
  · exact truncate_of_not_isFinite (by simpa using hfinite)

end Engine

section Selections

variable {rows cols : Int} {vs : List Value} {v w : Value}

/-- An index that is no number fails. -/
theorem select_error (source : Value) (rest : List Value) (hv : v.toNumber = .error f) :
    ∃ g, select (source :: v :: rest) = .error g :=
  ⟨f, by simp only [select, numberAt_one, hv, bind, Except.bind]⟩

theorem select_one (hx : v.toNumber = .ok x) (hshape : ¬(1 < rows ∧ 1 < cols))
    (hlow : 1 ≤ truncate x) (hu : vs[(truncate x - 1).toNat]? = some u) :
    select [.array rows cols vs, v] = .ok u := by
  have harg : arg? [.array rows cols vs, v] 2 = none := rfl
  rw [show (truncate x - 1).toNat = (truncate x).toNat - 1 by omega] at hu
  simp only [select, numberAt_one, hx, harg, bind, Except.bind, if_neg hshape, if_pos hlow, hu]
  rfl

theorem select_one_error (hx : v.toNumber = .ok x)
    (hout : 1 < rows ∧ 1 < cols ∨ truncate x < 1 ∨ vs.length < truncate x) :
    ∃ f, select [.array rows cols vs, v] = .error f := by
  have harg : arg? [.array rows cols vs, v] 2 = none := rfl
  simp only [select, numberAt_one, hx, harg, bind, Except.bind]
  by_cases hshape : 1 < rows ∧ 1 < cols
  · exact ⟨.indexColumn rows cols, by rw [if_pos hshape]; rfl⟩
  · refine ⟨.indexRange (truncate x), ?_⟩
    have hnone : (if 1 ≤ truncate x then vs[(truncate x).toNat - 1]? else none) = none := by
      split
      · exact List.getElem?_eq_none (by omega)
      · rfl
    rw [if_neg hshape, hnone]
    rfl

theorem select_two (hx : v.toNumber = .ok x) (hz : w.toNumber = .ok z) (hw : w.isNull = false) :
    select [.array rows cols vs, v, w] =
      if truncate x < 1 ∨ truncate z < 1 ∨ rows < truncate x ∨ cols < truncate z then
        .error (.indexPairRange (truncate x) (truncate z))
      else elementAt cols vs (truncate x - 1) (truncate z - 1) := by
  have harg : arg? [.array rows cols vs, v, w] 2 = some w := by simp [arg?, hw]
  simp only [select, numberAt_one, hx, hz, harg, bind, Except.bind]
  split <;> rfl

theorem select_two_error (source : Value) (hx : v.toNumber = .ok x) (hz : w.toNumber = .error f) :
    ∃ g, select [source, v, w] = .error g := by
  have harg : arg? [source, v, w] 2 = some w := by
    cases w
    case null => cases hz
    all_goals rfl
  exact ⟨f, by simp only [select, numberAt_one, hx, hz, harg, bind, Except.bind]⟩

/-- What a place says of the selection: a complaint that it fails, a place what it gives. -/
def Foretells (vs : List Value) (result : Except Failure Value) : Except Complaint Int → Prop
  | .error _ => ∃ f, result = .error f
  | .ok p => ∀ u, 0 ≤ p → vs[p.toNat]? = some u → result = .ok u

variable {grid : Grid} {t' : DataType} (hshape : grid.rows * grid.cols = vs.length)
  (hside : 0 ≤ grid.rows ∨ 0 ≤ grid.cols)
include hshape hside

/-- The array of a range has its shape, unless both are empty. -/
theorem grid_of_shape :
    (Value.grid grid.rows grid.cols vs = .array grid.rows grid.cols vs ∧
      0 < grid.rows ∧ 0 < grid.cols ∧ grid.rows ≤ vs.length ∧ grid.cols ≤ vs.length) ∨
    (Value.grid grid.rows grid.cols vs = .array 1 0 [] ∧ vs = [] ∧
      (grid.rows ≤ 0 ∨ grid.cols ≤ 0)) := by
  by_cases hempty : grid.rows ≤ 0 ∨ grid.cols ≤ 0
  · have hnil : vs = [] := by
      by_contra hne
      have hpos := length_pos_iff.mpr hne
      have hsides := pos_and_pos_or_neg_and_neg_of_mul_pos
        (show 0 < grid.rows * grid.cols by omega)
      omega
    subst hnil
    exact .inr ⟨by rw [Value.grid, if_pos hempty]; rfl, rfl, hempty⟩
  · refine .inl ⟨by rw [Value.grid, if_neg hempty], by omega, by omega, ?_, ?_⟩
    · exact hshape ▸ le_mul_of_one_le_right (by omega) (by omega)
    · exact hshape ▸ le_mul_of_one_le_left (by omega) (by omega)

/-- **One index ahead of the run is the index of the engine.** -/
theorem foretells_place? (hlength : grid.elements.length = vs.length)
    (hk : indexOf? (.known v t) = some k) (h : grid.place? k = some place) :
    Foretells vs (select [.grid grid.rows grid.cols vs, v]) place := by
  obtain ⟨x, hx, rfl⟩ := toNumber_of_indexOf? hk
  obtain ⟨rows, cols, hgrid, hrows⟩ : ∃ rows cols, Value.grid grid.rows grid.cols vs =
      .array rows cols vs ∧ (1 < rows ∧ 1 < cols → 1 < grid.rows ∧ 1 < grid.cols) := by
    obtain ⟨hgrid, _⟩ | ⟨hgrid, rfl, _⟩ := grid_of_shape hshape hside
    · exact ⟨_, _, hgrid, id⟩
    · exact ⟨_, _, hgrid, by omega⟩
  rw [hgrid]
  simp only [Grid.place?, hlength] at h
  split at h
  · cases h
  · split at h
    · cases h
      exact select_one_error hx (by omega)
    · split at h
      · cases h
        exact select_one_error hx (by omega)
      · cases h
        exact fun u _ hu => select_one hx (by omega) (by omega) hu

/-- **A row and a column ahead of the run are those of the engine**, unless the column is blank. -/
theorem foretells_placeAt (hk : indexOf? (.known v t) = some k)
    (hl : indexOf? (.known w t') = some l) (hw : w.isNull = false) (h : grid.placeAt k l = place) :
    Foretells vs (select [.grid grid.rows grid.cols vs, v, w]) place := by
  obtain ⟨x, hx, rfl⟩ := toNumber_of_indexOf? hk
  obtain ⟨z, hz, rfl⟩ := toNumber_of_indexOf? hl
  unfold Grid.placeAt at h
  obtain ⟨hgrid, _⟩ | ⟨hgrid, rfl, _⟩ := grid_of_shape hshape hside
  · rw [hgrid, select_two hx hz hw]
    split at h
    · subst h
      exact ⟨_, if_pos (by omega)⟩
    · split at h
      · subst h
        exact ⟨_, if_pos (by omega)⟩
      · subst h
        intro u hp hu
        rw [if_neg (by omega), elementAt]
        simp only [if_pos hp, hu]
  · rw [hgrid, select_two hx hz hw]
    split at h
    · subst h
      exact ⟨_, if_pos (by omega)⟩
    · rw [if_pos (by omega)] at h
      subst h
      exact ⟨_, if_pos (by omega)⟩

/-- Where one index is not used ahead of the run, the engine fails. -/
theorem select_one_fails (h : (indexOf? (.known v t)).bind grid.place? = none) :
    ∃ f, select [.grid grid.rows grid.cols vs, v] = .error f := by
  cases hx : v.toNumber with
  | error f => exact select_error _ _ hx
  | ok x =>
    have hout : 1 < grid.rows ∧ 1 < grid.cols ∨ truncate x < 1 ∨ vs.length < truncate x := by
      cases hk : indexOf? (.known v t) with
      | none => exact .inr (.inl (by rw [truncate_of_indexOf?_none hk hx]; decide))
      | some k =>
        rw [hk, bind_some] at h
        unfold Grid.place? at h
        grind
    obtain ⟨hgrid, _⟩ | ⟨hgrid, rfl, _⟩ := grid_of_shape hshape hside
    · rw [hgrid]
      exact select_one_error hx (by omega)
    · rw [hgrid]
      exact select_one_error hx (by rw [List.length_nil]; omega)

/-- Where a row or a column is not used ahead of the run, the engine fails. -/
theorem select_two_fails
    (h : indexOf? (.known v t) = none ∨ indexOf? (.known w t') = none) (hw : w.isNull = false) :
    ∃ f, select [.grid grid.rows grid.cols vs, v, w] = .error f := by
  cases hx : v.toNumber with
  | error f => exact select_error _ _ hx
  | ok x =>
    cases hz : w.toNumber with
    | error f => exact select_two_error _ hx hz
    | ok z =>
      have hleast : leastWord < 1 := by decide
      have hout := h.imp (truncate_of_indexOf?_none · hx) (truncate_of_indexOf?_none · hz)
      obtain ⟨hgrid, _⟩ | ⟨hgrid, rfl, _⟩ := grid_of_shape hshape hside
      · rw [hgrid, select_two hx hz hw]
        exact ⟨_, if_pos (by omega)⟩
      · rw [hgrid, select_two hx hz hw]
        exact ⟨_, if_pos (by omega)⟩

end Selections

/-! ## Selecting ahead of the run -/

/-- What a walk that selects has to do with the selection of the engine: a known value is the one
that is selected, and where the walk complains about an index the selection fails. -/
def Anticipates (result : Except Failure Value) : EStateM.Result Fault WalkState Outcome → Prop
  | .ok (.known v _) _ => result = .ok v
  | .ok (.residual _) _ => True
  | .error f _ =>
    f.isOf .valueOutOfRange = true ∨ f.isOf .refOutOfRange = true → ∃ g, result = .error g

/-- The range that is written with the given constants. -/
def Expr.table (rows cols : Int) (cs : List Constant) : Expr :=
  .range rows cols (cs.map fun c => some (.constant c.value c.type))

section Walks

variable {opt : Optimizer} {book : Workbook} {n : Nat} {origin : Option Address} {rows cols : Int}
  {cs : List Constant} {result : Except Failure Value} {site : Site} {s s' : WalkState}

theorem anticipates_of_fails {x : Action} (hfails : ∃ f, result = .error f)
    (hx : ∀ v t s', x s ≠ .ok (.known v t) s') : Anticipates result (x s) := by
  unfold Anticipates
  split
  · exact absurd ‹_› (hx _ _ _)
  · trivial
  · exact fun _ => hfails

theorem anticipates_walkAt {grid : Grid}
    (helements : grid.elements = cs.map fun c => some (pure (.constant c.value c.type)))
    (h : Foretells (cs.map Constant.value) result place) :
    Anticipates result (grid.walkAt site node place s) := by
  cases place with
  | error c => exact fun _ => h
  | ok p =>
    simp only [Grid.walkAt, helements, getElem?_map]
    by_cases hp : 0 ≤ p
    · rw [if_pos hp]
      cases hc : cs[p.toNat]? with
      | none => exact fun hf => absurd hf (by simp [Fault.isOf])
      | some c => exact h c.value hp (by rw [getElem?_map, hc]; rfl)
    · rw [if_neg hp]
      exact fun hf => absurd hf (by simp [Fault.isOf])

/-- A call whose computation fails is not known. -/
theorem settle_ne_known {fn : String} {args : Children}
    {compute : Computation} (hf : compute (Outcome.values os) = .error f)
    (v : Value) (t' : DataType) :
    site.settle (.call fn args t) compute os s ≠ .ok (.known v t') s' := by
  intro h
  let J := giving site.book (Earned (fun _ => True) site.book) False (fun _ => True) s.memo s'.memo
  have hholds : J.Holds True s.bindings (site.settle (.call fn args t) compute os)
      (Settles False site (.call fn args t) compute os) :=
    holds_settle
  have hsettles := hholds.of_gives trivial (gives_of_ok h)
  generalize hr : Outcome.known v t' = r at hsettles
  cases hsettles with
  | kept _ hkept =>
    rw [hf] at hkept
    cases hkept
  | left _ he _ _ =>
    cases he
    cases hr

theorem runAll_literals (cs : List Constant) :
    runAll (cs.map fun c => some (pure (.constant c.value c.type))) =
      pure (cs.map fun c => .constant c.value c.type) := by
  induction cs with
  | nil => rfl
  | cons c cs ih => simp [runAll, ih]

theorem rebuilt_of_residual (h : site.residual node os s = .ok r s') :
    s' = s ∧ Rebuilt node os r := by
  unfold Site.residual at h
  cases he : node.withChildren (keepMissing node.children os) with
  | error => rw [he] at h; cases h
  | ok e =>
    rw [he] at h
    change (if (site.book.typeOf? e).isNone then throw .missing else pure (.ofExpr e) : Action) s =
      .ok r s' at h
    by_cases htype : (site.book.typeOf? e).isNone = true
    · rw [if_pos htype] at h
      cases h
    · rw [if_neg htype] at h
      cases h
      exact ⟨rfl, e, he, rfl⟩

theorem keepMissing_literals (cs : List Constant) :
    keepMissing (cs.map fun c => some (.constant c.value c.type))
      (cs.map fun c => .constant c.value c.type) =
        cs.map fun c => some (Outcome.constant c.value c.type).expr := by
  induction cs with
  | nil => rfl
  | cons c cs ih => simp [keepMissing, ih]

/-- A written range of constants comes to the array of their values. -/
theorem walkDeep_table (hshape : rows * cols = cs.length) (hword : cs.length < 0x8000000000000000)
    (h : opt.walkDeep book n origin (.table rows cols cs) s = .ok r s') :
    s' = s ∧ r.arguments = [.grid rows cols (cs.map Constant.value)] ∧ r.isConstant = true := by
  have hvalues (cs : List Constant) : materializeAll
      (cs.map fun c => some (Outcome.constant c.value c.type).expr) = cs.map Constant.value ∧
      Expr.allAggregate (cs.map fun c => some (Outcome.constant c.value c.type).expr) = true := by
    induction cs with
    | nil => exact ⟨rfl, rfl⟩
    | cons c cs ih => simpa [materializeAll, Expr.allAggregate, Outcome.constant, Outcome.expr,
        Expr.materialize] using ih
  have hacts : (cs.map fun c => some (Expr.constant c.value c.type)).map
      (Option.map (walk (opt.site book origin) (opt.enter book n))) =
        (cs.map fun c => (pure (.constant c.value c.type) : Action)).map some := by
    simp [walk]
  rw [opt.walkDeep_eq, Expr.table, walk, walkAll_eq, hacts, rebuildForm, trimmed_map_some,
    map_map] at h
  change (runAll (cs.map fun c => some (pure (.constant c.value c.type))) >>= _) s = _ at h
  rw [runAll_literals, pure_bind] at h
  obtain ⟨rfl, hr⟩ := rebuilt_of_residual h
  rw [rebuilt_range hr, keepMissing_literals, length_map, rangeShape,
    if_pos (by rw [hshape, wrap, Int.bmod_eq_of_le (by omega) (by omega)])]
  exact ⟨rfl, by simp [Outcome.arguments, Expr.spliceValues, Expr.materialize, hvalues],
    (hvalues cs).2⟩

section Forms

variable {fn : String} {args : Children} {t₁ : DataType} {grid : Grid} {v w : Value}
  {range first : Action} {s₁ : WalkState}
  (helements : grid.elements = cs.map fun c => some (pure (.constant c.value c.type)))
  (hshape : grid.rows * grid.cols = cs.length) (hside : 0 ≤ grid.rows ∨ 0 ≤ grid.cols)
  (hrange : ∀ s r s', range s = .ok r s' →
    s' = s ∧ r.arguments = [.grid grid.rows grid.cols (cs.map Constant.value)])
include hrange

/-- A call of `INDEX` that fails in the engine is not known. -/
theorem generic_ne_known (ws : List Constant) (done : List Outcome) {todo : List (Option Action)}
    (hfails : ∃ f, site.engine.call Builtin.index.name
      (.grid grid.rows grid.cols (cs.map Constant.value) :: ws.map Constant.value) = .error f)
    (htodo : ∀ os s', runAll todo s₁ = .ok os s' →
      done ++ os = ws.map fun w => .known w.value w.type)
    (v : Value) (t' : DataType) :
    (range >>= fun r => site.generic (.call fn args t) (site.engine.call Builtin.index.name)
      (r :: done) todo) s₁ ≠ .ok (.known v t') s' := by
  intro h
  obtain ⟨r, s₂, hr, hgeneric⟩ := Walk.bind_ok h
  obtain ⟨rfl, hvalue⟩ := hrange _ _ _ hr
  rw [generic_eq] at hgeneric
  obtain ⟨os, s₃, hos, hsettle⟩ := Walk.bind_ok hgeneric
  obtain ⟨f, hf⟩ := hfails
  refine settle_ne_known (f := f) ?_ v t' hsettle
  have hvalues (ws : List Constant) :
      Outcome.values (ws.map fun w => .known w.value w.type) = ws.map Constant.value := by
    induction ws with
    | nil => rfl
    | cons w ws ih => exact congrArg (w.value :: ·) ih
  rw [cons_append, htodo os s₃ hos, ← hf, Outcome.values, flatMap_cons, hvalue]
  exact congrArg _ (congrArg _ (hvalues ws))

include helements hshape hside

theorem anticipates_indexForm_one (hfirst : first s = .ok (.known v t₁) s₁) :
    Anticipates (site.engine.call Builtin.index.name
        [.grid grid.rows grid.cols (cs.map Constant.value), v])
      (indexForm site (.call fn args t) (some grid) [some range, some first] s) := by
  have hlength : grid.elements.length = (cs.map Constant.value).length := by simp [helements]
  have hshape' : grid.rows * grid.cols = (cs.map Constant.value).length := by simpa using hshape
  change Anticipates _ ((first >>= _) s)
  rw [bind_apply, hfirst]
  dsimp only
  cases hplace : (indexOf? (.known v t₁)).bind grid.place? with
  | some place =>
    obtain ⟨k, hk, hplace⟩ := Option.bind_eq_some_iff.mp hplace
    exact anticipates_walkAt helements (foretells_place? hshape' hside hlength hk hplace)
  | none =>
    have hfails := select_one_fails hshape' hside hplace
    refine anticipates_of_fails hfails fun u t' s' => ?_
    exact generic_ne_known hrange [⟨v, t₁⟩] [.known v t₁] hfails
      (fun os s' hos => by cases hos; rfl) u t'

theorem anticipates_indexForm_two (hfirst : first s = .ok (.known v t₁) s₁)
    (hsecond : second s₁ = .ok (.known w t₂) s₂) (hw : w.isNull = false) :
    Anticipates (site.engine.call Builtin.index.name
        [.grid grid.rows grid.cols (cs.map Constant.value), v, w])
      (indexForm site (.call fn args t) (some grid) [some range, some first, some second] s) := by
  have hshape' : grid.rows * grid.cols = (cs.map Constant.value).length := by simpa using hshape
  have hfails (h : indexOf? (.known v t₁) = none ∨ indexOf? (.known w t₂) = none) :=
    select_two_fails hshape' hside h hw
  change Anticipates _ ((first >>= _) s)
  rw [bind_apply, hfirst]
  dsimp only
  cases hk : indexOf? (.known v t₁) with
  | none =>
    have hfails := hfails (.inl hk)
    refine anticipates_of_fails hfails fun u t' s' => ?_
    refine generic_ne_known hrange [⟨v, t₁⟩, ⟨w, t₂⟩] [.known v t₁] hfails
      (fun os s' hos => ?_) u t'
    rw [runAll, bind_apply, hsecond] at hos
    cases hos
    rfl
  | some k =>
    dsimp only
    rw [bind_apply, hsecond]
    dsimp only
    cases hl : indexOf? (.known w t₂) with
    | some l =>
      exact anticipates_walkAt helements (foretells_placeAt hshape' hside hk hl hw rfl)
    | none =>
      have hfails := hfails (.inr hl)
      refine anticipates_of_fails hfails fun u t' s' => ?_
      exact generic_ne_known hrange [⟨v, t₁⟩, ⟨w, t₂⟩] [.known v t₁, .known w t₂] hfails
        (fun os s' hos => by cases hos; rfl) u t'

end Forms

theorem walkDeep_index (indices : List Expr) (t : DataType) :
    opt.walkDeep book n origin
        (.call Builtin.index.name (some (.table rows cols cs) :: indices.map some) t) =
      indexForm (opt.site book origin)
        (.call Builtin.index.name (some (.table rows cols cs) :: indices.map some) t)
        (some ⟨rows, cols, cs.map fun c => some (pure (.constant c.value c.type))⟩)
        (some (opt.walkDeep book n origin (.table rows cols cs)) ::
          indices.map fun x => some (opt.walkDeep book n origin x)) := by
  have hw : walk (opt.site book origin) (opt.enter book n) = opt.walkDeep book n origin :=
    funext fun e => (opt.walkDeep_eq book n origin e).symm
  rw [opt.walkDeep_eq]
  unfold Expr.table
  rw [walk, ofName?_name, walkAll_eq, walkAll_eq]
  have hliteral (c : Constant) : opt.walkDeep book n origin (.constant c.value c.type) =
      pure (.constant c.value c.type) := by
    rw [opt.walkDeep_eq, walk]
  simp [hw, hliteral, Function.comp_def]

variable {indices : List Expr} {ws : List Constant} {s₁ : WalkState}

/-- **What `INDEX` selects from a written range ahead of the run is what the engine selects.** -/
theorem anticipates_walkDeep_index (hshape : rows * cols = cs.length) (hside : 0 ≤ rows ∨ 0 ≤ cols)
    (hword : cs.length < 0x8000000000000000) (hcount : indices.length = 1 ∨ indices.length = 2)
    (hws : runAll (indices.map fun x => some (opt.walkDeep book n origin x)) s =
      .ok (ws.map fun w => .known w.value w.type) s₁)
    (hblank : ∀ w, ws[1]? = some w → w.value.isNull = false) :
    Anticipates (opt.engine.call Builtin.index.name
        (.grid rows cols (cs.map Constant.value) :: ws.map Constant.value))
      (opt.walkDeep book n origin
        (.call Builtin.index.name (some (.table rows cols cs) :: indices.map some) t) s) := by
  have hrange (s : WalkState) (r : Outcome) (s' : WalkState)
      (hr : opt.walkDeep book n origin (.table rows cols cs) s = .ok r s') :
      s' = s ∧ r.arguments = [.grid rows cols (cs.map Constant.value)] := by
    obtain ⟨hs, hvalue, _⟩ := walkDeep_table hshape hword hr
    exact ⟨hs, hvalue⟩
  rw [walkDeep_index]
  rcases hcount with hcount | hcount
  · obtain ⟨first, rfl⟩ := List.length_eq_one_iff.mp hcount
    obtain ⟨o, s₂, hfirst, hrest⟩ := Walk.bind_ok hws
    injection hrest with hos
    obtain ⟨w, rfl, rfl⟩ := List.map_eq_singleton_iff.mp hos.symm
    exact anticipates_indexForm_one rfl hshape hside hrange hfirst
  · obtain ⟨first, second, rfl⟩ := List.length_eq_two.mp hcount
    obtain ⟨o, s₂, hfirst, hrest⟩ := Walk.bind_ok hws
    obtain ⟨os, s₃, hsecond, hrest⟩ := Walk.bind_ok hrest
    obtain ⟨o', s₄, hsecond, hnil⟩ := Walk.bind_ok hsecond
    cases hnil
    injection hrest with hos
    obtain ⟨w, ws', rfl, rfl, hws'⟩ := map_eq_cons_iff.mp hos.symm
    obtain ⟨w', rfl, rfl⟩ := List.map_eq_singleton_iff.mp hws'
    exact anticipates_indexForm_two rfl hshape hside hrange hfirst hsecond (hblank w' rfl)

end Walks

/-- **`INDEX` agrees with the engine.**  If the indices into a written range of constants are known,
`INDEX` is rejected for an index ahead of the run only where the engine fails, and it is known only
as the element that the engine selects.  The second index is not blank: the engine takes a blank
one as left out. -/
theorem call_index_of_optimize (opt : Optimizer) (book : Workbook) (origin : Option Address)
    (rows cols : Int) (cs : List Constant) (hshape : rows * cols = cs.length)
    (hside : 0 ≤ rows ∨ 0 ≤ cols) (hword : cs.length < 0x8000000000000000) (indices : List Expr)
    (hcount : indices.length = 1 ∨ indices.length = 2) (ws : List Constant) (s : WalkState)
    {s₁ : WalkState}
    (hws : runAll (indices.map fun x => some (opt.walkDeep book book.cells.length origin x))
      (under .empty s) = .ok (ws.map fun w => .known w.value w.type) s₁)
    (hblank : ∀ w, ws[1]? = some w → w.value.isNull = false) (t : DataType) :
    (∀ f s', opt.optimize book (some (.call Builtin.index.name
        (some (.table rows cols cs) :: indices.map some) t)) origin s = .error f s' →
      f.isOf .valueOutOfRange = true ∨ f.isOf .refOutOfRange = true →
        ∃ g, opt.engine.call Builtin.index.name
          (.grid rows cols (cs.map Constant.value) :: ws.map Constant.value) = .error g) ∧
    ∀ v t' s', opt.optimize book (some (.call Builtin.index.name
        (some (.table rows cols cs) :: indices.map some) t)) origin s = .ok (.known v t') s' →
      opt.engine.call Builtin.index.name
        (.grid rows cols (cs.map Constant.value) :: ws.map Constant.value) = .ok v := by
  have hanticipates := anticipates_walkDeep_index (t := t) hshape hside hword hcount hws hblank
  refine ⟨fun f s' h hf => ?_, fun v t' s' h => ?_⟩
  · obtain ⟨s₂, hwalk⟩ := hf.elim (exists_walkDeep_of_optimize_error h)
      (exists_walkDeep_of_optimize_error h)
    rw [hwalk] at hanticipates
    exact hanticipates hf
  · obtain ⟨s₂, hwalk⟩ := exists_walk_of_optimize h
    rw [hwalk] at hanticipates
    exact hanticipates

namespace SelectionExample

open Sample KeptExample

/-- The numbers 4, 5 and 6 in one row. -/
def items : List Constant :=
  [⟨.number 4.0, .numeric⟩, ⟨.number 5.0, .numeric⟩, ⟨.number 6.0, .numeric⟩]

/-- A cell that says which column is selected. -/
def column (v : Value) : Cell := ⟨cellAt 2, none, v, none, false, .unknown⟩

def book (v : Value) : Workbook := (evaluator [column v]).book

/-- The element in the first row of a range of the items and in the column that is given. -/
def selection (rows cols : Int) (column : Expr) : Expr :=
  .call Builtin.index.name [some (.table rows cols items), some (number 1.0), some column] .unknown

/-- What the engine selects. -/
def selected (rows cols : Int) (column : Value) : Except Failure Value :=
  engine.call Builtin.index.name [.grid rows cols (items.map Constant.value), .number 1.0, column]

/-- Whether a walk stopped at a complaint of the given kind. -/
def complains (k : ComplaintKind) : EStateM.Result Fault WalkState Outcome → Bool
  | .error f _ => f.isOf k
  | .ok .. => false

end SelectionExample

open Sample KeptExample SelectionExample in
/-- A column that is written as text in a cell: the second one is selected, and there is no
fourth. -/
theorem call_index_of_optimize_text :
    (∃ s', (optimizer true).optimize (book (.text "2.5")) (some (selection 1 3 (.cell (cellAt 2))))
      none .initial = .ok (.known (.number 5.0) .numeric) s') ∧
    selected 1 3 (.text "2.5") = .ok (.number 5.0) ∧
    (∃ f s', (optimizer true).optimize (book (.text "4")) (some (selection 1 3 (.cell (cellAt 2))))
      none .initial = .error f s' ∧ f.isOf .refOutOfRange = true) ∧
    ∃ g, selected 1 3 (.text "4") = .error g := by
  obtain ⟨s', hs'⟩ : ∃ s', (optimizer true).optimize (book (.text "2.5"))
      (some (selection 1 3 (.cell (cellAt 2)))) none .initial =
        .ok (.known (.number 5.0) .numeric) s' := ⟨_, rfl⟩
  obtain ⟨f, s'', hf, hkind⟩ : ∃ f s'', (optimizer true).optimize (book (.text "4"))
      (some (selection 1 3 (.cell (cellAt 2)))) none .initial = .error f s'' ∧
        f.isOf .refOutOfRange = true := ⟨_, _, rfl, rfl⟩
  refine ⟨⟨s', hs'⟩, ?_, ⟨f, s'', hf, hkind⟩, ?_⟩
  · exact (call_index_of_optimize (optimizer true) (book (.text "2.5")) none 1 3 items rfl
      (.inl (by decide)) (by decide) [number 1.0, .cell (cellAt 2)] (.inr rfl)
      [⟨.number 1.0, .numeric⟩, ⟨.text "2.5", .string⟩] .initial rfl
      (by rintro _ ⟨⟩; rfl) .unknown).2 _ _ _ hs'
  · exact (call_index_of_optimize (optimizer true) (book (.text "4")) none 1 3 items rfl
      (.inl (by decide)) (by decide) [number 1.0, .cell (cellAt 2)] (.inr rfl)
      [⟨.number 1.0, .numeric⟩, ⟨.text "4", .string⟩] .initial rfl
      (by rintro _ ⟨⟩; rfl) .unknown).1 _ _ hf (.inr hkind)

open Sample KeptExample SelectionExample in
/-- A blank column is rejected ahead of the run, and the engine takes it as left out.  In a range
whose counts are both negative every column is rejected, and the engine selects from one row. -/
theorem call_index_of_optimize_blank :
    (complains .valueOutOfRange ((optimizer true).optimize (book .null)
        (some (selection 1 3 (.cell (cellAt 2)))) none .initial) ∧
      selected 1 3 .null = .ok (.number 4.0)) ∧
    complains .refOutOfRange ((optimizer true).optimize (book .null)
        (some (selection (-1) (-3) (number 1.0))) none .initial) ∧
      selected (-1) (-3) (.number 1.0) = .ok (.number 4.0) :=
  ⟨⟨by decide +kernel, rfl⟩, by decide +kernel, rfl⟩

end FormulaFold
