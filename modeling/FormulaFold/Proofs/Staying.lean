import FormulaFold.Proofs.Comes

/-! # Formulas that stay as they are

A formula *stays* (`Stays`) if its walk is sure to come to the formula itself.  The rules of this
module say when a node stays, given that its parts do: a computed node stays if its computation is
left to the run, an argument of `AND` stays if it does not decide, and so on.  What is asked of a
node is what its first walk has found out about it.
-/
namespace FormulaFold

open Walk

variable {site : Site}

/-! ## Computations that are left to the run -/

/-- A computation that is left to the run: its failure is an expected one, or its result is not
finite. -/
inductive Refused : Except Failure Value → Prop
  | failed {f : Failure} (hf : f.expected = true) : Refused (.error f)
  | notFinite {x : Float} (hx : ¬isFinite x) : Refused (.ok (.number x))

theorem kept?_of_refused (h : Refused r) (node : Expr) : site.kept? node r = none := by
  cases h with
  | failed => rfl
  | notFinite hx => exact if_neg hx

theorem Refused.expected (h : Refused r) (f : Failure) (hf : r = .error f) : f.expected = true := by
  cases h with
  | failed hexpected =>
    cases hf
    exact hexpected
  | notFinite => cases hf

theorem refused_of_kept? (hkept : site.kept? node r = none)
    (hexpected : ∀ f, r = .error f → f.expected = true) : Refused r := by
  cases r with
  | error f => exact .failed (hexpected f rfl)
  | ok v =>
    cases v with
    | number x =>
      by_cases hx : isFinite x
      · exact absurd hkept (by simp [Site.kept?, hx])
      · exact .notFinite hx
    | _ => cases hkept

/-- A computation that is left to the run, or not tried since an argument is not constant. -/
def Refuses (compute : Computation) (os : List Outcome) : Prop :=
  os.all (·.isConstant) = true → Refused (compute (Outcome.values os))

theorem refuses_of_settles {site : Site} {node : Expr} {compute : Computation} {os : List Outcome}
    (hleft : os.all (·.isConstant) = true →
      site.kept? node (compute (Outcome.values os)) = none)
    (hexpected : os.all (·.isConstant) = true →
      ∀ f, compute (Outcome.values os) = .error f → f.expected = true) : Refuses compute os :=
  fun hconst => refused_of_kept? (hleft hconst) (hexpected hconst)

theorem failsAsExpected_concatenate (engine : Engine) (args : List Value) :
    FailsAsExpected (engine.call Builtin.concatenate.name args) := by
  have hjoin (vs : List Value) : FailsAsExpected (Builtin.joinTexts vs) := by
    induction vs with
    | nil => exact failsAsExpected_pure _
    | cons v vs ih =>
      exact (failsAsExpected_toText v).bind fun _ => ih.bind fun _ => failsAsExpected_pure _
  exact (hjoin _).bind fun _ => failsAsExpected_pure _

/-- The truth of an argument of `AND` and `OR`. -/
theorem failsAsExpected_truthResult {fn : String}
    (hfn : ofName? fn = some .and ∨ ofName? fn = some .or) (o : Outcome) :
    FailsAsExpected (site.truthResult fn o) := by
  have htruths (vs : List Value) :
      FailsAsExpected (Builtin.allTrue vs) ∧ FailsAsExpected (Builtin.anyTrue vs) := by
    induction vs with
    | nil => exact ⟨failsAsExpected_pure _, failsAsExpected_pure _⟩
    | cons v vs ih =>
      have hv := failsAsExpected_toBool v
      exact ⟨hv.bind fun _ => ih.1.bind fun _ => failsAsExpected_pure _,
        hv.bind fun _ => ih.2.bind fun _ => failsAsExpected_pure _⟩
  cases o with
  | known v t => exact failsAsExpected_toBool v
  | residual e =>
    refine FailsAsExpected.bind (fun f hf => ?_) failsAsExpected_toBool
    rcases hfn with hfn | hfn
    · simp only [Engine.call, hfn, Builtin.compute] at hf
      split at hf
      · cases hf
        rfl
      · exact (htruths _).1.bind (fun _ => failsAsExpected_pure _) f hf
    · simp only [Engine.call, hfn, Builtin.compute] at hf
      split at hf
      · cases hf
        rfl
      · exact (htruths _).2.bind (fun _ => failsAsExpected_pure _) f hf

/-! ## Children -/

section Children

variable {R : Giving}

theorem keepMissing_map_ofChild (h : ∀ x, some x ∈ es → (ofExpr x).expr = x) :
    keepMissing es (es.map ofChild) = es := by
  induction es with
  | nil => rfl
  | cons e es ih =>
    have hrest := ih fun x hx => h x (mem_cons_of_mem _ hx)
    rw [map_cons, keepMissing, hrest]
    cases e with
    | none => rfl
    | some e => exact congrArg (some · :: es) (h e mem_cons_self)

/-- Children that come to themselves are kept. -/
theorem keepMissing_trimmed (h : ∀ x, some x ∈ es → (ofExpr x).expr = x) :
    keepMissing es ((trimmed es).map ofChild) = es := by
  obtain ⟨n, hn⟩ := trimmed_append_missing es
  have hlen : (trimmed es).length = ((trimmed es).map ofChild).length := by simp
  have hkept := keepMissing_append_missing hlen n
  rwa [← hn, keepMissing_map_ofChild fun x hx => h x (mem_of_mem_trimmed hx), ← hn] at hkept

theorem map_ofChild_keepMissing (h : Forall₂ (Child R) es os) (hos : ∀ o ∈ os, ofExpr o.expr = o) :
    (keepMissing es os).map ofChild = os := by
  induction h with
  | nil => rfl
  | @cons e o es os ho _ ih =>
    have hos := forall_mem_cons.mp hos
    rw [keepMissing, map_cons, ih hos.2]
    cases e with
    | none =>
      obtain rfl : o = .blank := ho
      rfl
    | some e => exact congrArg (· :: os) hos.1

/-- The children of a rebuilt node are the outcomes that it was rebuilt around. -/
theorem map_ofChild_trimmed (h : Forall₂ (Child R) (trimmed es) os)
    (hos : ∀ o ∈ os, ofExpr o.expr = o) :
    (trimmed (keepMissing es os)).map ofChild = os := by
  induction es generalizing os with
  | nil =>
    cases h
    rfl
  | cons e es ih =>
    cases e with
    | some e =>
      rw [trimmed_some_cons] at h
      cases h with
      | @cons _ o _ os ho h =>
        have hos := forall_mem_cons.mp hos
        rw [keepMissing, map_some, trimmed_some_cons, map_cons, ih h hos.2]
        exact congrArg (· :: os) hos.1
    | none =>
      rw [trimmed_none_cons] at h
      split at h
      · cases h
        rw [trimmed_keepMissing_nil]
        rfl
      · rename_i hne
        cases h with
        | @cons _ o _ os ho h =>
          obtain rfl : o = .blank := ho
          have hrest := ih h fun o ho => hos o (mem_cons_of_mem _ ho)
          have hne' : trimmed (keepMissing es os) ≠ [] := by
            intro hnil
            rw [hnil] at hrest
            subst hrest
            exact hne (List.forall₂_nil_right_iff.mp h)
          rw [keepMissing, map_none, trimmed_none_cons, if_neg hne', map_cons, hrest]
          rfl

end Children

/-! ## Formulas that stay -/

/-- A formula whose walk is sure to come to the formula itself. -/
structure Stays (P : WalkState → Prop) (site : Site) (enter : Address → Expr → Action)
    (b : Bindings) (x : Expr) : Prop where
  expr : (ofExpr x).expr = x
  type : (site.book.typeOf? x).isSome
  comes : Comes P b (x.walk site enter) (.ofExpr x)

section Stays

variable {P : WalkState → Prop} {enter : Address → Expr → Action}

theorem stays_constant (h : Outcome.constant v t = .known v t) :
    Stays P site enter b (.constant v t) := by
  refine .mk ?_ rfl ?_
  · rw [ofExpr, h]
    rfl
  · rw [walk]
    exact comes_pure _

theorem forall₂_stays (h : ∀ y, some y ∈ es → Stays P site enter b y) :
    Forall₂ (Child fun e o => Comes P b (e.walk site enter) o) es
      (es.map ofChild) := by
  rw [forall₂_map_right_iff]
  refine forall₂_same.mpr fun e he => ?_
  cases e with
  | none => rfl
  | some e => exact (h e he).comes

theorem forall₂_stays_trimmed (h : ∀ y, some y ∈ es → Stays P site enter b y) :
    Forall₂ (Child fun e o => Comes P b (e.walk site enter) o) (trimmed es)
      ((trimmed es).map ofChild) :=
  forall₂_stays fun y hy => h y (mem_of_mem_trimmed hy)

/-- A node that takes its own children stays once they are walked. -/
theorem comes_residual_again (hchildren : ∀ y, some y ∈ x.children → Stays P site enter b y)
    (hfix : x.withChildren x.children = .ok x) (htype : (site.book.typeOf? x).isSome) :
    Comes P b (site.residual x ((trimmed x.children).map ofChild)) (.ofExpr x) := by
  refine comes_residual ?_ htype
  rwa [keepMissing_trimmed fun y hy => (hchildren y hy).expr]

theorem comes_rebuildForm_again (hchildren : ∀ y, some y ∈ x.children → Stays P site enter b y)
    (hfix : x.withChildren x.children = .ok x) (htype : (site.book.typeOf? x).isSome) :
    Comes P b (rebuildForm site x (x.children.map (Option.map (walk site enter))))
      (.ofExpr x) := by
  unfold rebuildForm
  rw [trimmed_map]
  exact (comes_runAll (forall₂_stays_trimmed hchildren)).bind
    (comes_residual_again hchildren hfix htype)

theorem stays_range (hes : ∀ y, some y ∈ es → Stays P site enter b y)
    (hfix : (Expr.range rows cols es).withChildren es = .ok (.range rows cols es)) :
    Stays P site enter b (.range rows cols es) := by
  refine .mk rfl rfl ?_
  rw [walk, walkAll_eq]
  exact comes_rebuildForm_again hes hfix rfl

theorem stays_splice (hes : ∀ y, some y ∈ es → Stays P site enter b y) :
    Stays P site enter b (.splice es) := by
  refine .mk rfl rfl ?_
  rw [walk, walkAll_eq]
  exact comes_rebuildForm_again hes rfl rfl

theorem stays_subSection (hes : ∀ y, some y ∈ es → Stays P site enter b y) :
    Stays P site enter b (.subSection s es) := by
  refine .mk rfl rfl ?_
  rw [walk, walkAll_eq]
  exact comes_rebuildForm_again hes rfl rfl

theorem stays_letVar (h : b.lookup name = .ok none) : Stays P site enter b (.letVar name t) := by
  refine .mk rfl rfl ?_
  rw [walk]
  intro s hs hb
  refine ⟨s, ?_, hs, hb⟩
  simp only [nameForm, bind_apply, naming_lookup hb, h]
  rfl

theorem stays_parentSection (hx : Stays P site enter b x) (hleft : (ofExpr x).isKnown = false) :
    Stays P site enter b (.parentSection s (some x)) := by
  refine .mk rfl hx.type ?_
  rw [walk, walkOption_eq]
  refine hx.comes.bind ?_
  have hresidual := comes_residual_again (x := .parentSection s (some x)) (P := P) (b := b)
    (by simpa [Expr.children] using hx) rfl hx.type
  cases ho : ofExpr x with
  | known => simp [ho, Outcome.isKnown] at hleft
  | residual r => simpa [Expr.children, ofChild, ho] using hresidual

/-- The sections that a count leaves to the run are left again. -/
theorem countArgs_again (h : countArgs es = .ok (n, sections)) :
    countArgs (sections.map some) = .ok (0, sections) := by
  obtain ⟨hnested, _, hsections⟩ := sectionsIn_of_countArgs h
  have hall : ∀ x ∈ sections, Expr.nested? (some x) = none ∧ x.isSubSection = true := by
    intro x hx
    obtain ⟨hx, hsub⟩ := List.mem_filter.mp (hsections ▸ hx)
    exact ⟨hnested _ (mem_present.mp hx), hsub⟩
  clear h hsections
  induction sections with
  | nil => rfl
  | cons x sections ih =>
    have hx := hall x mem_cons_self
    have hzero : wrap 0 = 0 := by decide
    rw [map_cons, countArgs, ih fun y hy => hall y (mem_cons_of_mem _ hy)]
    cases x with
    | subSection s es =>
      have hinner : Expr.anySubSection es = false := by simpa [Expr.nested?] using hx.1
      simp [Expr.countParts, hinner, bind, Except.bind, pure, Except.pure, hzero]
    | _ => cases hx.2

/-- What a count leaves to the run is counted as before. -/
theorem stays_count (hn : countArgs es = .ok (n, sections)) (hsections : sections ≠ [])
    (static : Int) : Stays P site enter b (.count (wrap static) (sections.map some)) := by
  refine .mk rfl rfl ?_
  rw [walk]
  unfold countForm
  have hstatic : wrap (wrap static + 0) = wrap static := by
    rw [Int.add_zero]
    exact Int.bmod_bmod
  rw [trimmed_map_some, countArgs_again hn]
  cases sections with
  | nil => exact absurd rfl hsections
  | cons y sections =>
    dsimp only
    rw [hstatic]
    exact comes_dynamic rfl

theorem stays_letIn {E : Memo → Prop} {bound : Prop} (hP : Lenient P)
    (hw : ∀ (e : Expr) b, Frames book E bound b (e.walk site enter)) (hx : Stays P site enter b x)
    (hy : Stays P site enter (b.push name
      (if (ofExpr x).isConstant then some (.ofExpr x) else none)) y)
    (hleft : (ofExpr y).isKnown = false) :
    Stays P site enter b (.letIn name (some x) (some y)) := by
  refine .mk rfl hy.type ?_
  rw [walk, walkOption_eq, walkOption_eq]
  refine hx.comes.bind ((comes_binding hP (hw y _) hy.comes).bind ?_)
  have hexpr := hy.expr
  cases ho : ofExpr y with
  | known => simp [ho, Outcome.isKnown] at hleft
  | residual r =>
    rw [ho] at hexpr
    obtain rfl : r = y := hexpr
    dsimp only
    rw [hx.expr]
    exact comes_dynamic hy.type

section Switch

theorem stays_switchCase (hbranch : c.branch = some y)
    (hy : Stays P site enter b y) : Stays P site enter b (.switchCase c) := by
  obtain ⟨values, branch⟩ := c
  obtain rfl : branch = some y := hbranch
  refine .mk rfl hy.type ?_
  rw [walk, walkCase_eq]
  exact comes_rebuildForm_again (x := .switchCase ⟨values, some y⟩)
    (by simpa [Expr.children] using hy) rfl hy.type

theorem casesOf_map_some (cs : List (Case Expr)) :
    Expr.casesOf (cs.map fun c => some (.switchCase c)) = .ok cs := by
  induction cs with
  | nil => rfl
  | cons c cs ih =>
    rw [map_cons, Expr.casesOf, ih]
    rfl

theorem stays_switch (hx : Stays P site enter b x) (hleft : (ofExpr x).isKnown = false)
    (hcases : ∀ c ∈ cases, ∃ y, c.branch = some y ∧ Stays P site enter b y)
    (hotherwise : ∀ y, otherwise = some y → Stays P site enter b y) :
    Stays P site enter b (.switch (some x) cases otherwise t) := by
  refine .mk rfl rfl ?_
  have htail (y : Expr) (hy : some y ∈ cases.map (fun c => some (.switchCase c)) ++ [otherwise]) :
      Stays P site enter b y := by
    rcases mem_append.mp hy with hy | hy
    · obtain ⟨c, hc, heq⟩ := mem_map.mp hy
      obtain ⟨z, hz, hstays⟩ := hcases c hc
      cases heq
      exact stays_switchCase hz hstays
    · exact hotherwise y (mem_singleton.mp hy).symm
  have hfix : (Expr.switch (some x) cases otherwise t).withChildren
      (Expr.switch (some x) cases otherwise t).children =
        .ok (.switch (some x) cases otherwise t) := by
    rw [Expr.children]
    cases hcs : cases.map (fun c => some (Expr.switchCase c)) ++ [otherwise] with
    | nil => simp at hcs
    | cons second rest =>
      simp only [Expr.withChildren]
      rw [← hcs, List.dropLast_concat, casesOf_map_some]
      simp [bind, Except.bind, pure, Except.pure]
  have hresidual := comes_residual_again (x := .switch (some x) cases otherwise t) (P := P) (b := b)
    (fun y hy => (mem_cons.mp hy).elim (fun h => Option.some.inj h ▸ hx) (htail y)) hfix rfl
  rw [walk, walkOption_eq, walkOption_eq, walkCases_eq, walkCaseNodes_eq]
  have hacts : (cases.map (fun c => some ((Expr.switchCase c).walk site enter)) ++
      [otherwise.map (walk site enter)]) =
      (cases.map (fun c => some (Expr.switchCase c)) ++ [otherwise]).map
        (Option.map (walk site enter)) := by
    simp [Function.comp_def]
  rw [hacts]
  refine hx.comes.bind ?_
  rw [map_some, trimmed_some_cons, List.drop_one, List.tail_cons, trimmed_map]
  have hrest := comes_runAll (forall₂_stays_trimmed htail)
  cases ho : ofExpr x with
  | known => simp [ho, Outcome.isKnown] at hleft
  | residual r =>
    refine hrest.bind ?_
    simpa [Expr.children, ofChild, ho] using hresidual

end Switch

end Stays

end FormulaFold
