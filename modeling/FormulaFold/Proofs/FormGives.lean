import FormulaFold.Proofs.Gives

/-! # What the forms give

Each lemma says for one form how what it gives depends on what the walks of its children give.
`w` stands for the walk of a child and `R` for what it gives; the contract is arbitrary.
-/
namespace FormulaFold

open Walk Walk.Contract

variable {enter : Address → Expr → Action} {c : Constant} {node : Expr}
  {r : Int × Int × List (Option Expr)} {fn : String} {E : Memo → Prop} {bound A : Prop}
  {b : Bindings} {site : Site} {w : Expr → Action} {R : Giving}
  {es : Children} {o : Outcome} {J : Contract book E bound}

theorem join_getElem?_map (es : Children) (i : Nat) :
    (es.map (Option.map w))[i]?.join = es[i]?.join.map w := by
  rw [getElem?_map]
  cases es[i]? with
  | none => rfl
  | some e => cases e <;> rfl

section Forms

variable (hw : ∀ x, some x ∈ es → J.Holds True b (w x) (R x))

/-! ## Conditions -/

/-- What `IF` gives, with the outcome `c` of its condition. -/
inductive IfGives (quiet : Prop) (site : Site) (node : Expr) (R : Giving) (c : Outcome)
    (branches : Children) : Outcome → Prop
  | chosen {v : Value} {t : DataType} {o : Outcome} (hc : c = .known v t)
      (hv : v.toBool = .ok true)
      (ho : ChildOr (.constant (.number 0.0) .numeric) R branches[0]?.join o) :
      IfGives quiet site node R c branches o
  | other {v : Value} {t : DataType} {o : Outcome} (hc : c = .known v t)
      (hv : v.toBool = .ok false)
      (ho : ChildOr (.constant (.bool false) .numeric) R branches[1]?.join o) :
      IfGives quiet site node R c branches o
  | settled {os : List Outcome} {o : Outcome}
      (hc : ∀ v t, c = .known v t → ∃ f, v.toBool = .error f)
      (hos : Forall₂ (Child R) (trimmed branches) os)
      (ho : Settles quiet site node (site.engine.call Builtin.ifElse.name) (c :: os) o) :
      IfGives quiet site node R c branches o

/-- The second half of `IF`, after its condition. -/
def ifRest (site : Site) (node : Expr) (branches : List (Option Action)) (c : Outcome) : Action :=
  let rest : Action :=
    site.generic node (site.engine.call Builtin.ifElse.name) [c] (trimmed branches)
  match c with
  | .known v _ =>
    match v.toBool with
    | .ok true => runOr (.constant (.number 0.0) .numeric) branches[0]?.join
    | .ok false => runOr (.constant (.bool false) .numeric) branches[1]?.join
    | .error f => if f.expected then rest else throw (.failed f)
  | .residual _ => rest

theorem ifForm_some_cons (node : Expr) (condition : Action) (branches : List (Option Action)) :
    ifForm site node (some condition :: branches) = condition >>= ifRest site node branches := by
  simp only [ifForm, trimmed_some_cons, List.drop_one, List.tail_cons]
  rfl

include hw in
theorem holds_ifRest {c : Outcome} :
    J.Holds A b (ifRest site node (es.map (Option.map w)) c)
      (IfGives J.quiet site node R c es) := by
  have hrest (hc' : ∀ v t, c = .known v t → ∃ f, v.toBool = .error f) :
      J.Holds A b (site.generic node (site.engine.call Builtin.ifElse.name) [c]
        (trimmed (es.map (Option.map w)))) (IfGives J.quiet site node R c es) := by
    rw [trimmed_map]
    exact (holds_generic fun x hx => hw x (mem_of_mem_trimmed hx)).imp
      fun o _ ⟨os, hos, ho⟩ => .settled hc' hos ho
  have hbranch (i : Nat) (missing : Outcome) : J.Holds A b
      (runOr missing (es.map (Option.map w))[i]?.join) (ChildOr missing R es[i]?.join) := by
    rw [join_getElem?_map]
    exact holds_runOr fun x hx => hw x (mem_of_getElem?_join hx)
  cases c with
  | residual e => exact hrest nofun
  | known v t =>
    unfold ifRest
    dsimp only
    split
    · exact (hbranch 0 _).imp fun o _ ho => .chosen rfl ‹_› ho
    · exact (hbranch 1 _).imp fun o _ ho => .other rfl ‹_› ho
    · rename_i f hf
      refine holds_ite (fun _ => hrest ?_) fun hexpected => ?_
      · rintro _ _ ⟨⟩
        exact ⟨f, hf⟩
      · exact absurd (failsAsExpected_toBool v f hf) hexpected

include hw in
theorem holds_computed {compute : Computation} :
    J.Holds A b (site.generic node compute [] (trimmed (es.map (Option.map w)))) fun o =>
      ∃ os, Forall₂ (Child R) (trimmed es) os ∧ Settles J.quiet site node compute os o := by
  rw [trimmed_map]
  exact holds_generic fun x hx => hw x (mem_of_mem_trimmed hx)

/-! ## Conjunctions and disjunctions -/

/-- The truth of a constant, or why it has none. -/
def Site.truthResult (site : Site) (fn : String) : Outcome → Except Failure Bool
  | .known v _ => v.toBool
  | .residual e => do (← site.engine.call fn [e.materialize]).toBool

/-- The truth of a constant argument of `AND` and `OR`; `none` when it is left to the run. -/
def Site.truthOf? (site : Site) (fn : String) (o : Outcome) : Option Bool :=
  if o.isConstant then (site.truthResult fn o).toOption else none

theorem truth?_eq (site : Site) (fn : String) (o : Outcome) :
    truth? site fn o = match site.truthResult fn o with
      | .ok b => pure (some b)
      | .error f =>
        if f.expected then pure none else throw (.failed f) := by
  cases o <;> rfl

theorem holds_truthOf? :
    J.Holds A b (if o.isConstant then truth? site fn o else pure none)
      (· = site.truthOf? fn o) := by
  unfold Site.truthOf?
  refine holds_ite (fun hconst => ?_) fun hconst => holds_pure fun _ => by rw [if_neg hconst]
  rw [truth?_eq, if_pos hconst]
  cases htruth : site.truthResult fn o with
  | ok b => exact holds_pure fun _ => rfl
  | error f =>
    refine holds_ite (fun _ => holds_pure fun _ => rfl) fun hf => ?_
    exact holds_raise (by simpa [Fault.isRaised] using hf)

/-- What the arguments of `AND` and `OR` come to: `none` when one of them decides, and otherwise
those that are left. -/
inductive Undecided (site : Site) (fn : String) (decisive : Bool) (R : Giving) :
    List (Option Expr) → Option (List Expr) → Prop
  | nil : Undecided site fn decisive R [] (some [])
  | missing {rest : Children} {r : Option (List Expr)}
      (hrest : Undecided site fn decisive R rest r) :
      Undecided site fn decisive R (none :: rest) r
  | decided {e : Expr} {o : Outcome} {rest : Children} (ho : R e o)
      (htruth : site.truthOf? fn o = some decisive) :
      Undecided site fn decisive R (some e :: rest) none
  | dropped {e : Expr} {o : Outcome} {rest : Children} {r : Option (List Expr)}
      (ho : R e o) (htruth : site.truthOf? fn o = some !decisive)
      (hrest : Undecided site fn decisive R rest r) :
      Undecided site fn decisive R (some e :: rest) r
  | left {e : Expr} {o : Outcome} {rest : Children} {r : Option (List Expr)}
      (ho : R e o) (htruth : site.truthOf? fn o = none)
      (hrest : Undecided site fn decisive R rest r) :
      Undecided site fn decisive R (some e :: rest) (r.map (o.expr :: ·))

theorem undecided?_some_cons (fn : String) (decisive : Bool) (act : Action)
    (rest : List (Option Action)) :
    undecided? site fn decisive (some act :: rest) =
      act >>= fun o => (if o.isConstant then truth? site fn o else pure none) >>= fun known =>
        if known = some decisive then pure none
        else undecided? site fn decisive rest >>= fun left =>
          pure (if known.isNone then left.map (o.expr :: ·) else left) := by
  rw [undecided?]
  congr 1
  funext o
  split <;> rfl

include hw in
theorem holds_undecided? : J.Holds A b (undecided? site fn decisive (es.map (Option.map w)))
      (Undecided site fn decisive R es) := by
  induction es generalizing A with
  | nil => exact holds_pure fun _ => .nil
  | cons e es ih =>
    have hrest {A : Prop} := ih (A := A) fun x hx => hw x (mem_cons_of_mem _ hx)
    cases e with
    | none => exact hrest.imp fun r _ hr => .missing hr
    | some e =>
      rw [map_cons, map_some, undecided?_some_cons]
      refine (hw e mem_cons_self).any.bind fun o => holds_truthOf?.bind fun known => ?_
      refine holds_ite (fun hknown => holds_pure fun ⟨⟨_, ho⟩, htruth⟩ => ?_) fun hknown => ?_
      · exact .decided ho (by rw [← htruth, hknown])
      · refine hrest.bind fun left => holds_pure ?_
        rintro ⟨⟨⟨_, ho⟩, htruth⟩, hleft⟩
        cases known with
        | none => exact .left ho htruth.symm hleft
        | some k =>
          refine .dropped ho ?_ hleft
          rw [← htruth]
          cases k <;> cases decisive <;> simp_all

/-- What `AND` and `OR` give once their arguments are walked. -/
inductive BoolGives (fn : String) (t : DataType) (decisive : Bool) :
    Option (List Expr) → Outcome → Prop
  | decided : BoolGives fn t decisive none (.constant (.bool decisive) .numeric)
  | dropped : BoolGives fn t decisive (some []) (.constant (.bool !decisive) .numeric)
  | left {e : Expr} {rest : List Expr} :
      BoolGives fn t decisive (some (e :: rest)) (.ofExpr (.call fn ((e :: rest).map some) t))

include hw in
theorem holds_boolForm : J.Holds A b (boolForm site fn t decisive (es.map (Option.map w))) fun o =>
      ∃ r, Undecided site fn decisive R (trimmed es) r ∧ BoolGives fn t decisive r o := by
  unfold boolForm
  rw [trimmed_map]
  refine (holds_undecided? fun x hx => hw x (mem_of_mem_trimmed hx)).bind fun r => ?_
  rcases r with _ | _ | ⟨e, rest⟩
  · exact holds_pure fun ⟨_, hr⟩ => ⟨_, hr, .decided⟩
  · exact holds_pure fun ⟨_, hr⟩ => ⟨_, hr, .dropped⟩
  · exact holds_dynamic fun ⟨_, hr⟩ => ⟨_, hr, .left⟩

/-! ## Selected elements -/

/-- What `INDEX` gives.  An element is selected directly by known indices into a range that is
written in the formula; `settled` is everything else. -/
inductive IndexGives (quiet : Prop) (site : Site) (node : Expr) (R : Giving)
    (es : Children) : Outcome → Prop
  | one {rows cols : Int} {elements : Children} {first : Expr} {i : Outcome} {k : Int}
      {element : Option Expr} {o : Outcome}
      (hes : trimmed es = [some (.range rows cols elements), some first]) (hi : R first i)
      (hk : indexOf? i = some k) (hshape : ¬(1 < rows ∧ 1 < cols)) (hlow : 1 ≤ k)
      (helement : elements[(k - 1).toNat]? = some element) (ho : Child R element o) :
      IndexGives quiet site node R es o
  | two {rows cols : Int} {elements : Children} {first second : Expr} {i j : Outcome}
      {k l : Int} {element : Option Expr} {o : Outcome}
      (hes : trimmed es = [some (.range rows cols elements), some first, some second])
      (hi : R first i) (hk : indexOf? i = some k) (hj : R second j) (hl : indexOf? j = some l)
      (hrow : 1 ≤ k ∧ k ≤ rows) (hcol : 1 ≤ l ∧ l ≤ cols)
      (hplace : 0 ≤ wrap ((k - 1) * cols + (l - 1)))
      (helement : elements[(wrap ((k - 1) * cols + (l - 1))).toNat]? = some element)
      (ho : Child R element o) : IndexGives quiet site node R es o
  | settled {os : List Outcome} {o : Outcome}
      (hos : Forall₂ (Child R) (trimmed es) os)
      (hone : ∀ rows cols elements first i k,
        trimmed es = [some (.range rows cols elements), some first] → os[1]? = some i →
        indexOf? i = some k → 1 < rows ∧ 1 < cols)
      (htwo : ∀ rows cols elements first second i j k,
        trimmed es = [some (.range rows cols elements), some first, some second] →
        os[1]? = some i → os[2]? = some j → indexOf? i = some k → indexOf? j = none)
      (ho : Settles quiet site node (site.engine.call Builtin.index.name) os o) :
      IndexGives quiet site node R es o

/-- The walks of the elements of the range that `INDEX` looks into. -/
def gridOf (w : Expr → Action) (r : Int × Int × List (Option Expr)) : Grid :=
  ⟨r.1, r.2.1, r.2.2.map (Option.map w)⟩

theorem holds_walkAt {place : Except Complaint Int}
    (helements : ∀ x, some x ∈ r.2.2 → J.Holds True b (w x) (R x)) :
    J.Holds A b ((gridOf w r).walkAt site node place) fun o => ∃ p element, place = .ok p ∧ 0 ≤ p ∧
      r.2.2[p.toNat]? = some element ∧ Child R element o := by
  cases place with
  | error c => exact holds_raise rfl
  | ok p =>
    simp only [Grid.walkAt, gridOf, getElem?_map, length_map]
    by_cases hp : 0 ≤ p
    · rw [if_pos hp]
      cases he : r.2.2[p.toNat]? with
      | none => exact holds_raise rfl
      | some e =>
        exact (holds_runOr fun x hx => helements x (hx ▸ mem_of_getElem? he)).imp
          fun o _ ho => ⟨p, e, rfl, hp, he, ho⟩
    · rw [if_neg hp]
      exact holds_raise rfl

theorem place?_ok (h : (gridOf w r).place? k = some (.ok p)) :
    ¬(1 < r.1 ∧ 1 < r.2.1) ∧ 1 ≤ k ∧ k ≤ r.2.2.length ∧ p = k - 1 := by
  simp only [Grid.place?, gridOf, length_map] at h
  grind

theorem place?_none (h : (gridOf w r).place? k = none) : 1 < r.1 ∧ 1 < r.2.1 := by
  unfold Grid.place? gridOf at h
  grind

theorem placeAt_ok (h : (gridOf w r).placeAt k l = .ok p) :
    (1 ≤ k ∧ k ≤ r.1) ∧ (1 ≤ l ∧ l ≤ r.2.1) ∧ p = wrap ((k - 1) * r.2.1 + (l - 1)) := by
  unfold Grid.placeAt gridOf at h
  grind

section Index

include hw

theorem holds_index_generic (site : Site) (node : Expr) (done : List Outcome)
    (hdone : A → Forall₂ (Child R) ((trimmed es).take done.length) done)
    (hone : ∀ os rows cols elements first i k,
      trimmed es = [some (.range rows cols elements), some first] → (done ++ os)[1]? = some i →
      indexOf? i = some k → 1 < rows ∧ 1 < cols)
    (htwo : ∀ os rows cols elements first second i j k,
      trimmed es = [some (.range rows cols elements), some first, some second] →
      (done ++ os)[1]? = some i → (done ++ os)[2]? = some j → indexOf? i = some k →
      indexOf? j = none) :
    J.Holds A b (site.generic node (site.engine.call Builtin.index.name) done
      (((trimmed es).map (Option.map w)).drop done.length))
        (IndexGives J.quiet site node R es) := by
  rw [← map_drop]
  refine (holds_generic fun x hx => hw x (mem_of_mem_trimmed (List.mem_of_mem_drop hx))).imp
    fun o hA ⟨os, hos, ho⟩ => ?_
  have hall : Forall₂ (Child R) ((trimmed es).take done.length ++
    (trimmed es).drop done.length) (done ++ os) := rel_append (hdone hA) hos
  rw [List.take_append_drop] at hall
  exact .settled hall (hone os) (htwo os) ho

theorem holds_of_mem_trimmed (x : Expr) (hx : some x ∈ trimmed es) : J.Holds A b (w x) (R x) :=
  (hw x (mem_of_mem_trimmed hx)).any

variable {elements : Children}
  (helements : ∀ x, some x ∈ elements → J.Holds True b (w x) (R x))
include helements

theorem holds_indexForm_one (hes : trimmed es = [some (.range rows cols elements), some first]) :
    J.Holds A b (indexForm site node (some (gridOf w (rows, cols, elements)))
      (es.map (Option.map w))) (IndexGives J.quiet site node R es) := by
  have hgeneric {A : Prop} := holds_index_generic (A := A) hw site node
  have htrim {A : Prop} := hes ▸ holds_of_mem_trimmed (A := A) hw
  simp only [indexForm, trimmed_map, hes, map_cons, map_some, map_nil] at hgeneric ⊢
  refine (htrim first (by simp)).bind fun i => ?_
  cases hk : (indexOf? i).bind (gridOf w (rows, cols, elements)).place? with
  | some place =>
    obtain ⟨k, hk, hplace⟩ := Option.bind_eq_some_iff.mp hk
    refine (holds_walkAt helements).imp fun o ⟨_, hi⟩ ⟨p, element, hp, _, he, ho⟩ => ?_
    obtain ⟨hshape, hlow, _, rfl⟩ := place?_ok (hp ▸ hplace)
    exact .one hes hi hk hshape hlow he ho
  | none =>
    refine (htrim (.range rows cols elements) (by simp)).bind fun r => ?_
    refine hgeneric [r, i] (fun ⟨⟨_, hi⟩, hr⟩ => ?_) ?_ ?_
    · exact .cons hr (.cons hi .nil)
    · intro os rows' cols' elements' first' i' k hes' hi' hk'
      cases hes'
      cases hi'
      rw [hk', bind_some] at hk
      exact place?_none hk
    · intro _ _ _ _ _ _ _ _ _ hes'
      cases hes'

theorem holds_indexForm_two
    (hes : trimmed es = [some (.range rows cols elements), some first, some second]) :
    J.Holds A b (indexForm site node (some (gridOf w (rows, cols, elements)))
      (es.map (Option.map w))) (IndexGives J.quiet site node R es) := by
  have hgeneric {A : Prop} := holds_index_generic (A := A) hw site node
  have htrim {A : Prop} := hes ▸ holds_of_mem_trimmed (A := A) hw
  simp only [indexForm, trimmed_map, hes, map_cons, map_some, map_nil] at hgeneric ⊢
  refine (htrim first (by simp)).bind fun i => ?_
  cases hk : indexOf? i with
  | none =>
    refine (htrim (.range rows cols elements) (by simp)).bind fun r => ?_
    refine hgeneric [r, i] (fun ⟨⟨_, hi⟩, hr⟩ => ?_) ?_ ?_
    · exact .cons hr (.cons hi .nil)
    · intro _ _ _ _ _ _ _ hes'
      cases hes'
    · intro os _ _ _ _ _ i' j k hes' hi' hj hk'
      cases hi'
      rw [hk] at hk'
      cases hk'
  | some k =>
    refine (htrim second (by simp)).bind fun j => ?_
    cases hl : indexOf? j with
    | some l =>
      refine (holds_walkAt helements).imp
        fun o ⟨⟨_, hi⟩, hj⟩ ⟨p, element, hp, hp', he, ho⟩ => ?_
      obtain ⟨hrow, hcol, rfl⟩ := placeAt_ok hp
      exact .two hes hi hk hj hl hrow hcol hp' he ho
    | none =>
      refine (htrim (.range rows cols elements) (by simp)).bind fun r => ?_
      refine hgeneric [r, i, j] (fun ⟨⟨⟨_, hi⟩, hj⟩, hr⟩ => ?_) ?_ ?_
      · exact .cons hr (.cons hi (.cons hj .nil))
      · intro _ _ _ _ _ _ _ hes'
        cases hes'
      · intro os _ _ _ _ _ i' j' k' hes' hi' hj' hk'
        cases hj'
        exact hl

end Index

/-- A written range that is not followed by one or two indices is not looked into. -/
theorem indexForm_of_ne (hone : ¬∃ first, trimmed more = [some first])
    (htwo : ¬∃ first second, trimmed more = [some first, some second]) :
    indexForm site node (some (gridOf w (rows, cols, elements)))
        ((some (.range rows cols elements) :: more).map (Option.map w)) =
      site.generic node (site.engine.call Builtin.index.name) []
        ((trimmed (some (.range rows cols elements) :: more)).map (Option.map w)) := by
  unfold indexForm
  dsimp only
  rw [trimmed_map, trimmed_some_cons, map_cons]
  split
  · rename_i heq
    simp only [List.cons.injEq, map_eq_cons_iff, map_eq_nil_iff,
      map_eq_some_iff] at heq
    obtain ⟨_, _, _, hmore, ⟨first, rfl, _⟩, rfl⟩ := heq
    exact absurd ⟨first, hmore⟩ hone
  · rename_i heq
    simp only [List.cons.injEq, map_eq_cons_iff, map_eq_nil_iff,
      map_eq_some_iff] at heq
    obtain ⟨_, _, _, hmore, ⟨first, rfl, _⟩, _, _, rfl, ⟨second, rfl, _⟩, rfl⟩ := heq
    exact absurd ⟨first, second, hmore⟩ htwo
  · rfl

include hw in
theorem holds_indexForm
    (helements : ∀ r, indexRange? es = some r →
      ∀ x, some x ∈ r.2.2 → J.Holds True b (w x) (R x)) :
    J.Holds A b (indexForm site node ((indexRange? es).map (gridOf w)) (es.map (Option.map w)))
      (IndexGives J.quiet site node R es) := by
  -- Only a range followed by one or two indices is looked into directly.
  have hgeneric (hno : ∀ rows cols elements first,
        trimmed es ≠ [some (.range rows cols elements), some first])
      (hno' : ∀ rows cols elements first second,
        trimmed es ≠ [some (.range rows cols elements), some first, some second]) :
      J.Holds A b (site.generic node (site.engine.call Builtin.index.name) []
        ((trimmed es).map (Option.map w))) (IndexGives J.quiet site node R es) :=
    holds_index_generic hw site node [] (fun _ => .nil)
      (fun _ _ _ _ _ _ _ hes => absurd hes (hno _ _ _ _))
      fun _ _ _ _ _ _ _ _ _ hes => absurd hes (hno' _ _ _ _ _)
  cases hrange : indexRange? es with
  | none =>
    simp only [indexForm, trimmed_map, map_none, List.length_nil, List.drop_zero]
    refine hgeneric ?_ ?_
    · intro rows cols elements first hes
      obtain ⟨more, rfl, _⟩ := exists_of_trimmed_eq_cons hes
      cases hrange
    · intro rows cols elements first second hes
      obtain ⟨more, rfl, _⟩ := exists_of_trimmed_eq_cons hes
      cases hrange
  | some r =>
    obtain ⟨rows, cols, elements⟩ := r
    obtain ⟨more, rfl⟩ := indexRange?_eq_some hrange
    rw [map_some]
    by_cases hone : ∃ first, trimmed more = [some first]
    · obtain ⟨first, hfirst⟩ := hone
      exact holds_indexForm_one hw (helements _ hrange) (by rw [trimmed_some_cons, hfirst])
    by_cases htwo : ∃ first second, trimmed more = [some first, some second]
    · obtain ⟨first, second, hsecond⟩ := htwo
      exact holds_indexForm_two hw (helements _ hrange) (by rw [trimmed_some_cons, hsecond])
    rw [indexForm_of_ne hone htwo]
    refine hgeneric ?_ ?_
    · intro _ _ _ first hes
      rw [trimmed_some_cons] at hes
      exact hone ⟨first, (List.cons.inj hes).2⟩
    · intro _ _ _ first second hes
      rw [trimmed_some_cons] at hes
      exact htwo ⟨first, second, (List.cons.inj hes).2⟩

/-! ## Positions and joined texts -/

/-- What `ROW` and `COLUMN` give. -/
inductive PositionGives (quiet : Prop) (site : Site) (R : Giving) (fn : String)
    (position : Address → Int) (args : Children) (t : DataType) : Outcome → Prop
  | known {a : Address} {o : Outcome} (ha : positionCell site fn args = .ok a)
      (ho : site.kept? (.call fn args t) (.ok (.number (Float.ofInt (position a)))) = some o) :
      PositionGives quiet site R fn position args t o
  | left {os : List Outcome} {o : Outcome}
      (ha : ∀ a, positionCell site fn args = .ok a →
        site.kept? (.call fn args t) (.ok (.number (Float.ofInt (position a)))) = none)
      (hos : Forall₂ (Child R) (trimmed args) os) (ho : Rebuilt (.call fn args t) os o)
      (hloud : ¬quiet) : PositionGives quiet site R fn position args t o

include hw in
theorem holds_positionForm {position : Address → Int} :
    J.Holds A b (positionForm site (.call fn es t) fn position es (es.map (Option.map w)))
      (PositionGives J.quiet site R fn position es t) := by
  unfold positionForm
  rw [trimmed_map]
  refine holds_tryConstant_or (fun o _ ho => ?_) ?_
  · cases ha : positionCell site fn es with
    | error f =>
      rw [ha] at ho
      cases ho
    | ok a =>
      rw [ha] at ho
      exact .known ha ho
  · refine (holds_runAll fun x hx => hw x (mem_of_mem_trimmed hx)).bind fun os =>
      holds_residual.imp fun o ⟨⟨_, htries⟩, hos⟩ ho => ?_
    refine .left (fun a ha => ?_) hos ho (htries.loud rfl)
    have heq := htries.eq
    rw [ha] at heq
    exact heq.symm

/-- Whether a run of constants is joined. -/
def worthJoining (sole : Bool) : List Outcome → Bool
  | [] => false
  | [o] => sole || !o.isKnown
  | _ => true

/-- A run of constants after it was joined, where that is possible. -/
def Site.flushed (site : Site) (node : Expr) (sole : Bool) (run : List Outcome) :
    List Expr × Bool :=
  if worthJoining sole run then
    match site.kept? node (site.engine.call Builtin.concatenate.name (Outcome.values run)) with
    | some o => ([o.expr], true)
    | none => (run.map (·.expr), false)
  else (run.map (·.expr), false)

/-- The arguments of `CONCATENATE` after adjacent constants were joined. -/
def Site.merged (site : Site) (node : Expr) (sole : Bool) (run : List Outcome) :
    List Outcome → List Expr × Bool
  | [] => site.flushed node sole run
  | o :: rest =>
    if o.isConstant then site.merged node sole (run ++ [o]) rest
    else
      ((site.flushed node sole run).1 ++ o.expr :: (site.merged node sole [] rest).1,
        (site.merged node sole [] rest).2)

theorem flushRun_eq (sole : Bool) (run : List Outcome) :
    flushRun site node sole run = if worthJoining sole run then
      site.tryConstant node (site.engine.call Builtin.concatenate.name (Outcome.values run)) >>=
        fun
          | some o => pure ([o.expr], true)
          | none => pure (run.map (·.expr), false)
      else pure (run.map (·.expr), false) := by
  rcases run with _ | ⟨o, _ | ⟨o', run⟩⟩
  all_goals
    simp only [flushRun, worthJoining]
    refine ite_congr rfl (fun _ => ?_) fun _ => rfl
    congr 1
    funext r
    cases r <;> rfl

/-- Joining a run that is worth it is not refused in a walk that refuses nothing. -/
def Site.Joins (site : Site) (node : Expr) (sole : Bool) (run : List Outcome) : Prop :=
  worthJoining sole run = true →
    site.kept? node (site.engine.call Builtin.concatenate.name (Outcome.values run)) ≠ none

theorem holds_flushRun :
    J.Holds A b (flushRun site node sole run) fun r =>
      r = site.flushed node sole run ∧ (J.quiet → site.Joins node sole run) := by
  rw [flushRun_eq]
  unfold Site.flushed Site.Joins
  refine holds_ite (fun hworth => ?_) fun hworth => holds_pure fun _ => ?_
  · refine holds_tryConstant.bind fun r => ?_
    rw [if_pos hworth]
    cases r with
    | some o =>
      refine holds_pure fun ⟨_, htries⟩ => ?_
      rw [← htries.eq]
      exact ⟨rfl, fun _ _ => by simp⟩
    | none =>
      refine holds_pure fun ⟨_, htries⟩ => ?_
      rw [← htries.eq]
      exact ⟨rfl, fun hquiet => absurd hquiet (htries.loud rfl)⟩
  · rw [if_neg hworth]
    exact ⟨rfl, fun _ h => absurd h hworth⟩

theorem holds_mergeRuns {os : List Outcome} :
    J.Holds A b (mergeRuns site node sole run os) fun r =>
      r = site.merged node sole run os ∧
        (J.quiet → os.all (·.isConstant) = true → site.Joins node sole (run ++ os)) := by
  induction os generalizing run A with
  | nil =>
    refine holds_flushRun.imp fun r _ ⟨hr, hjoins⟩ => ⟨hr, fun hquiet _ => ?_⟩
    rw [append_nil]
    exact hjoins hquiet
  | cons o rest ih =>
    unfold mergeRuns Site.merged
    refine holds_ite (fun hconst => ?_) fun hconst => ?_
    · rw [if_pos hconst]
      refine ih.imp fun r _ ⟨hr, hjoins⟩ => ⟨hr, fun hquiet hall => ?_⟩
      simpa using hjoins hquiet (and_eq_true_iff.mp hall).2
    · rw [if_neg hconst]
      refine holds_flushRun.bind fun joined => ih.bind fun merged =>
        holds_pure fun ⟨⟨_, hjoined, _⟩, hmerged, _⟩ => ?_
      subst hjoined hmerged
      exact ⟨rfl, fun _ hall => absurd (and_eq_true_iff.mp hall).1 hconst⟩

/-- What `CONCATENATE` gives once its arguments are walked. -/
def Site.concatenated (site : Site) (node : Expr) (fn : String) (t : DataType)
    (os : List Outcome) : Outcome :=
  if os.isEmpty then
    (site.kept? node (site.engine.call Builtin.concatenate.name [])).getD (.ofExpr node)
  else
    match site.merged node (os.length == 1) [] os with
    | (merged, joined) =>
      match merged, joined && os.all (·.isConstant) with
      | [e], true => .ofExpr e
      | merged, _ => .ofExpr (.call fn (merged.map some) t)

include hw in
theorem holds_concatForm : J.Holds A b (concatForm site node fn t (es.map (Option.map w))) fun o =>
      ∃ os, Forall₂ (Child R) (trimmed es) os ∧ o = site.concatenated node fn t os ∧
        (J.quiet → os.all (·.isConstant) = true →
          site.kept? node
            (site.engine.call Builtin.concatenate.name (Outcome.values os)) ≠ none) := by
  unfold concatForm
  rw [trimmed_map]
  refine (holds_runAll fun x hx => hw x (mem_of_mem_trimmed hx)).bind fun os => ?_
  unfold Site.concatenated
  refine holds_ite (fun hempty => ?_) fun hempty => ?_
  · obtain rfl := isEmpty_iff.mp hempty
    refine holds_tryConstant_or (fun o ⟨_, hos⟩ ho => ?_)
      (holds_dynamic fun ⟨⟨_, hos⟩, htries⟩ => ?_)
    · refine ⟨[], hos, ?_, fun _ _ => ?_⟩
      · simp [ho]
      · simp [Outcome.values, ho]
    · refine ⟨[], hos, ?_, fun hquiet => absurd hquiet (htries.loud rfl)⟩
      simp [← htries.eq]
  · refine holds_mergeRuns.bind fun r => ?_
    obtain ⟨merged, joined⟩ := r
    have hfinish (o : Outcome) (ho : site.merged node (os.length == 1) [] os = (merged, joined) →
        o = site.concatenated node fn t os) (h : (A ∧ Forall₂ (Child R) (trimmed es) os) ∧
          (merged, joined) = site.merged node (os.length == 1) [] os ∧ (J.quiet →
            os.all (·.isConstant) = true → site.Joins node (os.length == 1) ([] ++ os))) :
        ∃ os, Forall₂ (Child R) (trimmed es) os ∧ o = site.concatenated node fn t os ∧
          (J.quiet → os.all (·.isConstant) = true → site.kept? node
            (site.engine.call Builtin.concatenate.name (Outcome.values os)) ≠ none) := by
      obtain ⟨⟨_, hos⟩, hmerged, hjoins⟩ := h
      refine ⟨os, hos, ho hmerged.symm, fun hquiet hall => hjoins hquiet hall ?_⟩
      rcases os with _ | ⟨o, _ | ⟨o', os⟩⟩ <;> simp_all [worthJoining]
    unfold Site.concatenated at hfinish
    simp only [if_neg hempty] at hfinish
    dsimp only
    rcases merged with _ | ⟨e, _ | ⟨e', rest⟩⟩
    · exact holds_dynamic (hfinish _ fun h => by rw [h])
    · cases hall : joined && os.all (·.isConstant) with
      | true => exact holds_pure (hfinish _ fun h => by simp only [h, hall])
      | false => exact holds_dynamic (hfinish _ fun h => by simp only [h, hall])
    · exact holds_dynamic (hfinish _ fun h => by rw [h])

/-! ## The other forms -/

include hw in
theorem holds_callForm : J.Holds A b (callForm site node fn (es.map (Option.map w))) fun o =>
      ∃ os, Forall₂ (Child R) (trimmed es) os ∧ Settles J.quiet site node
        (fun args => if site.engine.isVolatile fn then .error (.volatile fn)
          else site.engine.call fn args) os o := by
  unfold callForm
  exact holds_computed hw

include hw in
theorem holds_rebuildForm : J.Holds A b (rebuildForm site node (es.map (Option.map w))) fun o =>
    ∃ os, Forall₂ (Child R) (trimmed es) os ∧ Rebuilt node os o := by
  unfold rebuildForm
  rw [trimmed_map]
  exact (holds_runAll fun x hx => hw x (mem_of_mem_trimmed hx)).bind fun os =>
    holds_residual.imp fun o ⟨_, hos⟩ ho => ⟨os, hos, ho⟩

end Forms

/-- What a `letIn` gives, with the outcomes of its value and of its body. -/
inductive LetGives (name : String) (v : Outcome) : Outcome → Outcome → Prop
  | known {u : Value} {t : DataType} : LetGives name v (.known u t) (.known u t)
  | left {e : Expr} :
      LetGives name v (.residual e) (.ofExpr (.letIn name (some v.expr) (some e)))

theorem holds_letForm {R : Bindings → Giving} {name : String}
    {value body : Option Expr} (hvalue : ∀ x, value = some x → J.Holds True b (w x) (R b x))
    (hbody : ∀ y o, body = some y →
      J.Holds True (b.push name o) (w y) (R (b.push name o) y)) :
    J.Holds A b (letForm site name (value.map w) (body.map w)) fun o =>
      ∃ x y v r, value = some x ∧ body = some y ∧ R b x v ∧
        R (b.push name (if v.isConstant then some v else none)) y r ∧ LetGives name v r o := by
  cases value with
  | none => exact holds_raise rfl
  | some x =>
    refine (hvalue x rfl).any.bind fun v => ?_
    cases body with
    | none =>
      have hmissing : J.Holds (A ∧ R b x v) b (binding name (if v.isConstant then some v else none)
        (letForm.runMissing none)) fun _ => False := Holds.binding (holds_raise rfl)
      refine hmissing.bind fun r => ?_
      cases r with
      | known => exact holds_pure fun h => h.2.elim
      | residual => exact holds_dynamic fun h => h.2.elim
    | some y =>
      refine (hbody y (if v.isConstant then some v else none) rfl).any.binding.bind fun r => ?_
      cases r with
      | known => exact holds_pure fun ⟨⟨_, hv⟩, hr⟩ => ⟨x, y, v, _, rfl, rfl, hv, hr, .known⟩
      | residual => exact holds_dynamic fun ⟨⟨_, hv⟩, hr⟩ => ⟨x, y, v, _, rfl, rfl, hv, hr, .left⟩

theorem holds_nameForm (hbound : bound → ∃ o, b.lookup name = .ok o) :
    J.Holds A b (nameForm site name t) fun o =>
      b.lookup name = .ok (some o) ∨ b.lookup name = .ok none ∧ o = .ofExpr (.letVar name t) := by
  intro s hs
  have hrun (r : Option Outcome) (hlookup : b.lookup name = .ok r) : nameForm site name t s =
      (r.elim (site.dynamic (.letVar name t)) pure : Action) s := by
    simp only [nameForm, bind_apply, naming_lookup hs, hlookup]
    cases r <;> rfl
  cases hlookup : b.lookup name with
  | ok r =>
    refine Holds.congr ?_ (hrun r hlookup)
    cases r with
    | some o => exact holds_pure (fun _ => .inl rfl) s hs
    | none => exact holds_dynamic (fun _ => .inr ⟨rfl, rfl⟩) s hs
  | error e =>
    have hrun : nameForm site name t s = .error (.bindings e) s := by
      simp only [nameForm, bind_apply, naming_lookup hs, hlookup]
    have he : e = .notBound name := by
      unfold Bindings.lookup at hlookup
      split at hlookup <;> cases hlookup
      rfl
    unfold FramesAt Owes Walk.final
    rw [hrun]
    refine ⟨⟨.refl s, .inr ⟨⟨name, by rw [he]⟩, fun hb => ?_⟩⟩, fun _ hkeeps _ => ⟨hkeeps, trivial⟩⟩
    obtain ⟨o, ho⟩ := hbound hb
    cases ho.symm.trans hlookup

/-- The branch of a switch that the selector value `k` chooses. -/
def chosenBranch (cases : List (Case Expr)) (otherwise : Option Expr) (k : Int) : Option Expr :=
  match cases.find? (·.matches k) with
  | some c => c.branch
  | none => otherwise

theorem find?_map_case (cases : List (Case Expr)) (k : Int) :
    (cases.map (Case.map w)).find? (·.matches k) =
      (cases.find? (·.matches k)).map (Case.map w) := by
  rw [List.find?_map]
  rfl

/-- The branch that a switch walks. -/
theorem branch_eq_chosenBranch (cases : List (Case Expr)) (otherwise : Option Expr) (k : Int) :
    (match (cases.map (Case.map w)).find? (·.matches k) with
      | some c => runOr .blank c.branch
      | none => runOr .blank (otherwise.map w) : Action) =
      runOr .blank ((chosenBranch cases otherwise k).map w) := by
  rw [find?_map_case]
  unfold chosenBranch
  cases cases.find? (·.matches k) <;> rfl

/-- What a switch gives, with the outcome of its selector; `S` says what the cases give where they
are walked as nodes of their own. -/
inductive SwitchGives (node : Expr) (R S : Giving) (cases : List (Case Expr))
    (otherwise : Option Expr) : Outcome → Outcome → Prop
  | chosen {v : Value} {t : DataType} {o : Outcome}
      (ho : Child R (chosenBranch cases otherwise (v.toInt leastWord)) o) :
      SwitchGives node R S cases otherwise (.known v t) o
  | left {r : Expr} {os : List Outcome} {o : Outcome}
      (hos : Forall₂ (Child S)
        (trimmed (cases.map (fun c => some (.switchCase c)) ++ [otherwise])) os)
      (ho : Rebuilt node (.residual r :: os) o) :
      SwitchGives node R S cases otherwise (.residual r) o

theorem holds_switchForm {S : Giving} {selector otherwise : Option Expr}
    {cases : List (Case Expr)} (hselector : ∀ x, selector = some x → J.Holds True b (w x) (R x))
    (hchosen : ∀ k x, chosenBranch cases otherwise k = some x → J.Holds True b (w x) (R x))
    (hnodes : ∀ x, some x ∈ cases.map (fun c => some (.switchCase c)) ++ [otherwise] →
      J.Holds True b (w x) (S x)) :
    J.Holds A b (switchForm site node (selector.map w) (cases.map (Case.map w)) (otherwise.map w)
      ((selector :: (cases.map (fun c => some (.switchCase c)) ++ [otherwise])).map
        (Option.map w))) fun o =>
      ∃ x s, selector = some x ∧ R x s ∧ SwitchGives node R S cases otherwise s o := by
  cases selector with
  | none => exact holds_raise rfl
  | some x =>
    refine (hselector x rfl).any.bind fun s => ?_
    cases s with
    | known v t =>
      have hbranch : J.Holds (A ∧ R x (.known v t)) b
          (runOr .blank ((chosenBranch cases otherwise (v.toInt leastWord)).map w))
          (Child R (chosenBranch cases otherwise (v.toInt leastWord))) :=
        holds_runOr (hchosen _)
      rw [← branch_eq_chosenBranch] at hbranch
      exact hbranch.imp fun o h ho => ⟨x, _, rfl, h.2, .chosen ho⟩
    | residual r =>
      dsimp only
      rw [trimmed_map, trimmed_some_cons, map_cons, List.drop_one, List.tail_cons]
      refine (holds_runAll fun y hy => hnodes y (mem_of_mem_trimmed hy)).bind
        fun os => holds_residual.imp fun o ⟨⟨_, hr⟩, hos⟩ ho => ⟨x, _, rfl, hr, .left hos ho⟩

/-- What a formula of an enclosing section gives, with the outcome of its inner formula. -/
inductive ParentGives (node : Expr) : Outcome → Outcome → Prop
  | known {v : Value} {t : DataType} : ParentGives node (.known v t) (.known v t)
  | left {r e : Expr}
      (he : node.withChildren (keepMissing node.children [.residual r]) = .ok e) :
      ParentGives node (.residual r) (.ofExpr e)

theorem holds_parentForm {inner : Option Expr}
    (hinner : ∀ x, inner = some x → J.Holds True b (w x) (R x)) :
    J.Holds A b (parentForm site node (inner.map w)) fun o =>
      ∃ x r, inner = some x ∧ R x r ∧ ParentGives node r o := by
  cases inner with
  | none => exact holds_raise rfl
  | some x =>
    refine (hinner x rfl).any.bind fun r => ?_
    cases r with
    | known => exact holds_pure fun ⟨_, hr⟩ => ⟨x, _, rfl, hr, .known⟩
    | residual =>
      refine holds_residual.imp ?_
      rintro _ ⟨_, hr⟩ ⟨e, he, rfl⟩
      exact ⟨x, _, rfl, hr, .left he⟩

/-! ## Counts -/

theorem wrap_wrap (a : Int) : wrap (wrap a) = wrap a := Int.bmod_bmod

theorem wrap_add_congr {a b c d : Int} (h : wrap a = wrap b) (h' : wrap c = wrap d) :
    wrap (a + c) = wrap (b + d) := by
  unfold wrap at *
  rw [← Int.bmod_add_bmod, ← Int.add_bmod_bmod, h, h', Int.bmod_add_bmod, Int.add_bmod_bmod]

namespace Expr

mutual
/-- The formulas that are counted in the place of a formula, in the order in which they are met.
Ranges, splices and enclosing sections are looked into, sub-sections are not. -/
def countItems : Expr → List (Option Expr)
  | range _ _ elements | splice elements => countItemsAll elements
  | parentSection _ none => [none]
  | parentSection _ (some inner) => countItems inner
  | e => [some e]
/-- The formulas that are counted in the place of children. -/
def countItemsAll : List (Option Expr) → List (Option Expr)
  | [] => []
  | none :: rest => none :: countItemsAll rest
  | some e :: rest => countItems e ++ countItemsAll rest
end

/-- Whether a formula is a sub-section. -/
def isSubSection : Expr → Bool
  | subSection .. => true
  | _ => false

/-- A sub-section that has sub-sections inside, and its name. -/
def nested? : Option Expr → Option (Option String × Expr)
  | some (subSection s elements) =>
    if anySubSection elements then some (s, subSection s elements) else none
  | _ => none

end Expr

/-- The formulas that the arguments of a count come to; missing arguments do not count. -/
def countItemsOf (args : Children) : List (Option Expr) :=
  (present args).flatMap Expr.countItems

/-- The sub-sections among counted formulas. -/
def sectionsIn (items : Children) : List Expr := (present items).filter Expr.isSubSection

/-- The number of counted formulas that are no sub-sections. -/
def unitsIn (items : Children) : Nat := items.countP fun e => !e.any Expr.isSubSection

/-- What counting formulas comes to: the first sub-section with sub-sections inside is an error. -/
def itemCount (items : Children) : Except (Option String × Expr) (Int × List Expr) :=
  match items.findSome? Expr.nested? with
  | some e => .error e
  | none => .ok (wrap (unitsIn items), sectionsIn items)

theorem sectionsIn_append (xs ys : Children) :
    sectionsIn (xs ++ ys) = sectionsIn xs ++ sectionsIn ys := by
  simp [sectionsIn, present, List.reduceOption_append]

theorem sectionsIn_unit {e : Option Expr} (he : e.any Expr.isSubSection = false) :
    sectionsIn [e] = [] := by
  cases e with
  | none => rfl
  | some e => simpa [sectionsIn, present, Expr.isSubSection] using he

theorem itemCount_append (xs ys : Children) : itemCount (xs ++ ys) = (do
    let (n, sections) ← itemCount xs
    let (m, more) ← itemCount ys
    return (wrap (n + m), sections ++ more)) := by
  unfold itemCount
  rw [List.findSome?_append]
  cases xs.findSome? Expr.nested? with
  | some e => rfl
  | none =>
    cases ys.findSome? Expr.nested? with
    | some e => rfl
    | none =>
      have hunits : wrap (wrap (unitsIn xs) + wrap (unitsIn ys)) = wrap (unitsIn (xs ++ ys)) := by
        rw [wrap_add_congr (wrap_wrap _) (wrap_wrap _), ← Int.natCast_add]
        simp only [unitsIn, List.countP_append]
      simp [bind, Except.bind, pure, Except.pure, hunits, sectionsIn_append]

theorem itemCount_unit {e : Option Expr} (he : e.any Expr.isSubSection = false) :
    itemCount [e] = .ok (1, []) := by
  have hnested : Expr.nested? e = none := by
    unfold Expr.nested?
    split
    · cases he
    · rfl
  have hone : wrap 1 = 1 := by decide
  simp [itemCount, hnested, sectionsIn_unit he, unitsIn, he, hone]

namespace Expr

theorem countItemsAll_eq (es : Children) :
    countItemsAll es = es.flatMap fun e => e.elim [none] countItems := by
  induction es with
  | nil => rfl
  | cons e es ih => cases e <;> simp [countItemsAll, ih]

theorem countAll_eq (hes : ∀ e, some e ∈ es → e.countParts = itemCount e.countItems) :
    countAll es = itemCount (countItemsAll es) := by
  induction es with
  | nil => rfl
  | cons e es ih =>
    have ih := ih fun x hx => hes x (mem_cons_of_mem _ hx)
    cases e with
    | none =>
      rw [countAll, ih, countItemsAll, ← singleton_append, itemCount_append, itemCount_unit rfl]
      simp only [bind, Except.bind, Int.add_comm, nil_append]
    | some e => rw [countAll, hes e mem_cons_self, ih, countItemsAll, itemCount_append]

/-- **A formula is counted by the formulas that it comes to.** -/
theorem countParts_eq (e : Expr) : e.countParts = itemCount e.countItems := by
  induction e using induction_on_parts with
  | step e ih =>
    cases e with
    | range rows cols elements | splice elements =>
      rw [countParts, countItems]
      exact countAll_eq fun x hx => ih x (.part (by simpa [parts] using hx))
    | subSection s elements =>
      have hzero : wrap 0 = 0 := by decide
      have hitems : (subSection s elements).countItems = [some (subSection s elements)] := rfl
      have hsections : sectionsIn [some (subSection s elements)] = [subSection s elements] := rfl
      rw [countParts, hitems, itemCount, hsections]
      cases h : anySubSection elements <;> simp [nested?, h, unitsIn, isSubSection, hzero]
    | parentSection s inner =>
      cases inner with
      | none => exact (itemCount_unit rfl).symm
      | some inner =>
        rw [countParts, countItems]
        exact ih inner (.part (by simp [parts]))
    | _ => exact (itemCount_unit rfl).symm

end Expr

theorem countArgs_eq (args : Children) : countArgs args = itemCount (countItemsOf args) := by
  induction args with
  | nil => rfl
  | cons e args ih =>
    cases e with
    | none => exact ih
    | some e =>
      have hcons : countItemsOf (some e :: args) = e.countItems ++ countItemsOf args := rfl
      rw [hcons, itemCount_append, countArgs, e.countParts_eq, ih]

theorem sectionsIn_of_countArgs (h : countArgs args = .ok (n, sections)) :
    (∀ x ∈ countItemsOf args, Expr.nested? x = none) ∧ n = wrap (unitsIn (countItemsOf args)) ∧
      sections = sectionsIn (countItemsOf args) := by
  rw [countArgs_eq, itemCount] at h
  split at h
  · cases h
  · rename_i hnested
    simp only [Except.ok.injEq, Prod.mk.injEq] at h
    exact ⟨List.findSome?_eq_none_iff.mp hnested, h.1.symm, h.2.symm⟩

/-- What a count gives. -/
inductive CountGives (static : Int) (args : Children) : Outcome → Prop
  | known {n : Int} (hn : countArgs (trimmed args) = .ok (n, [])) :
      CountGives static args (.constant (.number (Float.ofInt (wrap (static + n)))) .numeric)
  | left {n : Int} {sections : List Expr} (hn : countArgs (trimmed args) = .ok (n, sections))
      (hsections : sections ≠ []) :
      CountGives static args (.ofExpr (.count (wrap (static + n)) (sections.map some)))

theorem holds_countForm :
    J.Holds A b (countForm site static args) (CountGives static args) := by
  unfold countForm
  split
  · exact holds_raise rfl
  · exact holds_pure fun _ => .known ‹_›
  · rename_i n sections hne hn
    exact holds_dynamic fun _ => .left hn hne

/-! ## Cells -/

/-- What a cell without a formula stands for. -/
def Site.literalOf (site : Site) (a : Address) : Outcome :=
  if (site.book.get a).value.isNull then .blank
  else .constant (site.engine.literal (site.book.get a).value) (site.book.get a).type

section Cell

theorem cellForm_input (hinput : (site.book.get a).input = true) :
    cellForm site enter a = site.dynamic (.cell a) := by
  unfold cellForm
  simp [hinput]

theorem cellForm_remembered (hinput : (site.book.get a).input = false)
    (hc : s.memo.find? a = some c) : cellForm site enter a s = (do
      Walk.tally fun s => { s with cacheHits := s.cacheHits + 1 }
      return .constant c.value c.type : Action) s := by
  unfold cellForm
  simp only [hinput, false_eq_true, if_false, bind_apply, get_apply, hc]

theorem cellForm_literal (hinput : (site.book.get a).input = false)
    (hformula : (site.book.get a).formula = none) (hc : s.memo.find? a = none) :
    cellForm site enter a s = (do
      remember a (site.literalOf a).value ((site.literalOf a).type site.book.cellType)
      return site.literalOf a : Action) s := by
  unfold cellForm Site.literalOf
  simp only [hinput, false_eq_true, if_false, bind_apply, get_apply, hc, hformula]

theorem cellForm_active (hinput : (site.book.get a).input = false)
    (hformula : (site.book.get a).formula = some f) (hc : s.memo.find? a = none)
    (ha : a ∈ s.active) : cellForm site enter a s = site.dynamic (.cell a) s := by
  unfold cellForm
  simp only [hinput, false_eq_true, if_false, bind_apply, get_apply, hc, hformula,
    List.contains_iff_mem.mpr ha, if_true]

theorem cellForm_enter (hinput : (site.book.get a).input = false)
    (hformula : (site.book.get a).formula = some f) (hc : s.memo.find? a = none)
    (ha : a ∉ s.active) :
    cellForm site enter a s = (marking a (isolated (enter a f)) >>= fun o =>
      match o with
      | .known v t => remember a v t >>= fun _ => pure (.known v t)
      | .residual _ => site.dynamic (.cell a) : Action) s := by
  have hcontains : s.active.contains a = false := by
    simpa using ha
  unfold cellForm
  rewrite [hinput, if_neg Bool.false_ne_true, bind_apply]
  dsimp only [get_apply]
  rewrite [hc, hformula]
  dsimp only
  rewrite [bind_apply]
  dsimp only [get_apply]
  rewrite [hcontains]
  rfl

end Cell

/-- What walking a cell does with its value keeps `E` of the memory. -/
structure Earns (E : Memo → Prop) (site : Site) (enter : Address → Expr → Action) : Prop where
  literal : ∀ a m, (site.book.get a).input = false → (site.book.get a).formula = none →
    m.find? a = none → E m →
    E (m.set a ⟨(site.literalOf a).value, (site.literalOf a).type site.book.cellType⟩)
  formula : ∀ a f s s' v t, (site.book.get a).input = false →
    (site.book.get a).formula = some f → s.bindings = .empty →
    enter a f s = .ok (.known v t) s' → s'.memo.find? a = none → E s'.memo →
    E (s'.memo.set a ⟨v, t⟩)

/-- Remembering a constant of a cell that is not marked and of which nothing is remembered. -/
theorem framesAt_remember (hc : s.memo.find? a = none)
    (ha : a ∈ s.active → (book.get a).formula.isSome = false)
    (hE : E s.memo → E (s.memo.set a ⟨v, t⟩)) : FramesAt book E bound s (remember a v t) := by
  unfold remember FramesAt
  simp only [bind_apply, get_apply, hc]
  refine ⟨rfl, rfl, Memo.within_set _ hc, fun c hca hf => Memo.find?_set_of_ne _ _ ?_, hE,
    Nat.le_refl _⟩
  rintro rfl
  rw [ha hca] at hf
  cases hf

theorem frames_written (e : Expr) : Frames book E bound b (site.written e) :=
  (holds_written (J := framing book E bound False) (A := True) e).frames

theorem frames_dynamic (e : Expr) : Frames book E bound b (site.dynamic e) :=
  (holds_dynamic (J := framing book E bound False) (A := True) (Q := fun _ => True)
    fun _ => trivial).frames

theorem frames_cellForm {enter : Address → Expr → Action}
    (hE : Earns E site enter) (henter : ∀ f, (site.book.get a).formula = some f →
      Frames site.book E bound .empty (enter a f)) :
    Frames site.book E bound b (cellForm site enter a) := by
  intro s hs
  by_cases hinput : (site.book.get a).input
  · rw [cellForm_input hinput]
    exact frames_dynamic _ s hs
  have hinput : (site.book.get a).input = false := by simpa using hinput
  cases hc : s.memo.find? a with
  | some c =>
    have htally : ∀ c : Stats, c.refused ≤ { c with cacheHits := c.cacheHits + 1 }.refused :=
      fun _ => Nat.le_refl _
    exact ((frames_tally htally).bind (fun _ => frames_pure _) s hs).congr
      (cellForm_remembered hinput hc)
  | none =>
    cases hformula : (site.book.get a).formula with
    | none =>
      refine FramesAt.congr ?_ (cellForm_literal hinput hformula hc)
      refine (framesAt_remember hc (by simp [hformula])
        (hE.literal a _ hinput hformula hc)).bind fun _ s' _ => .refl s'
    | some f =>
      by_cases ha : a ∈ s.active
      · exact (frames_dynamic _ s hs).congr (cellForm_active hinput hformula hc ha)
      · refine FramesAt.congr ?_ (cellForm_enter hinput hformula hc ha)
        have hinner := frames_isolated (b := s.bindings) (henter f hformula) (s.mark a) rfl
        have houter := framesAt_marking ha hinner
        refine houter.bind fun o s' h => ?_
        have hgrow := houter.growth h
        have hs' : s'.bindings = b := hgrow.bindings.trans hs
        cases o with
        | residual _ => exact frames_dynamic _ s' hs'
        | known v t =>
          have hc' : s'.memo.find? a = none := by
            rw [find?_marking (by simp [hformula]) hinner h, hc]
          refine (framesAt_remember hc' (fun h => absurd (hgrow.active ▸ h) ha) ?_).bind
            fun _ s'' _ => .refl s''
          obtain ⟨t₁, ht₁, rfl⟩ := marking_ok h
          rw [isolated_apply] at ht₁
          obtain ⟨t₂, ht₂, rfl⟩ := within_ok ht₁
          exact hE.formula a f _ t₂ v t hinput hformula rfl ht₂ hc'

/-- What a reference to a cell gives; `entered` is what entering its formula gives. -/
inductive CellGives (site : Site) (L U : Memo) (entered : Address → Giving)
    (a : Address) : Outcome → Prop
  | input (hinput : (site.book.get a).input = true) :
      CellGives site L U entered a (.ofExpr (.cell a))
  | remembered {c : Constant} (hinput : (site.book.get a).input = false)
      (hc : U.find? a = some c) : CellGives site L U entered a (.constant c.value c.type)
  | literal (hinput : (site.book.get a).input = false)
      (hformula : (site.book.get a).formula = none) (hL : L.find? a = none)
      (hU : U.find? a = some ⟨(site.literalOf a).value,
        (site.literalOf a).type site.book.cellType⟩) :
      CellGives site L U entered a (site.literalOf a)
  | entered {f : Expr} {v : Value} {t : DataType} (hinput : (site.book.get a).input = false)
      (hformula : (site.book.get a).formula = some f) (hL : L.find? a = none)
      (henter : entered a f (.known v t)) (hU : U.find? a = some ⟨v, t⟩) :
      CellGives site L U entered a (.known v t)
  | left (hinput : (site.book.get a).input = false) (hL : L.find? a = none)
      (hformula : (site.book.get a).formula ≠ none) :
      CellGives site L U entered a (.ofExpr (.cell a))

/-- The state after a constant was remembered of a cell. -/
def WalkState.learn (s : WalkState) (a : Address) (c : Constant) : WalkState :=
  { s with memo := s.memo.set a c, events := .cached a c.value :: s.events }

theorem remember_none (v : Value) (t : DataType) (hc : s.memo.find? a = none) :
    remember a v t s = .ok () (s.learn a ⟨v, t⟩) := by
  simp only [remember, bind_apply, get_apply, hc]
  rfl

theorem remember_some (v : Value) (t : DataType) (hc : s.memo.find? a = some c) : remember a v t s =
      if c.value.render ≠ v.render then .error (.conflict a c.value v) s
      else .ok () (s.learn a ⟨v, t⟩) := by
  simp only [remember, bind_apply, get_apply, hc]
  split <;> rfl

theorem gives_dynamic {A : List Address → Prop} (h : GivesAmid A L U b (site.dynamic e) o) :
    o = .ofExpr e :=
  (holds_dynamic (J := giving .empty (fun _ => True) False A L U) (A := True) (Q := (· = .ofExpr e))
    fun _ => rfl).of_gives trivial h

theorem gives_cellForm {A : List Address → Prop}
    (henter : ∀ f, (site.book.get a).formula = some f → Frames site.book E bound .empty (enter a f))
    (h : GivesAmid A L U b (cellForm site enter a) o) :
    CellGives site L U (fun a f o => Gives L U .empty (enter a f) o) a o := by
  by_cases hinput : (site.book.get a).input
  · rw [cellForm_input hinput] at h
    rw [gives_dynamic h]
    exact .input hinput
  have hinput : (site.book.get a).input = false := by simpa using hinput
  obtain ⟨s, s', hs, hA, hL, h, hU⟩ := h
  cases hc : s.memo.find? a with
  | some c =>
    rw [cellForm_remembered hinput hc] at h
    cases h
    exact .remembered hinput (hU a c hc)
  | none =>
    have hLa : L.find? a = none := by
      cases hla : L.find? a with
      | none => rfl
      | some c =>
        rw [hL a c hla] at hc
        cases hc
    cases hformula : (site.book.get a).formula with
    | none =>
      rw [cellForm_literal hinput hformula hc, bind_apply, remember_none _ _ hc] at h
      cases h
      exact .literal hinput hformula hLa (hU a _ (Memo.find?_set_self _ _ _))
    | some f =>
      by_cases ha : a ∈ s.active
      · rw [cellForm_active hinput hformula hc ha] at h
        rw [gives_dynamic (b := b) ⟨s, s', hs, hA, hL, h, hU⟩]
        exact .left hinput hLa (by simp [hformula])
      · rw [cellForm_enter hinput hformula hc ha, bind_apply] at h
        split at h
        · rename_i o' t hmark
          have hinner := frames_isolated (b := s.bindings) (henter f hformula) (s.mark a) rfl
          have ht := (framesAt_marking ha hinner).growth hmark
          have htc := find?_marking (by simp [hformula]) hinner hmark
          cases o' with
          | residual r =>
            have h : site.dynamic (.cell a) t = .ok o s' := h
            rw [gives_dynamic (b := b)
              ⟨t, s', ht.bindings.trans hs, ht.active ▸ hA, hL.trans ht.memo, h, hU⟩]
            exact .left hinput hLa (by simp [hformula])
          | known v t' =>
            have h : (remember a v t' >>= fun _ => pure (.known v t') : Action) t = .ok o s' := h
            rw [bind_apply, remember_none _ _ (htc.trans hc)] at h
            cases h
            obtain ⟨t₁, ht₁, rfl⟩ := marking_ok hmark
            rw [isolated_apply] at ht₁
            obtain ⟨t₂, ht₂, rfl⟩ := within_ok ht₁
            refine .entered hinput hformula hLa
              ⟨under .empty (s.mark a), t₂, rfl, trivial, hL, ht₂, ?_⟩
              (hU a _ (Memo.find?_set_self _ _ _))
            exact (Memo.within_set _ (htc.trans hc)).trans hU
        · cases h

end FormulaFold
