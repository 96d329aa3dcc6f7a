import FormulaFold.Proofs.Remainders

/-! # What a walk leaves

What a walk has left of a formula is walked a second time.  `Second` collects what is known of the
two walks; `Rests` says of a formula and its outcome that **what is left stays as it is**.  This
module shows it of all nodes but the folds, given that it holds of their parts.

The outcome of a merge is used outside of the scope of the merge, so what is left may be walked with
other names bound (`Carries`).
-/
namespace FormulaFold

open Walk

variable {entered : Address → Giving} {b' : Bindings} {decisive plain : Bool}
  {e : Expr} {compute : Computation} {r : Option (List Expr)} {o : Outcome}
  {fn : String}

/-! ## Formulas -/

namespace Expr

/-- The parts of a fold that are walked to find out whether it gets on: its first values, its steps
and its filter. -/
def probes : Expr → List Expr
  | fold _ d seeds _ _ _ | foldVectors d seeds _ _ _ => present (d.start seeds) ++ d.steps
  | reduce d seed _ _ _ => seed.toList ++ d.steps
  | foldArray d _ _ => present d.inits ++ d.steps
  | foldTable d seeds _ _ filter _ _ _ => present (d.start seeds) ++ d.steps ++ filter.toList
  | _ => []

/-- Whether every `ROW` and `COLUMN` of a formula has no argument or a reference to a cell, and the
elements of every node can be counted with a word. -/
structure Regular (e : Expr) : Prop where
  positions : ∀ fn args t, (call fn args t).OccursIn e →
    ofName? fn = some .row ∨ ofName? fn = some .column →
      trimmed args = [] ∨ ∃ a, trimmed args = [some (cell a)]
  sizes : ∀ x : Expr, x.OccursIn e → x.flatten.length < 2 ^ 63

theorem Regular.part (h : e.Regular) (hp : p ∈ e.parts) : p.Regular where
  positions fn args t hx := h.positions fn args t (hx.tail hp)
  sizes x hx := h.sizes x (hx.tail hp)

theorem hasFold_of_mem_parts (h : e.hasFold = false) (hcount : ∀ static args, e ≠ count static args)
    (hp : p ∈ e.parts) : p.hasFold = false := by
  cases e with
  | constant | cell | letVar => simp [parts] at hp
  | operator | call | range | splice | subSection =>
    rw [hasFold] at h
    exact anyFold_iff.mp h p (by simpa [parts] using hp)
  | letIn name value body =>
    simp only [hasFold, or_eq_false_iff, optionFold_iff] at h
    simp only [parts, mem_append, mem_toList] at hp
    exact hp.elim (h.1 p) (h.2 p)
  | switch selector cases otherwise t =>
    simp only [hasFold, or_eq_false_iff, optionFold_iff, casesFold_iff] at h
    simp only [parts, mem_append, mem_toList, mem_present, mem_map] at hp
    obtain (hp | ⟨c, hc, hp⟩) | hp := hp
    · exact h.1.1 p hp
    · exact h.1.2 c hc p hp
    · exact h.2 p hp
  | switchCase c =>
    obtain ⟨values, branch⟩ := c
    rw [hasFold, caseFold, optionFold_iff] at h
    exact h p (by simpa [parts] using hp)
  | parentSection s inner =>
    rw [hasFold, optionFold_iff] at h
    exact h p (by simpa [parts] using hp)
  | count static args => exact absurd rfl (hcount static args)
  | fold | reduce | foldArray | foldVectors | foldTable => cases h

/-- A formula stands for a single value, or it is a range, a splice or a sub-section. -/
theorem several_or_scalar (h : e.isSorted plain place = true) :
    (∃ rows cols es, e = range rows cols es) ∨ (∃ es, e = splice es) ∨
      (∃ s es, e = subSection s es) ∨ e.isSorted plain .scalar = true := by
  cases e with
  | range rows cols es => exact .inl ⟨rows, cols, es, rfl⟩
  | splice es => exact .inr (.inl ⟨es, rfl⟩)
  | subSection s es => exact .inr (.inr (.inl ⟨s, es, rfl⟩))
  | letVar | count =>
    refine .inr (.inr (.inr ?_))
    rw [isSorted]
  | _ =>
    refine .inr (.inr (.inr ?_))
    rw [isSorted] at h ⊢
    exact h

end Expr

/-- The shape of a rebuilt range is kept when it is rebuilt again. -/
theorem rangeShape_rangeShape (rows cols : Int) (length : Nat) :
    rangeShape (rangeShape rows cols length).1 (rangeShape rows cols length).2 length =
      rangeShape rows cols length := by
  unfold rangeShape
  split
  · rfl
  · split <;> rfl

/-! ## Elements of outcomes -/

theorem Outcome.length_flatten_expr (o : Outcome) : o.expr.flatten.length = o.flatten.length := by
  cases o with
  | known v t => simp [Outcome.expr, Outcome.flatten, Expr.flatten]
  | residual e => rfl

theorem Outcome.Typed.flatten_expr (h : o.Typed) : o.expr.flatten = o.flatten := by
  cases o with
  | known v t =>
    have h : Outcome.constant v t = .known v t := h
    simp [Outcome.expr, Outcome.flatten, Expr.flatten, ofExpr, h]
  | residual e => rfl

/-- A single value is its only element. -/
theorem Outcome.Typed.flatten_of_scalar (h : o.Typed)
    (hscalar : o.expr.isSorted plain .scalar = true) : o.flatten = [o] := by
  cases o with
  | known v t => rfl
  | residual e =>
    cases e with
    | range | splice =>
      simp [Outcome.expr, isSorted, Place.takesRange, Place.takesSplice] at hscalar
    | constant v t => cases h
    | _ => exact Expr.flatten_of_isOpen rfl

/-- Children that come to as many elements each have as many elements. -/
theorem length_flattenChildren {R : Giving}
    (hR : ∀ x o, some x ∈ es → R x o → o.flatten.length = x.flatten.length)
    (h : Forall₂ (Becomes R) es es') :
    (flattenChildren es').length = (flattenChildren es).length := by
  rw [flattenChildren_eq, flattenChildren_eq]
  induction h with
  | nil => rfl
  | cons hx _ ih =>
    have ih := ih fun x o hx => hR x o (mem_cons_of_mem _ hx)
    rw [flatMap_cons, flatMap_cons, length_append, length_append, ih]
    congr 1
    cases hx with
    | none => rfl
    | some hx =>
      obtain ⟨o, ho, rfl⟩ := hx
      exact (Outcome.length_flatten_expr o).trans (hR _ o mem_cons_self ho)

/-! ## Names -/

/-- Whether what is left of a formula under the names `b` can be walked under the names `b'`: they
are the same names, or there is no fold in the formula and all names that were left to the run
are. -/
def Carries (e : Expr) (b b' : Bindings) : Prop :=
  b' = b ∨ e.hasFold = false ∧ ∀ name, b.lookup name = .ok none → b'.lookup name = .ok none

theorem Carries.part (h : Carries e b b') (hcount : ∀ static args, e ≠ .count static args)
    (hp : p ∈ e.parts) : Carries p b b' :=
  h.imp_right fun h => ⟨Expr.hasFold_of_mem_parts h.1 hcount hp, h.2⟩

theorem Carries.push (h : Carries e b b') (name : String) (o : Option Outcome) :
    Carries e (b.push name o) (b'.push name o) := by
  rcases h with rfl | ⟨hfold, hnames⟩
  · exact .inl rfl
  · refine .inr ⟨hfold, fun x hx => ?_⟩
    rw [Bindings.lookup_push] at hx ⊢
    split
    · rwa [if_pos ‹_›] at hx
    · rw [if_neg ‹_›] at hx
      exact hnames x hx

/-- The outcome of a formula without folds can leave the scope that it was found in. -/
theorem carries_pushAll (h : e.hasFold = false) (b : Bindings) (pairs : Pairs) :
    Carries e (b.pushAll pairs) b := by
  refine .inr ⟨h, fun x hx => ?_⟩
  by_cases hmem : x ≠ "" ∧ x ∈ pairs.map (·.1)
  · obtain ⟨pair, _, hpair⟩ := Bindings.exists_lookup_pushAll_of_mem (b := b) hmem
    rw [hpair] at hx
    cases hx
  · rwa [Bindings.lookup_pushAll_of_not_mem hmem] at hx

/-! ## Two walks -/

/-- What is known of walks and of the walks of what they leave: `R` says what the first ones give,
`Q` holds of the formulas that are walked again, and `P` of the states they are walked from. -/
structure Second (P : WalkState → Prop) (site : Site) (enter : Address → Expr → Action)
    (R : Bindings → Giving) (Q : Expr → Prop) : Prop where
  lenient : Lenient P
  frames : ∀ (e : Expr) b,
    Frames site.book (Earned (fun _ => True) site.book) False b (e.walk site enter)
  typed : ∀ b e o, R b e o → TypedIn b e o
  sorted : ∀ b e o, R b e o → SortedIn false b e o
  unfolds : ∀ b e o, R b e o → ∀ S : Bindings → Expr → Outcome → Prop,
    (∀ b p o, p.Inside e → R b p o → S b p o) →
      ∃ L U entered, NodeGives False site (CellGives site L U entered) S b e o
  part : ∀ x, Q x → ∀ p ∈ x.liveParts, Q p
  writable : ∀ x, Q x → x.isWritable site.book.sectionPath = true
  probe : ∀ x, Q x → ∀ p ∈ x.probes, ∀ b o, R b p o → Comes P b (p.walk site enter) o
  cell : ∀ a, Q (.cell a) → ∀ b, R b (.cell a) (.residual (.cell a)) → ∀ b',
    Comes P b' ((Expr.cell a).walk site enter) (.residual (.cell a))

section Second

variable {P : WalkState → Prop} {site : Site} {enter : Address → Expr → Action}
  {R : Bindings → Giving} {Q : Expr → Prop}

/-- What is left of a formula stays as it is, and so does each of its elements. -/
def Rests (P : WalkState → Prop) (site : Site) (enter : Address → Expr → Action) (Q : Expr → Prop)
    (b : Bindings) (e : Expr) (o : Outcome) : Prop :=
  ∀ place b', e.isSorted false place = true → e.Regular → b.Fits false → b.Typed →
    Carries e b b' →
      (∀ x ∈ o.flatten, Q x.expr → Stays P site enter b' x.expr) ∧
        (Q o.expr → Stays P site enter b' o.expr)

/-- An outcome of the first walk that rests. -/
abbrev Rested (P : WalkState → Prop) (site : Site) (enter : Address → Expr → Action)
    (R : Bindings → Giving) (Q : Expr → Prop) (b : Bindings) (e : Expr)
    (o : Outcome) : Prop := R b e o ∧ Rests P site enter Q b e o

namespace Second

variable (h₂ : Second P site enter R Q)
include h₂

/-! ## Sorts -/

/-- A range is left of that range only. -/
theorem exists_range (h : R b e (.residual (.range rows cols elements))) (hb : b.Fits false)
    (he : e.isSorted false .argument = true) : ∃ es, e = .range rows cols es := by
  obtain ⟨L, U, entered, hnode⟩ := h₂.unfolds _ _ _ h R fun _ _ _ _ h => h
  generalize ho : Outcome.residual (.range rows cols elements) = o at hnode
  rcases Expr.several_or_scalar he with ⟨rows', cols', es, rfl⟩ | ⟨es, rfl⟩ | ⟨s, es, rfl⟩ | hscalar
  · cases hnode with
    | range hos hrebuilt =>
      rw [isSorted, and_eq_true] at he
      rw [rebuilt_range hrebuilt, length_keepMissing, rangeShape_of_fitsShape he.1] at ho
      cases ho
      exact ⟨es, rfl⟩
  · cases hnode with
    | splice hos hrebuilt =>
      obtain ⟨e', he', rfl⟩ := hrebuilt
      cases he'
      cases ho
  · cases hnode with
    | subSection hos hrebuilt =>
      obtain ⟨e', he', rfl⟩ := hrebuilt
      cases he'
      cases ho
  · have hsorted := h₂.sorted _ _ _ h hb .scalar hscalar
    simp [Outcome.expr, isSorted, Place.takesRange] at hsorted

/-- **A walk keeps the number of elements.** -/
theorem length_flatten (hb : b.Fits false) : ∀ (e : Expr) {o : Outcome}, R b e o →
    e.isSorted false .element = true → o.flatten.length = e.flatten.length := by
  intro e
  induction e using induction_on_parts with
  | step e ih =>
    intro o h he
    have hall {es : Children} {os : List Outcome}
        (hes : allSorted false .element es = true) (hparts : ∀ x, some x ∈ es → x ∈ e.parts)
        (hos : Forall₂ (Child (R b)) (trimmed es) os) :
        (flattenChildren (keepMissing es os)).length = (flattenChildren es).length :=
      length_flattenChildren (fun x o hx ho => ih x (.part (hparts x hx)) ho
        (allSorted_iff.mp hes x hx)) (becomes_keepMissing_trimmed hos)
    obtain ⟨L, U, entered, hnode⟩ := h₂.unfolds _ _ _ h R fun _ _ _ _ h => h
    rcases Expr.several_or_scalar he with ⟨rows, cols, es, rfl⟩ | ⟨es, rfl⟩ | ⟨s, es, rfl⟩ | hscalar
    · cases hnode with
      | range hos ho =>
        rw [isSorted, and_eq_true] at he
        rw [rebuilt_range ho, Outcome.flatten, Expr.flatten, Expr.flatten]
        exact hall he.2 (by simp [parts]) hos
    · cases hnode with
      | splice hos ho =>
        obtain ⟨e', he', rfl⟩ := ho
        cases he'
        rw [isSorted, and_eq_true] at he
        rw [ofExpr, Outcome.flatten, Expr.flatten, Expr.flatten]
        · exact hall he.2 (by simp [parts, Expr.children]) hos
        · simp
    · cases hnode with
      | subSection hos ho =>
        obtain ⟨e', he', rfl⟩ := ho
        cases he'
        have hone (s : Option String) (es : Children) :
            (Expr.subSection s es).flatten.length = 1 := by
          rw [Expr.flatten_of_isOpen rfl, List.length_singleton]
        exact (hone _ _).trans (hone _ _).symm
    · -- A single value stays one.
      have hone {x : Expr} (hx : x.isSorted false .scalar = true) : x.flatten.length = 1 := by
        cases x with
        | range | splice =>
          simp [isSorted, Place.takesRange, Place.takesSplice] at hx
        | constant v t => simp [Expr.flatten]
        | _ => rw [Expr.flatten_of_isOpen rfl, List.length_singleton]
      rw [← Outcome.length_flatten_expr, hone hscalar,
        hone (h₂.sorted _ _ _ h hb .scalar hscalar)]

/-! ## Operators and calls -/

section Calls

variable {S : Giving} {es : Children}

omit h₂ in
/-- What children become stays if what is left of each child stays. -/
theorem stays_of_becomes (hS : ∀ x o, some x ∈ es → S x o → Q o.expr → Stays P site enter b' o.expr)
    (h : Forall₂ (Becomes S) es es') (hQ : ∀ y, some y ∈ es' → Q y) :
    ∀ y, some y ∈ es' → Stays P site enter b' y := by
  intro y hy
  obtain ⟨x, hx, hbecomes⟩ := exists_of_forall₂_of_mem h hy
  cases hbecomes with
  | some hbecomes =>
    obtain ⟨o, ho, rfl⟩ := hbecomes
    exact hS _ o hx ho (hQ _ hy)

omit h₂ in
/-- A node that is computed, or left around its children. -/
theorem stays_of_settles (hknown : o.isKnown = true → Stays P site enter b' o.expr)
    (hleft : ∀ e, node.withChildren (keepMissing node.children os) = .ok e → o = .ofExpr e →
      Refuses compute os → Stays P site enter b' o.expr)
    (h : Settles False site node compute os o) : Stays P site enter b' o.expr := by
  cases h with
  | kept _ hkept => exact hknown (isKnown_of_kept? hkept)
  | left hleft' he hexpected => exact hleft _ he rfl (refuses_of_settles hleft' hexpected)

variable (hS : ∀ x o, some x ∈ es → S x o → Q o.expr → Stays P site enter b' o.expr)
  (htyped : ∀ x o, some x ∈ es → S x o → o.Typed)
  (hknown : o.isKnown = true → Stays P site enter b' o.expr) (hQ : Q o.expr)

omit h₂ in
include htyped in
theorem typed_of_forall₂_child (hos : Forall₂ (Child S) (trimmed es) os) :
    ∀ o ∈ os, o.Typed := by
  intro o ho
  obtain ⟨x, hx, ho⟩ := exists_of_forall₂_of_mem hos ho
  cases x with
  | none =>
    rw [show o = .blank from ho]
    exact typed_constant _ _
  | some x => exact htyped x o (mem_of_mem_trimmed hx) ho

include hS htyped hknown hQ

theorem stays_operator {op : Op} (hos : Forall₂ (Child S) (trimmed es) os)
    (h : Settles False site (.operator op es t) op.compute os o) :
    Stays P site enter b' o.expr := by
  refine stays_of_settles hknown (fun e he heq hrefuses => ?_) h
  cases he
  subst heq
  have hchildren := stays_of_becomes hS (becomes_keepMissing_trimmed hos) fun y hy =>
    h₂.part _ hQ y (by simpa [Outcome.expr, ofExpr, liveParts, parts,
      Expr.children] using hy)
  refine FormulaFold.stays_operator h₂.lenient (h₂.writable _ hQ) hchildren ?_
  rwa [Expr.children, map_ofChild_trimmed hos (typed_of_forall₂_child htyped hos)]

omit htyped hknown hQ in
/-- The arguments of a call that is left. -/
theorem stays_arguments (hos : Forall₂ (Child S) (trimmed es) os)
    (hQ : Q (.call fn (keepMissing es os) t)) :
    ∀ y, some y ∈ keepMissing es os → Stays P site enter b' y := by
  refine stays_of_becomes hS (becomes_keepMissing_trimmed hos) fun y hy => h₂.part _ hQ y ?_
  simpa [liveParts, parts] using hy

/-- A call that is computed, or left around its arguments. -/
theorem stays_of_settles_call {fn : String} {t : DataType}
    {compute : Computation} (hos : Forall₂ (Child S) (trimmed es) os)
    (h : Settles False site (.call fn es t) compute os o)
    (hleft : (Expr.call fn (keepMissing es os) t).isWritable site.book.sectionPath = true →
      (∀ y, some y ∈ keepMissing es os → Stays P site enter b' y) →
      Refuses compute ((trimmed (keepMissing es os)).map ofChild) →
        Stays P site enter b' (.call fn (keepMissing es os) t)) :
    Stays P site enter b' o.expr := by
  refine stays_of_settles hknown (fun e he heq hrefuses => ?_) h
  cases he
  subst heq
  refine hleft (h₂.writable _ hQ) (h₂.stays_arguments hS hos hQ) ?_
  rwa [map_ofChild_trimmed hos (typed_of_forall₂_child htyped hos)]

theorem stays_plainCall {fn : String} {t : DataType}
    (hfn : ∀ f ∈ [Builtin.ifElse, .and, .or, .index, .concatenate, .row, .column],
      ofName? fn ≠ some f)
    (hos : Forall₂ (Child S) (trimmed es) os)
    (h : Settles False site (.call fn es t) (fun args => if site.engine.isVolatile fn then
      .error (.volatile fn) else site.engine.call fn args) os o) :
    Stays P site enter b' o.expr :=
  h₂.stays_of_settles_call hS htyped hknown hQ hos h fun hwritable hchildren =>
    FormulaFold.stays_plainCall h₂.lenient hwritable hchildren hfn

theorem stays_if {condition : Expr} {branches : Children} {c : Outcome}
    (hes : es = some condition :: branches) (hfn : ofName? fn = some .ifElse)
    (hc : S condition c) (h : IfGives False site (.call fn es t) S c branches o) :
    Stays P site enter b' o.expr := by
  have hbranch {missing : Outcome} (hmissing : missing.isKnown = true) {i : Nat}
      (h : ChildOr missing S branches[i]?.join o) : Stays P site enter b' o.expr := by
    cases hx : branches[i]?.join with
    | none =>
      rw [hx] at h
      exact hknown (h ▸ hmissing)
    | some x =>
      rw [hx] at h
      refine hS x o ?_ h hQ
      rw [hes]
      exact mem_cons_of_mem _ (mem_of_getElem?_join hx)
  cases h with
  | chosen _ _ ho | other _ _ ho => exact hbranch rfl ho
  | @settled os _ htruth hos ho =>
    subst hes
    have hos : Forall₂ (Child S) (trimmed (some condition :: branches)) (c :: os) := by
      rw [trimmed_some_cons]
      exact .cons hc hos
    refine h₂.stays_of_settles_call hS htyped hknown hQ hos ho fun hwritable hchildren =>
      FormulaFold.stays_if h₂.lenient hwritable hchildren hfn ?_
    intro y rest v t' hargs hv
    cases hargs
    rw [show ofExpr c.expr = c from htyped _ c mem_cons_self hc] at hv
    exact htruth v t' hv

omit hknown hQ h₂ in
/-- The arguments of `AND` and `OR` that are left. -/
theorem stays_of_undecided (h : Undecided site fn decisive S es r) :
    ∀ xs, r = some xs → (∀ y ∈ xs, Q y) →
      ∀ y ∈ xs, Stays P site enter b' y ∧ site.truthOf? fn (.ofExpr y) = none := by
  induction h with
  | nil =>
    rintro xs ⟨⟩
    simp
  | missing _ ih | dropped _ _ _ ih =>
    exact ih (fun x o hx => hS x o (mem_cons_of_mem _ hx))
      fun x o hx => htyped x o (mem_cons_of_mem _ hx)
  | decided => simp
  | @left e o rest r ho htruth _ ih =>
    intro xs hxs hQ
    obtain ⟨more, rfl, rfl⟩ := map_eq_some_iff.mp hxs
    have hQ := forall_mem_cons.mp hQ
    have hrest := ih (fun x o hx => hS x o (mem_cons_of_mem _ hx))
      (fun x o hx => htyped x o (mem_cons_of_mem _ hx)) more rfl hQ.2
    refine forall_mem_cons.mpr ⟨⟨hS e o mem_cons_self ho hQ.1, ?_⟩, hrest⟩
    rwa [show ofExpr o.expr = o from htyped e o mem_cons_self ho]

theorem stays_bool (hfn : ofName? fn = some .and ∨ ofName? fn = some .or)
    (hr : Undecided site fn decisive S (trimmed es) r) (h : BoolGives fn t decisive r o) :
    Stays P site enter b' o.expr := by
  cases h with
  | decided | dropped => exact hknown rfl
  | @left e rest =>
    have hall := stays_of_undecided (fun x o hx => hS x o (mem_of_mem_trimmed hx))
      (fun x o hx => htyped x o (mem_of_mem_trimmed hx)) hr _ rfl fun y hy => h₂.part _ hQ y
        (by simpa [Outcome.expr, ofExpr, liveParts, parts] using hy)
    exact FormulaFold.stays_bool hfn (by simp) (fun y hy => (hall y hy).1)
      fun y hy => (hall y hy).2

/-- The shape of a range that `INDEX` is left with is the one it was found with. -/
theorem stays_index (hfn : ofName? fn = some .index)
    (hrange : ∀ x rows cols elements, some x ∈ es → S x (.residual (.range rows cols elements)) →
      ∃ elements, x = .range rows cols elements)
    (helements : ∀ rows cols elements, some (.range rows cols elements) ∈ es →
      ∀ x o, some x ∈ elements → S x o → Q o.expr → Stays P site enter b' o.expr)
    (h : IndexGives False site (.call fn es t) S es o) : Stays P site enter b' o.expr := by
  have helement {rows cols : Int} {elements : Children} {i : Nat} {element : Option Expr}
      (hmem : some (.range rows cols elements) ∈ trimmed es)
      (helement : elements[i]? = some element) (h : Child S element o) :
      Stays P site enter b' o.expr := by
    cases element with
    | none => exact hknown ((show o = .blank from h) ▸ rfl)
    | some x =>
      exact helements rows cols elements (mem_of_mem_trimmed hmem) x o
        (mem_of_getElem? helement) h hQ
  cases h with
  | one hes _ _ _ _ hplace ho => exact helement (hes ▸ mem_cons_self) hplace ho
  | two hes _ _ _ _ _ _ _ hplace ho => exact helement (hes ▸ mem_cons_self) hplace ho
  | @settled os _ hos hone htwo ho =>
    have hsame := map_ofChild_trimmed hos (typed_of_forall₂_child htyped hos)
    have hshape := forall₂_trimmed (becomes_keepMissing_trimmed hos)
    refine h₂.stays_of_settles_call hS htyped hknown hQ hos ho
      fun hwritable hchildren hrefuses => FormulaFold.stays_index h₂.lenient hwritable hchildren
        hrefuses hfn ?_ ?_
    · intro rows cols elements first k hargs hk
      rw [hargs] at hshape hsame
      generalize hes : trimmed es = xs at hshape hos
      cases hshape with
      | cons hx hrest =>
      cases hrest with
      | cons hy hnil =>
      cases hnil
      cases hx
      cases hy
      subst hsame
      cases hos with
      | cons hrange' _ =>
        obtain ⟨elements', rfl⟩ := hrange _ _ _ _
          (mem_of_mem_trimmed (hes ▸ mem_cons_self)) hrange'
        exact hone rows cols elements' _ _ k hes rfl hk
    · intro rows cols elements first second k hargs hk
      rw [hargs] at hshape hsame
      generalize hes : trimmed es = xs at hshape hos
      cases hshape with
      | cons hx hrest =>
      cases hrest with
      | cons hy hrest =>
      cases hrest with
      | cons hz hnil =>
      cases hnil
      cases hx
      cases hy
      cases hz
      subst hsame
      cases hos with
      | cons hrange' _ =>
        obtain ⟨elements', rfl⟩ := hrange _ _ _ _
          (mem_of_mem_trimmed (hes ▸ mem_cons_self)) hrange'
        exact htwo rows cols elements' _ _ _ _ k hes rfl rfl hk

omit hS htyped hknown hQ h₂ in
/-- An argument of `CONCATENATE` that is left is an argument or a joined text. -/
theorem exists_of_joins (h : Joins site node os xs) :
    ∀ x ∈ xs, ∃ o : Outcome, x = o.expr ∧ (o ∈ os ∨ o.isKnown = true ∧ o.Typed) := by
  induction h with
  | nil => simp
  | @left o os xs _ ih =>
    refine forall_mem_cons.mpr ⟨⟨o, rfl, .inl mem_cons_self⟩, fun x hx => ?_⟩
    obtain ⟨o', rfl, ho'⟩ := ih x hx
    exact ⟨o', rfl, ho'.imp_left (mem_cons_of_mem _)⟩
  | @joined run os o xs _ hkept _ ih =>
    refine forall_mem_cons.mpr
      ⟨⟨o, rfl, .inr ⟨isKnown_of_kept? hkept, typed_of_kept? hkept⟩⟩, fun x hx => ?_⟩
    obtain ⟨o', rfl, ho'⟩ := ih x hx
    exact ⟨o', rfl, ho'.imp_left (List.mem_append_right _)⟩

theorem stays_concatenate (hfn : ofName? fn = some .concatenate)
    (hos : Forall₂ (Child S) (trimmed es) os)
    (h : o = site.concatenated (.call fn es t) fn t os) : Stays P site enter b' o.expr := by
  have htypes := typed_of_forall₂_child htyped hos
  have hgives : JoinGives site (.call fn es t) fn t os _ := joinGives_concatenated fn t os
  rw [← h] at hgives
  cases hgives with
  | computed => exact hknown rfl
  | @left xs hjoins =>
    refine FormulaFold.stays_concatenate h₂.lenient hfn (h₂.writable _ hQ) (fun y hy => ?_)
      (concatenated_again htypes h.symm)
    have hQy := h₂.part _ hQ y
      (by simpa [Outcome.expr, ofExpr, liveParts, parts] using hy)
    obtain ⟨o', rfl, ho' | ⟨hknown', htyped'⟩⟩ := exists_of_joins hjoins y (by simpa using hy)
    · obtain ⟨x, hx, hchild⟩ := exists_of_forall₂_of_mem hos ho'
      cases x with
      | none =>
        rw [show o' = .blank from hchild]
        exact stays_known (typed_constant _ _) rfl
      | some x => exact hS x o' (mem_of_mem_trimmed hx) hchild hQy
    · exact stays_known htyped' hknown'

omit htyped in
theorem stays_position {position : Address → Int}
    (hfn : ofName? fn = some .row ∧ position = (·.row) ∨
      ofName? fn = some .column ∧ position = (·.col))
    (hargs : trimmed es = [] ∨ ∃ a, trimmed es = [some (.cell a)])
    (hcell : ∀ a o, S (.cell a) o → o.isKnown = true ∨ o = .residual (.cell a))
    (h : PositionGives False site S fn position es t o) : Stays P site enter b' o.expr := by
  cases h with
  | known _ hkept => exact hknown (isKnown_of_kept? hkept)
  | @left os _ ha hos ho =>
    obtain ⟨e, he, rfl⟩ := ho
    cases he
    have hshape := forall₂_trimmed (becomes_keepMissing_trimmed hos)
    refine FormulaFold.stays_position h₂.lenient hfn (h₂.writable _ hQ)
      (h₂.stays_arguments hS hos hQ) fun a hnew => ha a ?_
    -- The argument is still the cell that it was, or it has become known.
    rcases hargs with hargs | ⟨c, hargs⟩
    · rw [hargs] at hshape
      have hnil : trimmed (keepMissing es os) = [] := by
        generalize trimmed (keepMissing es os) = xs at hshape
        cases hshape
        rfl
      simp only [positionCell, Expr.children, hnil, hargs] at hnew ⊢
      exact hnew
    · rw [hargs] at hshape
      obtain ⟨o', ho', hnew'⟩ : ∃ o', S (.cell c) o' ∧
          trimmed (keepMissing es os) = [some o'.expr] := by
        generalize trimmed (keepMissing es os) = xs at hshape
        cases hshape with
        | cons hx hnil =>
          cases hnil
          cases hx with
          | some hx =>
            obtain ⟨o', ho', rfl⟩ := hx
            exact ⟨o', ho', rfl⟩
      simp only [positionCell, Expr.children, hnew', hargs] at hnew ⊢
      rcases hcell c o' ho' with hknown' | rfl
      · cases o' with
        | known v t' => cases hnew
        | residual x => cases hknown'
      · exact hnew

end Calls

/-! ## Nodes -/

section Nodes

variable {place : Place} (he : e.isSorted false place = true) (hregular : e.Regular)
  (hb : b.Fits false) (htypes : b.Typed) (hcarries : Carries e b b')

omit h₂ in
include hregular hb htypes hcarries in
/-- What is left of a part stays. -/
theorem stays_part (hcount : ∀ static args, e ≠ .count static args) (hp : p ∈ e.parts)
    (hsorted : p.isSorted false place = true) (h : Rested P site enter R Q b p o)
    (hQ : Q o.expr) : Stays P site enter b' o.expr :=
  (h.2 place b' hsorted (hregular.part hp) hb htypes (hcarries.part hcount hp)).2 hQ

/-- A reference to a cell is left as it is, if it is left. -/
theorem isKnown_or_eq_of_cell (h : R b (.cell a) o) :
    o.isKnown = true ∨ o = .residual (.cell a) := by
  obtain ⟨L, U, entered, hnode⟩ := h₂.unfolds _ _ _ h R fun _ _ _ _ h => h
  cases hnode with
  | cell ho =>
    cases ho with
    | input | left => exact .inr rfl
    | remembered | entered => exact .inl rfl
    | literal =>
      left
      unfold Site.literalOf
      split <;> rfl

include he hregular hb htypes hcarries

theorem stays_of_callGives (heq : e = .call fn args t)
    (hknown : o.isKnown = true → Stays P site enter b' o.expr) (hQ : Q o.expr)
    (h : CallGives False site (Rested P site enter R Q b) fn args t o (ofName? fn)) :
    Stays P site enter b' o.expr := by
  subst heq
  have hcount (static : Int) (as : Children) : Expr.call fn args t ≠ .count static as := by
    simp
  rw [isSorted, and_eq_true] at he
  obtain ⟨hfits, hargs⟩ := he
  have hS (x : Expr) (o : Outcome) (hx : some x ∈ args) (h : Rested P site enter R Q b x o)
      (hQ : Q o.expr) : Stays P site enter b' o.expr :=
    stays_part hregular hb htypes hcarries hcount (by simpa [parts] using hx)
      (allSorted_iff.mp hargs x hx) h hQ
  have htyped (x : Expr) (o : Outcome) (_ : some x ∈ args)
      (h : Rested P site enter R Q b x o) : o.Typed := h₂.typed _ _ _ h.1 htypes
  have hposition {position : Address → Int}
      (hfn : ofName? fn = some .row ∧ position = (·.row) ∨
        ofName? fn = some .column ∧ position = (·.col))
      (h : PositionGives False site (Rested P site enter R Q b) fn position args t
        o) : Stays P site enter b' o.expr :=
    h₂.stays_position hS hknown hQ hfn
      (hregular.positions fn args t .refl (hfn.imp And.left And.left))
      (fun a o h => h₂.isKnown_or_eq_of_cell h.1) h
  generalize hf : ofName? fn = f at h hfits hargs hposition
  unfold CallGives at h
  split at h
  · rcases h with ⟨condition, branches, c, hes, hc, ho⟩ | ⟨hnone, _⟩
    · exact h₂.stays_if hS htyped hknown hQ hes hf hc ho
    · obtain ⟨condition, branches, rfl⟩ := exists_condition_of_fitsCall hfits
      exact absurd rfl (hnone condition branches)
  · obtain ⟨r, hr, ho⟩ := h
    exact h₂.stays_bool hS htyped hknown hQ (.inl hf) hr ho
  · obtain ⟨r, hr, ho⟩ := h
    exact h₂.stays_bool hS htyped hknown hQ (.inr hf) hr ho
  · refine h₂.stays_index hS htyped hknown hQ hf (fun x rows cols elements hx h => ?_)
      (fun rows cols elements hrange x o hx h hQ => ?_) h
    · exact h₂.exists_range h.1 hb (allSorted_iff.mp hargs x hx)
    · have hmem : Expr.range rows cols elements ∈ (Expr.call fn args t).parts := by
        simpa [parts] using hrange
      have hsorted := allSorted_iff.mp hargs _ hrange
      rw [isSorted, and_eq_true] at hsorted
      exact stays_part (hregular.part hmem) hb htypes (hcarries.part hcount hmem) (by simp)
        (by simpa [parts] using hx) (allSorted_iff.mp hsorted.2 x hx) h hQ
  · obtain ⟨os, hos, ho⟩ := h
    exact h₂.stays_concatenate hS htyped hknown hQ hf hos ho.1
  · exact hposition (.inl ⟨rfl, rfl⟩) h
  · exact hposition (.inr ⟨rfl, rfl⟩) h
  · rename_i hif hand hor hindex hconcatenate hrow hcolumn
    obtain ⟨os, hos, ho⟩ := h
    refine h₂.stays_plainCall hS htyped hknown hQ (fun g hg => ?_) hos ho
    rw [hf]
    rintro rfl
    simp only [mem_cons, not_mem_nil, or_false] at hg
    rcases hg with rfl | rfl | rfl | rfl | rfl | rfl | rfl
    all_goals simp_all

/-- What is left of the value of a name, and of the formula that the name stands in. -/
theorem stays_letIn_left
    (heq : e = .letIn name (some x) (some y)) (hv : Rested P site enter R Q b x v)
    (hr : Rested P site enter R Q (b.push name (if v.isConstant then some v else none)) y
      (.residual rest))
    (hQ : Q (.letIn name (some v.expr) (some rest))) :
    Stays P site enter b' (.letIn name (some v.expr) (some rest)) := by
  subst heq
  simp only [isSorted, optionSorted, and_eq_true] at he
  have hx : x ∈ (Expr.letIn name (some x) (some y)).parts := by simp [parts]
  have hy : y ∈ (Expr.letIn name (some x) (some y)).parts := by simp [parts]
  have hvtyped : v.Typed := h₂.typed _ _ _ hv.1 htypes
  have hQv : Q v.expr := h₂.part _ hQ _ (by simp [liveParts, parts])
  have hQr : Q rest := h₂.part _ hQ _ (by simp [liveParts, parts])
  have hbound (o : Outcome) (ho : (if v.isConstant then some v else none) = some o) :
      o.Fits false ∧ o.Typed := by
    split at ho
    · cases ho
      exact ⟨fits_of_isConstant (h₂.sorted _ _ _ hv.1 hb .scalar he.1) ‹_›, hvtyped⟩
    · cases ho
  have hfits := hb.push name fun o ho => (hbound o ho).1
  have htypes' : (b.push name (if v.isConstant then some v else none)).Typed :=
    htypes.push fun o ho => (hbound o ho).2
  have hbody := (hr.2 .scalar _ he.2 (hregular.part hy) hfits htypes'
    ((hcarries.part (by simp) hy).push name _)).2 hQr
  refine stays_letIn h₂.lenient h₂.frames
    (stays_part hregular hb htypes hcarries (by simp) hx he.1 hv hQv) ?_ ?_
  · rwa [show ofExpr v.expr = v from hvtyped]
  · rw [show ofExpr rest = .residual rest from h₂.typed _ _ _ hr.1 htypes']
    rfl

/-- What is left of a switch whose selector is not known. -/
theorem stays_switch_left {r : Expr} {cases cases' : List (Case Expr)}
    {otherwise otherwise' : Option Expr} (heq : e = .switch (some x) cases otherwise t)
    (hx : Rested P site enter R Q b x (.residual r))
    (hcases : Forall₂ (CaseBecomes (Rested P site enter R Q b)) cases cases')
    (hotherwise : Becomes (Rested P site enter R Q b) otherwise otherwise')
    (hbranches : ∀ c ∈ cases, c.branch.isSome = true)
    (hQ : Q (.switch (some r) cases' otherwise' t)) :
    Stays P site enter b' (.switch (some r) cases' otherwise' t) := by
  subst heq
  simp only [isSorted, and_eq_true, optionSorted_iff, casesSorted_iff] at he
  have hpart {p : Expr} (hp : p ∈ (Expr.switch (some x) cases otherwise t).parts)
      (hsorted : p.isSorted false .scalar = true) {o : Outcome}
      (h : Rested P site enter R Q b p o)
      (ho : o.expr ∈ (Expr.switch (some r) cases' otherwise' t).parts) :
      Stays P site enter b' o.expr :=
    stays_part hregular hb htypes hcarries (by simp) hp hsorted h (h₂.part _ hQ _ ho)
  refine stays_switch ?_ ?_ (fun c' hc' => ?_) (fun y hy => ?_)
  · exact hpart (by simp [parts]) (he.1.1 x rfl) hx (by simp [parts, Outcome.expr])
  · rw [show ofExpr r = .residual r from h₂.typed _ _ _ hx.1 htypes]
    rfl
  · obtain ⟨c, hc, _, hbecomes⟩ := exists_of_forall₂_of_mem hcases hc'
    obtain ⟨y, hy⟩ := isSome_iff_exists.mp (hbranches c hc)
    rw [hy] at hbecomes
    generalize hy' : c'.branch = branch at hbecomes
    cases hbecomes with
    | some hbecomes =>
      obtain ⟨o, ho, rfl⟩ := hbecomes
      refine ⟨o.expr, rfl, hpart ?_ (he.1.2 c hc y hy) ho ?_⟩
      · simp only [parts, mem_append, mem_present, mem_map]
        exact .inl (.inr ⟨c, hc, hy⟩)
      · simp only [parts, mem_append, mem_present, mem_map]
        exact .inl (.inr ⟨c', hc', hy'⟩)
  · subst hy
    cases hotherwise with
    | some hbecomes =>
      obtain ⟨o, ho, rfl⟩ := hbecomes
      exact hpart (by simp [parts]) (he.2 _ rfl) ho (by simp [parts])

/-- **What is left of a node stays as it is** if that is so of its parts: all nodes but folds. -/
theorem stays_of_nodeGives (hfold : e.isFold = false) (hR : R b e o) (hQ : Q o.expr)
    (h : NodeGives False site (CellGives site L U entered) (Rested P site enter R Q) b e o) :
    Stays P site enter b' o.expr := by
  have hotyped : o.Typed := h₂.typed _ _ _ hR htypes
  have hknown (hknown : o.isKnown = true) : Stays P site enter b' o.expr :=
    stays_known hotyped hknown
  have hpart (hcount : ∀ static args, e ≠ .count static args) {p : Expr} (hp : p ∈ e.parts)
      {place : Place} (hsorted : p.isSorted false place = true) {o : Outcome}
      (h : Rested P site enter R Q b p o) (hQ : Q o.expr) : Stays P site enter b' o.expr :=
    stays_part hregular hb htypes hcarries hcount hp hsorted h hQ
  -- The children of a range, a splice or a sub-section.
  have hchildren {es : Children} {os : List Outcome} {p : Place}
      (hcount : ∀ static args, e ≠ .count static args) (hparts : ∀ x, some x ∈ es → x ∈ e.parts)
      (hes : allSorted false p es = true)
      (hos : Forall₂ (Child (Rested P site enter R Q b)) (trimmed es) os)
      (hQ : ∀ y, some y ∈ keepMissing es os → Q y) :
      ∀ y, some y ∈ keepMissing es os → Stays P site enter b' y :=
    stays_of_becomes (fun x o hx h => hpart hcount (hparts x hx) (allSorted_iff.mp hes x hx) h)
      (becomes_keepMissing_trimmed hos) hQ
  cases h with
  | constant => exact hknown rfl
  | @operator op args t os o hos ho =>
    rw [isSorted] at he
    exact h₂.stays_operator (fun x o hx h => hpart (by simp) (by simpa [parts] using hx)
      (allSorted_iff.mp he x hx) h) (fun x o _ h => h₂.typed _ _ _ h.1 htypes) hknown hQ hos ho
  | call ho => exact h₂.stays_of_callGives he hregular hb htypes hcarries rfl hknown hQ ho
  | @cell a o ho =>
    rcases h₂.isKnown_or_eq_of_cell hR with ho | rfl
    · exact hknown ho
    · exact .mk rfl rfl (h₂.cell a hQ b hR b')
  | @range rows cols elements os o hos ho =>
    rw [isSorted, and_eq_true] at he
    have heq := rebuilt_range ho
    subst heq
    refine stays_range (hchildren (by simp) (by simp [parts]) he.2 hos fun y hy =>
      h₂.part _ hQ y (by simpa [Outcome.expr, liveParts, parts] using hy)) ?_
    rw [withChildren_range, rangeShape_rangeShape]
  | letIn hv hr ho =>
    cases ho with
    | known => exact hknown rfl
    | left => exact h₂.stays_letIn_left he hregular hb htypes hcarries rfl hv hr hQ
  | letVar ho =>
    obtain ⟨v, t, rfl, _⟩ := hb _ _ ho
    exact hknown rfl
  | @letVarLeft name t ho =>
    refine stays_letVar ?_
    rcases hcarries with rfl | ⟨_, hnames⟩
    · exact ho
    · exact hnames name ho
  | splice hos ho =>
    obtain ⟨e', he', rfl⟩ := ho
    cases he'
    rw [isSorted, and_eq_true] at he
    exact stays_splice (hchildren (by simp) (by simp [parts, Expr.children]) he.2 hos fun y hy =>
      h₂.part _ hQ y (by simpa [Outcome.expr, ofExpr, liveParts, parts] using hy))
  | subSection hos ho =>
    obtain ⟨e', he', rfl⟩ := ho
    cases he'
    rw [isSorted, and_eq_true] at he
    exact stays_subSection (hchildren (by simp) (by simp [parts, Expr.children]) he.2 hos
      fun y hy => h₂.part _ hQ y
        (by simpa [Outcome.expr, ofExpr, liveParts, parts] using hy))
  | @switch x cases otherwise t t' v o hx ho =>
    cases hbranch : chosenBranch cases otherwise (v.toInt leastWord) with
    | none =>
      rw [hbranch] at ho
      exact hknown ((show o = .blank from ho) ▸ rfl)
    | some y =>
      rw [hbranch] at ho
      obtain ⟨hy, hmem⟩ := Expr.sorted_branch he (mem_branches_of_chosenBranch hbranch)
      exact hpart (by simp) hmem hy ho hQ
  | switchLeft hx hcases hotherwise hbranches =>
    exact h₂.stays_switch_left he hregular hb htypes hcarries rfl hx hcases hotherwise hbranches hQ
  | switchCase => cases he
  | @parentSection s x r o hr ho =>
    simp only [isSorted, optionSorted] at he
    cases ho with
    | known => exact hknown rfl
    | @left rest _ he' =>
      cases he'
      refine stays_parentSection (hpart (by simp) (by simp [parts]) he hr
        (h₂.part _ hQ _ (by simp [Outcome.expr, ofExpr, liveParts, parts]))) ?_
      have hrtyped : ofExpr rest = .residual rest := h₂.typed _ _ _ hr.1 htypes
      rw [Outcome.expr, hrtyped]
      rfl
  | count ho =>
    cases ho with
    | known => exact hknown rfl
    | left hn hsections => exact stays_count hn hsections _
  | fold | reduce | foldArray | foldVectors | foldTable => cases hfold

/-- **The elements of what is left of a node stay as they are** if that is so of its parts. -/
theorem stays_elements (hR : R b e o)
    (h : NodeGives False site (CellGives site L U entered) (Rested P site enter R Q) b e o)
    (hstays : Q o.expr → Stays P site enter b' o.expr) :
    ∀ x ∈ o.flatten, Q x.expr → Stays P site enter b' x.expr := by
  -- The elements of a range or a splice are those of its children.
  have hchildren {es : Children} {os : List Outcome} {p : Place}
      (hcount : ∀ static args, e ≠ .count static args) (hparts : ∀ x, some x ∈ es → x ∈ e.parts)
      (hes : allSorted false p es = true)
      (hos : Forall₂ (Child (Rested P site enter R Q b)) (trimmed es)
        os) : ∀ x ∈ flattenChildren (keepMissing es os), Q x.expr →
          Stays P site enter b' x.expr := by
    intro x hx hQ
    rw [flattenChildren_eq, mem_flatMap] at hx
    obtain ⟨y', hy', hx⟩ := hx
    obtain ⟨y, hy, hbecomes⟩ := exists_of_forall₂_of_mem (becomes_keepMissing_trimmed hos) hy'
    cases hbecomes with
    | none =>
      rw [mem_singleton.mp hx]
      exact stays_known (typed_constant _ _) rfl
    | @some y _ hbecomes =>
      obtain ⟨o', ho', rfl⟩ := hbecomes
      have hx : x ∈ o'.expr.flatten := hx
      rw [(h₂.typed _ _ _ ho'.1 htypes).flatten_expr] at hx
      exact (ho'.2 p b' (allSorted_iff.mp hes y hy) (hregular.part (hparts y hy)) hb htypes
        (hcarries.part hcount (hparts y hy))).1 x hx hQ
  have hone (hflat : o.flatten = [o]) : ∀ x ∈ o.flatten, Q x.expr →
      Stays P site enter b' x.expr := by
    intro x hx
    rw [hflat, mem_singleton] at hx
    subst hx
    exact hstays
  rcases Expr.several_or_scalar he with ⟨rows, cols, es, rfl⟩ | ⟨es, rfl⟩ | ⟨s, es, rfl⟩ | hscalar
  · cases h with
    | range hos ho =>
      rw [isSorted, and_eq_true] at he
      rw [rebuilt_range ho, Outcome.flatten, Expr.flatten]
      exact hchildren (by simp) (by simp [parts]) he.2 hos
  · cases h with
    | splice hos ho =>
      obtain ⟨e', he', rfl⟩ := ho
      cases he'
      rw [isSorted, and_eq_true] at he
      exact hchildren (by simp) (by simp [parts, Expr.children]) he.2 hos
  · cases h with
    | subSection hos ho =>
      obtain ⟨e', he', rfl⟩ := ho
      cases he'
      exact hone (Expr.flatten_of_isOpen rfl)
  · exact hone ((h₂.typed _ _ _ hR htypes).flatten_of_scalar (h₂.sorted _ _ _ hR hb _ hscalar))

end Nodes

end Second

end Second

end FormulaFold
