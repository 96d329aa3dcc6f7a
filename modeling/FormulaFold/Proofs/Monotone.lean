import FormulaFold.Proofs.Typed

/-! # Walks that know more

Two walks of the same formula are compared, the second of which remembers at least what the
first one remembered at its end and has names bound at least to what they were bound to in the
first one.  **The outcome of the first walk is below that of the second one**
(`below_of_gives`): knowing more keeps every constant.

A fold is computed by the first walk only if every element was folded in its turn.  Then the
second walk folds the same elements in lockstep.
-/
namespace FormulaFold

open Walk

variable {t : DataType} {e node : Expr} {rebuild : FoldState → Expr} {vectors : List (List Outcome)}
  {n : Nat} {o o' : Outcome} {site : Site}

theorem Expr.exists_switch_of_withChildren {selector otherwise : Option Expr}
    {cases : List (Case Expr)} (h : (switch selector cases otherwise t).withChildren es = .ok e) :
    ∃ selector' cases' otherwise', e = switch selector' cases' otherwise' t := by
  simp only [withChildren] at h
  split at h
  · rename_i second rest
    cases hcases : casesOf (second :: rest).dropLast with
    | error m =>
      rw [hcases] at h
      cases h
    | ok cs =>
      rw [hcases] at h
      cases h
      exact ⟨_, _, _, rfl⟩
  · cases h

theorem Expr.kind_of_withChildren (h : node.withChildren es = .ok e) : e.kind = node.kind := by
  cases node with
  | operator | call | reduce | foldVectors | subSection | count | splice =>
    cases h
    rfl
  | fold form =>
    cases h
    cases form <;> rfl
  | range =>
    simp only [withChildren] at h
    split at h <;> cases h <;> rfl
  | constant | cell | letVar | letIn | switchCase | foldArray | foldTable | parentSection =>
    simp only [withChildren] at h
    split at h <;> cases h
    rfl
  | switch =>
    obtain ⟨_, _, _, rfl⟩ := exists_switch_of_withChildren h
    rfl

theorem Expr.isOpen_eq_of_kind {e' : Expr} (h : e'.kind = e.kind) : e'.isOpen = e.isOpen := by
  rcases e with _ | _ | _ | _ | _ | _ | _ | _ | _ | _ | ⟨_ | _⟩ <;>
    rcases e' with _ | _ | _ | _ | _ | _ | _ | _ | _ | _ | ⟨_ | _⟩ <;>
    first | rfl | cases h

theorem Expr.isOpen_of_withChildren (hnode : node.isOpen = true)
    (h : node.withChildren es = .ok e) : e.isOpen = true :=
  (isOpen_eq_of_kind (kind_of_withChildren h)).trans hnode

theorem below_of_rebuilt (hnode : node.isOpen = true) (h : Rebuilt node os o) : o.Below o' := by
  obtain ⟨e, he, rfl⟩ := h
  exact Outcome.below_of_isOpen (Expr.isOpen_of_withChildren hnode he)

/-! ## Elements -/

theorem exists_elements?_of_below {o o' : Outcome} (ho : o.Below o') {es : List Outcome}
    (h : o.elements? = some es) : ∃ es', o'.elements? = some es' := by
  unfold Outcome.elements? at h
  split at h
  · rcases ho with ho | ⟨e', rfl, elements', rfl, _⟩
    · cases ho
    · exact ⟨_, rfl⟩
  · rcases ho with ho | ⟨e', rfl, elements', rfl, _⟩
    · cases ho
    · exact ⟨_, rfl⟩
  · cases h

theorem arrayElements?_eq_of_below (ha : a.Below a') (h : arrayElements? a = some elements)
    (hknown : ∀ o ∈ elements, o.isKnown = true) : arrayElements? a' = some elements := by
  cases a with
  | known v t =>
    cases ha
    exact h
  | residual e =>
    cases hes : (Outcome.residual e).elements? with
    | none =>
      simp only [arrayElements?, hes] at h
      cases h
    | some es =>
      simp only [arrayElements?, hes] at h
      cases h
      obtain ⟨es', hes'⟩ := exists_elements?_of_below ha hes
      rw [flatten_of_elements? hes] at hknown ⊢
      simp only [arrayElements?, hes']
      rw [flatten_of_elements? hes', ha.flatten_eq hknown]

section Nodes

variable {R R' : Giving}

theorem below_of_childOr {e : Option Expr} {v : Value}
    (hR : ∀ x o o', e = some x → R x o → R' x o' → o.Below o') (h : ChildOr (.constant v t) R e o)
    (h' : ChildOr (.constant v t) R' e o') : o.Below o' := by
  cases e with
  | none =>
    cases h
    cases h'
    rfl
  | some x => exact hR x o o' rfl h h'

theorem forall₂_below (hR : ∀ x o o', some x ∈ es → R x o → R' x o' → o.Below o')
    (h : Forall₂ (Child R) es os) (h' : Forall₂ (Child R') es os') :
    Forall₂ Outcome.Below os os' := by
  induction h generalizing os' with
  | nil =>
    cases h'
    exact .nil
  | cons ho _ ih =>
    cases h' with
    | cons ho' h' =>
      refine .cons (below_of_childOr (fun x o o' hx => hR x o o' ?_) ho ho') (ih ?_ h')
      · exact hx ▸ mem_cons_self
      · exact fun x o o' hx => hR x o o' (mem_cons_of_mem _ hx)

theorem below_of_settles {compute : Computation} (hnode : node.isOpen = true)
    (hos : Forall₂ Outcome.Below os os') (h : Settles False site node compute os o)
    (h' : Settles False site node compute os' o') : o.Below o' := by
  cases h with
  | left _ he => exact below_of_rebuilt hnode ⟨_, he, rfl⟩
  | kept hconst hkept =>
    obtain rfl := eq_of_forall₂_below_of_isConstant hos hconst
    cases h' with
    | kept _ hkept' =>
      obtain rfl : o' = o := Option.some.inj (hkept'.symm.trans hkept)
      exact o'.below_refl
    | left hleft _ =>
      rw [hleft hconst] at hkept
      cases hkept

theorem below_of_ifGives (hnode : node.isOpen = true) (hc : c.Below c')
    (hR : ∀ x o o', some x ∈ es → R x o → R' x o' → o.Below o')
    (h : IfGives False site node R c es o)
    (h' : IfGives False site node R' c' es o') : o.Below o' := by
  have hbranch {i : Nat} (x : Expr) (o o' : Outcome) (hx : es[i]?.join = some x) :=
    hR x o o' (mem_of_getElem?_join hx)
  cases h with
  | chosen hv htruth ho | other hv htruth ho =>
    subst hv
    cases hc
    cases h' with
    | chosen hv' htruth' ho' | other hv' htruth' ho' =>
      cases hv'
      first
      | exact below_of_childOr hbranch ho ho'
      | cases htruth.symm.trans htruth'
    | settled hc' _ _ =>
      obtain ⟨f, hf⟩ := hc' _ _ rfl
      cases htruth.symm.trans hf
  | settled hc₁ hos ho =>
    cases ho with
    | left _ he => exact below_of_rebuilt hnode ⟨_, he, rfl⟩
    | kept hconst hkept =>
      -- The condition is a constant, so it is the same in both walks.
      obtain rfl := hc.eq_of_isConstant (and_eq_true_iff.mp hconst).1
      cases h' with
      | chosen hv' htruth' _ | other hv' htruth' _ =>
        obtain ⟨f, hf⟩ := hc₁ _ _ hv'
        cases htruth'.symm.trans hf
      | settled _ hos' ho' =>
        refine below_of_settles hnode (.cons hc (forall₂_below ?_ hos hos'))
          (.kept hconst hkept) ho'
        exact fun x o o' hx => hR x o o' (mem_of_mem_trimmed hx)

theorem truthOf?_eq_of_below {t : Bool} (ho : o.Below o') (h : site.truthOf? fn o = some t) :
    site.truthOf? fn o' = some t := by
  have hconst : o.isConstant = true := by
    unfold Site.truthOf? at h
    split at h
    · assumption
    · cases h
  rw [ho.eq_of_isConstant hconst, h]

/-- What decides a conjunction or drops all its arguments does so when more is known. -/
theorem undecided_mono (hR : ∀ x o o', some x ∈ es → R x o → R' x o' → o.Below o')
    (h : Undecided site fn decisive R es r) (h' : Undecided site fn decisive R' es r') :
    (r = none → r' = none) ∧ (r = some [] → r' = some []) := by
  have hdecides {o o' : Outcome} (ho : o.Below o') (h : site.truthOf? fn o = some !decisive)
      (h' : site.truthOf? fn o' = some decisive) : False := by
    rw [truthOf?_eq_of_below ho h] at h'
    cases decisive <;> cases h'
  induction h generalizing r' with
  | nil =>
    cases h'
    simp
  | missing _ ih =>
    cases h' with
    | missing h' => exact ih (fun x o o' hx => hR x o o' (mem_cons_of_mem _ hx)) h'
  | @decided e o rest ho htruth =>
    refine ⟨fun _ => ?_, fun hr => by cases hr⟩
    cases h' with
    | decided => rfl
    | dropped ho' htruth' _ =>
      rw [truthOf?_eq_of_below (hR e o _ mem_cons_self ho ho') htruth] at htruth'
      cases decisive <;> cases htruth'
    | left ho' htruth' _ =>
      rw [truthOf?_eq_of_below (hR e o _ mem_cons_self ho ho') htruth] at htruth'
      cases htruth'
  | @dropped e o rest r ho htruth _ ih =>
    have hrest (x : Expr) (o o' : Outcome) (hx : some x ∈ rest) :=
      hR x o o' (mem_cons_of_mem _ hx)
    cases h' with
    | decided ho' htruth' => exact (hdecides (hR e o _ mem_cons_self ho ho') htruth htruth').elim
    | dropped _ _ h' => exact ih hrest h'
    | left ho' htruth' _ =>
      rw [truthOf?_eq_of_below (hR e o _ mem_cons_self ho ho') htruth] at htruth'
      cases htruth'
  | @left e o rest r ho htruth _ ih =>
    have hrest (x : Expr) (o o' : Outcome) (hx : some x ∈ rest) :=
      hR x o o' (mem_cons_of_mem _ hx)
    refine ⟨fun hr => ?_, fun hr => ?_⟩
    · have hr := map_eq_none_iff.mp hr
      cases h' with
      | decided => rfl
      | dropped _ _ h' => exact (ih hrest h').1 hr
      | left _ _ h' => exact map_eq_none_iff.mpr ((ih hrest h').1 hr)
    · obtain ⟨_, _, hr⟩ := map_eq_some_iff.mp hr
      cases hr

theorem below_of_boolGives
    (hr : (r = none → r' = none) ∧ (r = some [] → r' = some [])) (h : BoolGives fn t decisive r o)
    (h' : BoolGives fn t decisive r' o') : o.Below o' := by
  cases h with
  | left => exact Outcome.below_of_isOpen rfl
  | decided =>
    obtain rfl := hr.1 rfl
    cases h'
    rfl
  | dropped =>
    obtain rfl := hr.2 rfl
    cases h'
    rfl

theorem indexOf?_eq_of_below (ho : o.Below o') (h : indexOf? o = some k) : o' = o := by
  cases o with
  | known v t => exact ho
  | residual e => cases h

theorem below_of_indexGives (hnode : node.isOpen = true)
    (hR : ∀ x o o', some x ∈ es → R x o → R' x o' → o.Below o')
    (helements : ∀ rows cols elements, some (.range rows cols elements) ∈ es →
      ∀ x o o', some x ∈ elements → R x o → R' x o' → o.Below o')
    (h : IndexGives False site node R es o)
    (h' : IndexGives False site node R' es o') : o.Below o' := by
  have hmem {x : Expr} {rest : Children} (hes : trimmed es = rest) (hx : some x ∈ rest) :
      some x ∈ es := mem_of_mem_trimmed (hes ▸ hx)
  cases h with
  | one hes hi hk hshape hlow helement ho =>
    have hfirst {i' : Outcome} (hi' : R' _ i') :=
      indexOf?_eq_of_below (hR _ _ i' (hmem hes (by simp)) hi hi') hk
    cases h' with
    | one hes' hi' hk' _ _ helement' ho' =>
      cases hes.symm.trans hes'
      rw [hfirst hi', hk] at hk'
      cases hk'
      cases helement.symm.trans helement'
      refine below_of_childOr ?_ ho ho'
      rintro x o o' rfl
      exact helements _ _ _ (hmem hes mem_cons_self) x o o' (mem_of_getElem? helement)
    | two hes' => cases hes.symm.trans hes'
    | settled hos' hone' _ _ =>
      rw [hes] at hos'
      rcases hos' with _ | ⟨hr', _ | ⟨hi', hnil⟩⟩
      obtain rfl := hfirst hi'
      exact absurd (hone' _ _ _ _ _ _ hes rfl hk) hshape
  | two hes hi hk hj hl hrow hcol hplace helement ho =>
    have hfirst {i' : Outcome} (hi' : R' _ i') :=
      indexOf?_eq_of_below (hR _ _ i' (hmem hes (by simp)) hi hi') hk
    have hsecond {j' : Outcome} (hj' : R' _ j') :=
      indexOf?_eq_of_below (hR _ _ j' (hmem hes (by simp)) hj hj') hl
    cases h' with
    | one hes' => cases hes.symm.trans hes'
    | two hes' hi' hk' hj' hl' _ _ _ helement' ho' =>
      cases hes.symm.trans hes'
      rw [hfirst hi', hk] at hk'
      rw [hsecond hj', hl] at hl'
      cases hk'
      cases hl'
      cases helement.symm.trans helement'
      refine below_of_childOr ?_ ho ho'
      rintro x o o' rfl
      exact helements _ _ _ (hmem hes mem_cons_self) x o o' (mem_of_getElem? helement)
    | settled hos' _ htwo' _ =>
      rw [hes] at hos'
      rcases hos' with _ | ⟨hr', _ | ⟨hi', _ | ⟨hj', hnil⟩⟩⟩
      obtain rfl := hfirst hi'
      obtain rfl := hsecond hj'
      rw [htwo' _ _ _ _ _ _ _ _ hes rfl rfl hk] at hl
      cases hl
  | settled hos hone htwo ho =>
    cases ho with
    | left _ he => exact below_of_rebuilt hnode ⟨_, he, rfl⟩
    | kept hconst hkept =>
      have hsame {x : Expr} {o o' : Outcome} (hx : some x ∈ es) (ho : R x o) (ho' : R' x o')
          (hconst : o.isConstant = true) : o' = o := (hR x o o' hx ho ho').eq_of_isConstant hconst
      cases h' with
      | one hes' hi' hk' hshape' _ _ _ =>
        rw [hes'] at hos
        rcases hos with _ | ⟨hr, _ | ⟨hi, hnil⟩⟩
        simp only [all_cons, and_eq_true] at hconst
        obtain rfl := hsame (hmem hes' (by simp)) hi hi' hconst.2.1
        exact absurd (hone _ _ _ _ _ _ hes' rfl hk') hshape'
      | two hes' hi' hk' hj' hl' _ _ _ _ _ =>
        rw [hes'] at hos
        rcases hos with _ | ⟨hr, _ | ⟨hi, _ | ⟨hj, hnil⟩⟩⟩
        simp only [all_cons, and_eq_true] at hconst
        obtain rfl := hsame (hmem hes' (by simp)) hi hi' hconst.2.1
        obtain rfl := hsame (hmem hes' (by simp)) hj hj' hconst.2.2.1
        rw [htwo _ _ _ _ _ _ _ _ hes' rfl rfl hk'] at hl'
        cases hl'
      | settled hos' _ _ ho' =>
        refine below_of_settles hnode (forall₂_below ?_ hos hos') (.kept hconst hkept) ho'
        exact fun x o o' hx => hR x o o' (mem_of_mem_trimmed hx)

theorem below_concatenated (hos : Forall₂ Outcome.Below os os') :
    (site.concatenated node fn t os).Below (site.concatenated node fn t os') := by
  by_cases hconst : os.all (·.isConstant) = true
  · rw [eq_of_forall₂_below_of_isConstant hos hconst]
    exact Outcome.below_refl _
  · cases hos with
    | nil => simp at hconst
    | cons ho hos =>
      unfold Site.concatenated
      simp only [List.isEmpty_cons, false_eq_true, if_false, eq_false_of_ne_true hconst,
        Bool.and_false]
      split
      · cases ‹false = true›
      · exact Outcome.below_of_isOpen rfl

theorem below_of_callGives (hR : ∀ x o o', some x ∈ args → R x o → R' x o' → o.Below o')
    (helements : ∀ rows cols elements, some (.range rows cols elements) ∈ args →
      ∀ x o o', some x ∈ elements → R x o → R' x o' → o.Below o')
    (h : CallGives False site R fn args t o f) (h' : CallGives False site R' fn args t o' f) :
    o.Below o' := by
  have hnode : (Expr.call fn args t).isOpen = true := rfl
  have htrimmed (x : Expr) (o o' : Outcome) (hx : some x ∈ trimmed args) :=
    hR x o o' (mem_of_mem_trimmed hx)
  have hsettles {compute : Computation}
      (h : ∃ os, Forall₂ (Child R) (trimmed args) os ∧
        Settles False site (.call fn args t) compute os o)
      (h' : ∃ os, Forall₂ (Child R') (trimmed args) os ∧
        Settles False site (.call fn args t) compute os o') : o.Below o' := by
    obtain ⟨os, hos, ho⟩ := h
    obtain ⟨os', hos', ho'⟩ := h'
    exact below_of_settles hnode (forall₂_below htrimmed hos hos') ho ho'
  have hposition {position : Address → Int} (h : PositionGives False site R fn position args t o)
      (h' : PositionGives False site R' fn position args t o') : o.Below o' := by
    cases h with
    | left _ _ ho => exact below_of_rebuilt hnode ho
    | known ha ho =>
      cases h' with
      | known ha' ho' =>
        cases ha.symm.trans ha'
        cases ho.symm.trans ho'
        exact o.below_refl
      | left ha' _ _ =>
        rw [ha' _ ha] at ho
        cases ho
  rcases f with _ | f
  · exact hsettles h h'
  cases f
  case ifElse =>
    rcases h with ⟨condition, branches, c, rfl, hc, ho⟩ | ⟨hargs, h⟩
    · rcases h' with ⟨condition', branches', c', heq, hc', ho'⟩ | ⟨hargs', _⟩
      · cases heq
        exact below_of_ifGives hnode (hR _ _ _ mem_cons_self hc hc')
          (fun x o o' hx => hR x o o' (mem_cons_of_mem _ hx)) ho ho'
      · exact absurd rfl (hargs' condition branches)
    · rcases h' with ⟨condition', branches', _, heq, _⟩ | ⟨_, h'⟩
      · exact absurd heq (hargs condition' branches')
      · exact hsettles h h'
  case and | or =>
    obtain ⟨r, hr, ho⟩ := h
    obtain ⟨r', hr', ho'⟩ := h'
    exact below_of_boolGives (undecided_mono htrimmed hr hr') ho ho'
  case index => exact below_of_indexGives hnode hR helements h h'
  case concatenate =>
    obtain ⟨os, hos, rfl, _⟩ := h
    obtain ⟨os', hos', rfl, _⟩ := h'
    exact below_concatenated (forall₂_below htrimmed hos hos')
  case row | column => exact hposition h h'
  all_goals exact hsettles h h'

theorem constantsGive_mono
    (hR : ∀ x o o', some x ∈ es → R x o → R' x o' → o.Below o') (h : ConstantsGive R es r)
    (hr : r = some os) (h' : ConstantsGive R' es r') : r' = some os := by
  induction h generalizing os r' with
  | nil =>
    cases hr
    cases h'
    rfl
  | missing => cases hr
  | left => cases hr
  | @cons e o rest r ho hconst _ ih =>
    obtain ⟨os, rfl, rfl⟩ := map_eq_some_iff.mp hr
    cases h' with
    | left ho' hconst' =>
      rw [(hR e o _ mem_cons_self ho ho').eq_of_isConstant hconst, hconst] at hconst'
      cases hconst'
    | cons ho' _ h' =>
      rw [(hR e o _ mem_cons_self ho ho').eq_of_isConstant hconst,
        ih (fun x o o' hx => hR x o o' (mem_cons_of_mem _ hx)) rfl h']
      rfl

theorem startGives_mono (hR : ∀ x o o', some x ∈ es → R x o → R' x o' → o.Below o')
    (h : StartGives R es folded (some st)) (h' : StartGives R' es folded r) : r = some st := by
  generalize hst : some st = r₁ at h
  cases h with
  | first hinits =>
    cases h' with
    | first => rfl
    | inits hinits' => exact absurd hinits hinits'
  | inits hinits hr =>
    cases h' with
    | first hinits' => exact absurd hinits' hinits
    | inits _ hr' =>
      obtain ⟨accs, haccs, _⟩ := map_eq_some_iff.mp hst.symm
      rw [constantsGive_mono hR hr haccs hr', haccs]

end Nodes

/-! ## Folds in lockstep -/

section Folds

variable {R R' : Bindings → Giving} {b b' : Bindings} {d : FoldDef Expr}
  {st st₁ st₂ : FoldState}

/-- Whether the outcomes of a formula in a first walk are below those in a second walk that
knows more. -/
def Mono (R R' : Bindings → Giving) (e : Expr) : Prop :=
  ∀ b b' o o', b.Below b' → R b e o → R' b' e o' → o.Below o'

theorem held_hold (orderSensitive : Bool) (nodes : List Expr) :
    (st.hold orderSensitive nodes).held ≠ [] := by
  simp [FoldState.hold]

/-- A fold after which nothing is held has held nothing before, and its items have known values. -/
theorem known_of_itemsGive {pass : List Outcome → Option Bool → Prop}
    {elements : List Outcome → List Outcome} {extra : List Outcome → List (String × Outcome)} (h : Folds (fun st item => ItemGives R b d (pass item) (elements item)
    (extra item) st item) st items st₁) (hheld : st₁.held = []) :
    st.held = [] ∧ ∀ item ∈ items, item.all (·.isKnown) = true := by
  obtain ⟨held, _, hleft, _, heq, _⟩ := exists_remainder_of_folds
    (fun _ item _ => handles_of_itemGives (x := item) rfl rfl fun _ => trivial) h
  obtain ⟨hst, hnil⟩ := List.append_eq_nil_iff.mp (heq.symm.trans hheld)
  obtain rfl := map_eq_nil_iff.mp hnil
  refine ⟨hst, fun item hitem => ?_⟩
  simpa using filter_eq_nil_iff.mp (List.sublist_nil.mp hleft.unknown) item hitem

theorem all_isKnown_of_not_held {stopped : Bool} {tuple : List Outcome}
    (h : (stopped || !tuple.all (·.isKnown)) = false) : tuple.all (·.isKnown) = true := by
  simpa using (or_eq_false_iff.mp h).2

theorem wholeGives_known (h : WholeGives R b d st os r) (hr : r = some st₁) :
    ∀ o ∈ os, o.isKnown = true := by
  induction h with
  | nil => simp
  | unknown => cases hr
  | stuck => cases hr
  | cons ho _ _ ih => exact forall_mem_cons.mpr ⟨ho, ih hr⟩

/-- Every element of every vector stands in one of the tuples that are folded. -/
theorem mem_columnsOf (hlen : ∀ v ∈ vectors, v.length = n) {v : List Outcome} (hv : v ∈ vectors)
    {x : Outcome} (hx : x ∈ v) : ∃ tuple ∈ columnsOf n vectors, x ∈ tuple := by
  obtain ⟨i, hi, hx⟩ := List.mem_iff_getElem.mp hx
  refine ⟨vectors.filterMap (·[i]?), mem_map.mpr ⟨i, ?_, rfl⟩, ?_⟩
  · exact List.mem_range.mpr (hlen v hv ▸ hi)
  · exact mem_filterMap.mpr ⟨v, hv, by rw [getElem?_eq_getElem hi, hx]⟩

theorem vectorElements?_eq_none
    (h : vectorElements? first position os = none) : ∃ o ∈ os, o.elements? = none := by
  induction os generalizing first position with
  | nil => cases h
  | cons o rest ih =>
    cases ho : o.elements? with
    | none => exact ⟨o, mem_cons_self, ho⟩
    | some es =>
      rw [vectorElements?_cons, ho, bind_some] at h
      split at h
      · cases h
      · obtain ⟨x, hx, hnone⟩ := ih (map_eq_none_iff.mp h)
        exact ⟨x, mem_cons_of_mem _ hx, hnone⟩

theorem vectors_eq_map_flatten (h : vectorElements? none 1 os = some (.ok vectors)) :
    vectors = os.map Outcome.flatten := by
  refine List.forall₂_eq_eq_eq ▸ ?_
  refine forall₂_map_right_iff.mpr ((vectorElements?_eq_ok h).1.flip.imp fun v o ho => ?_)
  obtain ⟨es, hes, rfl⟩ := map_eq_some_iff.mp ho
  exact flatten_of_elements? hes

theorem map_flatten_eq_of_below (hos : Forall₂ Outcome.Below os os')
    (hknown : ∀ o ∈ os, ∀ x ∈ o.flatten, x.isKnown = true) :
    os'.map Outcome.flatten = os.map Outcome.flatten := by
  induction hos with
  | nil => rfl
  | cons ho _ ih =>
    have hknown := forall_mem_cons.mp hknown
    rw [map_cons, map_cons, ho.flatten_eq hknown.1, ih hknown.2]

theorem passGives_mono (hfilter : ∀ e, filter = some e → Mono R R' e) (hb : b.Below b')
    {row : List Outcome} {r : Option Bool} {t : Bool}
    (h : PassGives R b columns filter row (some t)) (h' : PassGives R' b' columns filter row r) :
    r = some t := by
  generalize ht : some t = r₁ at h
  cases h with
  | all hnone =>
    cases h' with
    | all => rfl
    | tested he' => cases hnone.symm.trans he'
  | @tested e o he ho =>
    cases h' with
    | all hnone' => cases hnone'.symm.trans he
    | tested he' ho' =>
      cases he.symm.trans he'
      have hknown : o.isKnown = true := by
        cases o with
        | known v t => rfl
        | residual x => cases ht
      rw [(hfilter e he _ _ _ _ (hb.pushAll _) ho ho').eq_of_isKnown hknown]

theorem below_ofChild {e e' : Option Expr} (h : Option.Rel Expr.Below e e') :
    (ofChild e).Below (ofChild e') := by
  cases h with
  | none => rfl
  | @some e e' h =>
    cases e with
    | constant v t =>
      rw [show e' = .constant v t from h]
      rfl
    | range rows cols elements =>
      obtain ⟨elements', rfl, h⟩ := h
      exact Outcome.below_residual ⟨elements', rfl, h⟩
    | splice elements =>
      obtain ⟨elements', rfl, h⟩ := h
      exact Outcome.below_residual ⟨elements', rfl, h⟩
    | _ => exact .inl rfl

theorem startGives_eq (hinits : ∀ e, some e ∈ inits → Mono R R' e) (hb : b.Below b')
    (h : StartGives (R b) inits folded (some st)) (h' : StartGives (R' b') inits folded r) :
    r = some st :=
  startGives_mono (fun x o o' hx => hinits x hx b b' o o' hb) h h'

variable {inits : Children} {node : Expr} (hR : ∀ e ∈ d.parts, Mono R R' e)
  (hinits : ∀ e, some e ∈ inits → Mono R R' e) (hb : b.Below b') (hnode : node.isOpen = true)
include hR hb

theorem stepGives_mono (h : StepGives R b d st elements extra (some st₁))
    (h' : StepGives R' b' d st elements extra r) : r = some st₁ := by
  generalize hst : some st₁ = r₁ at h
  cases h with
  | first haccs _ helements =>
    cases h' with
    | first _ _ helements' =>
      cases helements.symm.trans helements'
      rfl
    | next haccs' => cases haccs.symm.trans haccs'
  | @next accs _ haccs _ _ hr =>
    cases h' with
    | first haccs' => cases haccs.symm.trans haccs'
    | next haccs' _ _ hr' =>
      cases haccs.symm.trans haccs'
      obtain ⟨next, hnext, _⟩ := map_eq_some_iff.mp hst.symm
      have hsteps (x : Expr) (o o' : Outcome) (hx : some x ∈ d.steps.map some) :=
        hR x (FoldDef.mem_parts_of_mem_steps (by simpa using hx)) _ _ o o' (hb.pushAll
          (d.stepPairs st.folded accs elements extra))
      rw [constantsGive_mono hsteps hr hnext hr', hnext]

section Items

variable {pass pass' : List Outcome → Option Bool → Prop} {elements : List Outcome → List Outcome}
  {extra : List Outcome → List (String × Outcome)}

variable (hpass : ∀ item t r, pass item (some t) → pass' item r → r = some t)
include hpass

/-- One item of known values goes the same way when more is known. -/
theorem itemGives_mono (hitem : Forall₂ Outcome.Below item item')
    (h : ItemGives R b d (pass item) (elements item) (extra item) st item st₁)
    (hheld : st₁.held = [])
    (h' : ItemGives R' b' d (pass' item') (elements item') (extra item') st item' st₂) :
    st₂ = st₁ := by
  cases h with
  | held | undecided => exact absurd hheld (held_hold _ _)
  | dropped hknown hp =>
    obtain rfl := eq_of_forall₂_below_of_isKnown hitem (all_isKnown_of_not_held hknown)
    cases h' with
    | held hknown' => cases hknown.symm.trans hknown'
    | dropped => rfl
    | undecided _ hp' | tried _ hp' => cases hpass _ _ _ hp hp'
  | @tried r hknown hp hr =>
    obtain rfl := eq_of_forall₂_below_of_isKnown hitem (all_isKnown_of_not_held hknown)
    cases h' with
    | held hknown' => cases hknown.symm.trans hknown'
    | undecided _ hp' | dropped _ hp' => cases hpass _ _ _ hp hp'
    | tried _ _ hr' =>
      cases r with
      | none => exact absurd hheld (held_hold _ _)
      | some st' => rw [stepGives_mono hR hb hr hr']

/-- A fold that held nothing goes the same way when more is known. -/
theorem itemsGive_mono (hitems : Forall₂ (Forall₂ Outcome.Below) items items')
    (h : Folds (fun st item => ItemGives R b d (pass item) (elements item) (extra item) st item) st
      items st₁) (hheld : st₁.held = [])
    (h' : Folds (fun st item => ItemGives R' b' d (pass' item) (elements item) (extra item) st item)
      st items' st₂) : st₂ = st₁ := by
  induction h generalizing items' st₂ with
  | nil =>
    cases hitems
    cases h'
    rfl
  | cons hitem hrest ih =>
    obtain _ | ⟨hbelow, hitems⟩ := hitems
    obtain _ | ⟨hitem', h'⟩ := h'
    rw [itemGives_mono hR hb hpass hbelow hitem (known_of_itemsGive hrest hheld).1 hitem'] at h'
    exact ih hitems hheld h'

end Items

theorem tuplesGive_mono {tuples : List (List Outcome)} (h : TuplesGive R b d st tuples st₁) (hheld : st₁.held = [])
    (h' : TuplesGive R' b' d st tuples st₂) : st₂ = st₁ :=
  itemsGive_mono hR hb (fun _ _ _ ht hr => hr.trans ht.symm)
    (forall₂_same.mpr fun _ _ => forall₂_same.mpr fun o _ => o.below_refl) h hheld h'

theorem below_of_resultGives (h : ResultGives R b d st o) (h' : ResultGives R' b' d st o') : o.Below o' := by
  cases h with
  | whenEmpty he hfolded ho =>
    cases h' with
    | whenEmpty he' _ ho' =>
      cases he.symm.trans he'
      exact hR _ (by simp [FoldDef.parts, he]) _ _ _ _ hb ho ho'
    | blank hsome | first hsome | merged hsome => exact absurd hfolded (hsome (by simp [he]))
  | blank hsome haccs =>
    cases h' with
    | whenEmpty he' hfolded' => exact absurd hfolded' (hsome (by simp [he']))
    | blank => rfl
    | first _ haccs' | merged _ haccs' => cases haccs.symm.trans haccs'
  | first hsome haccs hmerge =>
    cases h' with
    | whenEmpty he' hfolded' => exact absurd hfolded' (hsome (by simp [he']))
    | blank _ haccs' => cases haccs.symm.trans haccs'
    | first _ haccs' _ =>
      cases haccs.symm.trans haccs'
      exact Outcome.below_refl _
    | merged _ _ hmerge' => cases hmerge.symm.trans hmerge'
  | merged hsome haccs hmerge _ ho =>
    cases h' with
    | whenEmpty he' hfolded' => exact absurd hfolded' (hsome (by simp [he']))
    | blank _ haccs' => cases haccs.symm.trans haccs'
    | first _ _ hmerge' => cases hmerge.symm.trans hmerge'
    | merged _ haccs' hmerge' _ ho' =>
      cases haccs.symm.trans haccs'
      cases hmerge.symm.trans hmerge'
      exact hR _ (by simp [FoldDef.parts, hmerge]) _ _ _ _ (hb.pushAll _) ho ho'

theorem wholeGives_mono (h : WholeGives R b d st os r) (hr : r = some st₁) (h' : WholeGives R' b' d st os r') :
    r' = some st₁ := by
  induction h generalizing r' with
  | nil =>
    cases hr
    cases h'
    rfl
  | unknown => cases hr
  | stuck => cases hr
  | cons ho hstep _ ih =>
    cases h' with
    | unknown ho' => cases ho.symm.trans ho'
    | stuck _ hstep' => cases stepGives_mono hR hb hstep hstep'
    | cons _ hstep' h' =>
      cases stepGives_mono hR hb hstep hstep'
      exact ih hr h'

include hnode

/-- A fold is left to the first walk as a formula that says nothing, or it was computed, and
then the second walk computes it from the same accumulators. -/
theorem below_of_completeGives {rebuild' : FoldState → Expr}
    (hrebuild : ∀ st, (rebuild st).isOpen = true) (hst : st₁.held = [] → st₂ = st₁)
    (h : CompleteGives R b d partialFolds st₁ (Rebuilt node os) rebuild o)
    (h' : CompleteGives R' b' d partialFolds st₂ (Rebuilt node os') rebuild' o') : o.Below o' := by
  cases h with
  | whole _ _ ho => exact below_of_rebuilt hnode ho
  | rebuilt => exact Outcome.below_of_isOpen (hrebuild _)
  | result hheld ho =>
    obtain rfl := hst hheld
    cases h' with
    | result _ ho' => exact below_of_resultGives hR hb ho ho'
    | whole hheld' | rebuilt hheld' => exact absurd hheld hheld'

include hinits

theorem below_of_elementsGive (hrebuild : ∀ st, (rebuild st).isOpen = true) (hos : Forall₂ Outcome.Below os os')
    (h : ElementsGive R b d partialFolds node inits folded rebuild os o)
    (h' : ElementsGive R' b' d partialFolds node inits folded rebuild os' o') : o.Below o' := by
  cases h with
  | notStarted _ ho => exact below_of_rebuilt hnode ho
  | folded hst htuples ho =>
    cases h' with
    | notStarted hst' => cases startGives_eq hinits hb hst hst'
    | folded hst' htuples' ho' =>
      cases startGives_eq hinits hb hst hst'
      refine below_of_completeGives hR hb hnode hrebuild (fun hheld => ?_) ho ho'
      have hknown (x : Outcome) (hx : x ∈ flattenOutcomes os) : x.isKnown = true := by
        simpa using (known_of_itemsGive htuples hheld).2 [x] (List.mem_map_of_mem hx)
      rw [flattenOutcomes_eq_of_below hos hknown] at htuples'
      exact tuplesGive_mono hR hb htuples hheld htuples'

theorem below_of_arrayGives (ha : a.Below a') (h : ArrayGives R b d node inits a o)
    (h' : ArrayGives R' b' d node inits a' o') : o.Below o' := by
  cases h with
  | sized _ ho | notStarted _ _ ho | stuck _ _ _ ho => exact below_of_rebuilt hnode ho
  | @folded elements _ _ _ helements hst hwhole ho =>
    have helements' : arrayElements? a' = some elements :=
      arrayElements?_eq_of_below ha helements (wholeGives_known hwhole rfl)
    cases h' with
    | sized hsized => cases helements'.symm.trans hsized
    | notStarted _ hst' => cases startGives_eq hinits hb hst hst'
    | stuck ha' hst' hwhole' =>
      cases helements'.symm.trans ha'
      cases startGives_eq hinits hb hst hst'
      cases wholeGives_mono hR hb hwhole rfl hwhole'
    | folded ha' hst' hwhole' ho' =>
      cases helements'.symm.trans ha'
      cases startGives_eq hinits hb hst hst'
      cases wholeGives_mono hR hb hwhole rfl hwhole'
      exact below_of_resultGives hR hb ho ho'

theorem below_of_vectorsGive {rebuild : FoldState → List Expr → Expr}
    (hrebuild : ∀ st vs, (rebuild st vs).isOpen = true)
    (hne : os ≠ []) (hos : Forall₂ Outcome.Below os os')
    (h : VectorsGive R b d partialFolds node inits folded rebuild os o)
    (h' : VectorsGive R' b' d partialFolds node inits folded rebuild os' o') : o.Below o' := by
  cases h with
  | sized _ ho | notStarted _ _ ho => exact below_of_rebuilt hnode ho
  | @folded vectors _ _ _ hvectors hst htuples ho =>
    cases h' with
    | sized hvectors' =>
      -- The vectors of the first walk are ranges, so those of the second one are.
      obtain ⟨o', ho', hnone⟩ := vectorElements?_eq_none hvectors'
      obtain ⟨o, ho, hbelow⟩ := exists_of_forall₂_of_mem hos ho'
      obtain ⟨v, _, hv⟩ := exists_of_forall₂_of_mem (vectorElements?_eq_ok hvectors).1.flip ho
      obtain ⟨es, hes, _⟩ := map_eq_some_iff.mp hv
      obtain ⟨es', hes'⟩ := exists_elements?_of_below hbelow hes
      cases hnone.symm.trans hes'
    | notStarted _ hst' => cases startGives_eq hinits hb hst hst'
    | folded hvectors' hst' htuples' ho' =>
      cases startGives_eq hinits hb hst hst'
      refine below_of_completeGives hR hb hnode (fun st => hrebuild st _) (fun hheld => ?_) ho ho'
      obtain ⟨n, _, hlen⟩ := (vectorElements?_eq_ok hvectors).2
      have hwidth : (vectors.headD []).length = n := by
        cases vectors with
        | nil =>
          have := (vectorElements?_eq_ok hvectors).1.length_eq
          exact absurd (length_eq_zero_iff.mp this) hne
        | cons v rest => exact hlen v mem_cons_self
      rw [hwidth] at htuples
      have hknown (o : Outcome) (ho : o ∈ os) (x : Outcome) (hx : x ∈ o.flatten) :
          x.isKnown = true := by
        have hv : o.flatten ∈ vectors :=
          vectors_eq_map_flatten hvectors ▸ List.mem_map_of_mem ho
        obtain ⟨tuple, htuple, hx⟩ := mem_columnsOf hlen hv hx
        exact all_eq_true.mp ((known_of_itemsGive htuples hheld).2 tuple htuple) x hx
      rw [vectors_eq_map_flatten hvectors', map_flatten_eq_of_below hos hknown,
        ← vectors_eq_map_flatten hvectors, hwidth] at htuples'
      exact tuplesGive_mono hR hb htuples hheld htuples'

theorem below_of_tableGives (hfilter : ∀ e, filter = some e → Mono R R' e)
    {rebuild : FoldState → Expr → Expr}
    (hrebuild : ∀ st e, (rebuild st e).isOpen = true) (ha : a.Below a')
    (h : TableGives R b d partialFolds node inits folded columns filter column rebuild a o)
    (h' : TableGives R' b' d partialFolds node inits folded columns filter column rebuild a' o') :
    o.Below o' := by
  cases h with
  | sized _ ho | notStarted _ _ _ ho => exact below_of_rebuilt hnode ho
  | folded hrange _ _ hst _ _ hrows ho =>
    subst hrange
    rcases ha with ha | ⟨e', rfl, elements', rfl, hbelow⟩
    · cases ha
    cases h' with
    | sized hsized => exact absurd rfl (hsized _ _ _)
    | notStarted _ _ hst' => cases startGives_eq hinits hb hst hst'
    | folded hrange' _ _ hst' _ _ hrows' ho' =>
      cases hrange'
      cases startGives_eq hinits hb hst hst'
      refine below_of_completeGives hR hb hnode (fun st => hrebuild st _) (fun hheld => ?_) ho ho'
      rw [Expr.allLike_iff] at hbelow
      rw [← hbelow.length_eq] at hrows'
      refine itemsGive_mono hR hb (fun _ _ _ => passGives_mono hfilter hb)
        (List.forall₂_take _ (forall₂_rowsOf _ _ ?_)) hrows hheld hrows'
      exact forall₂_map_left_iff.mpr (forall₂_map_right_iff.mpr
        (hbelow.imp fun _ _ h => below_ofChild h))

end Folds

/-! ## Cells and nodes -/

/-- A constant that the first walk found of a cell is remembered by the second one. -/
theorem below_of_cellGives {R R' : Address → Giving} (hMU : M.Within U)
    (hR : ∀ a f o, R a f o → o.Typed) (h : CellGives site L M R a o)
    (h' : CellGives site M U R' a o') : o.Below o' := by
  have hrecall {c : Constant} (hinput : (site.book.get a).input = false)
      (hc : M.find? a = some c) : o' = .constant c.value c.type := by
    cases h' with
    | input hinput' => cases hinput.symm.trans hinput'
    | remembered _ hc' =>
      cases (hMU a c hc).symm.trans hc'
      rfl
    | literal _ _ hM | entered _ _ hM | left _ hM => cases hM.symm.trans hc
  cases h with
  | input | left => exact Outcome.below_of_isOpen rfl
  | remembered hinput hc => exact hrecall hinput hc
  | literal hinput _ _ hM =>
    rw [hrecall hinput hM]
    unfold Site.literalOf
    split
    · rfl
    · exact (typed_constant _ _).constant_eq
  | entered hinput _ _ henter hM =>
    rw [hrecall hinput hM]
    exact (hR _ _ _ henter).constant_eq

theorem below_rebuilt_range (hos : Forall₂ Outcome.Below os os')
    (h : Rebuilt (.range rows cols es) os o) (h' : Rebuilt (.range rows cols es) os' o') :
    o.Below o' := by
  have hbelow : Forall₂ (Option.Rel Expr.Below) (keepMissing es os) (keepMissing es os') :=
    forall₂_keepMissing (hos.imp fun _ _ h => h.expr)
  rw [rebuilt_range h, rebuilt_range h', hbelow.length_eq]
  exact Outcome.below_residual ⟨_, rfl, Expr.allLike_iff.mpr hbelow⟩

theorem below_rebuilt_splice (hos : Forall₂ Outcome.Below os os')
    (h : Rebuilt (.splice es) os o) (h' : Rebuilt (.splice es) os' o') : o.Below o' := by
  obtain ⟨e, he, rfl⟩ := h
  obtain ⟨e', he', rfl⟩ := h'
  cases he
  cases he'
  exact Outcome.below_residual ⟨_, rfl, Expr.allLike_iff.mpr
    (forall₂_keepMissing (hos.imp fun _ _ h => h.expr))⟩

/-- **Knowing more keeps what a node gives**, given that it does so for its parts. -/
theorem below_of_nodeGives {entered entered' : Address → Giving}
    {R R' : Bindings → Giving} (hMU : M.Within U)
    (hentered : ∀ a f o, entered a f o → o.Typed) (hR : ∀ p, p.Inside e → Mono R R' p)
    (hb : b.Below b') (h : NodeGives False site (CellGives site L M entered) R b e o)
    (h' : NodeGives False site (CellGives site M U entered') R' b' e o') : o.Below o' := by
  have hpart (p : Expr) (hp : p ∈ e.parts) : Mono R R' p := hR p (.part hp)
  cases h with
  | constant =>
    cases h'
    rfl
  | operator hos ho =>
    cases h' with
    | operator hos' ho' =>
      refine below_of_settles rfl (forall₂_below (fun x o o' hx => ?_) hos hos') ho ho'
      exact hpart x (by simpa [parts] using mem_of_mem_trimmed hx) _ _ o o' hb
  | call ho =>
    cases h' with
    | call ho' =>
      refine below_of_callGives (fun x o o' hx => ?_) (fun rows cols es hes x o o' hx => ?_) ho ho'
      · exact hpart x (by simpa [parts] using hx) _ _ o o' hb
      · refine hR x (.trans (.part ?_) (.part (by simpa [parts] using hes))) _ _ o o' hb
        simpa [parts] using hx
  | cell ho =>
    cases h' with
    | cell ho' => exact below_of_cellGives hMU hentered ho ho'
  | range hos ho =>
    cases h' with
    | range hos' ho' =>
      refine below_rebuilt_range (forall₂_below (fun x o o' hx => ?_) hos hos') ho ho'
      exact hpart x (by simpa [parts] using mem_of_mem_trimmed hx) _ _ o o' hb
  | splice hos ho =>
    cases h' with
    | splice hos' ho' =>
      refine below_rebuilt_splice (forall₂_below (fun x o o' hx => ?_) hos hos') ho ho'
      exact hpart x (by simpa [parts] using mem_of_mem_trimmed hx) _ _ o o' hb
  | letIn hv hr ho =>
    cases ho with
    | left => exact .inl rfl
    | known =>
      cases h' with
      | letIn hv' hr' ho' =>
        have hv := hpart _ (by simp [parts]) _ _ _ _ hb hv hv'
        have hr := hpart _ (by simp [parts]) _ _ _ _ (hb.push fun x hx => ?_) hr hr'
        · cases hr
          cases ho'
          rfl
        · split at hx
          · rename_i hconst
            rw [hv.eq_of_isConstant hconst, if_pos hconst]
            exact hx
          · cases hx
  | letVar ho =>
    have hlookup := hb _ _ ho
    cases h' with
    | letVar ho' =>
      cases hlookup.symm.trans ho'
      exact o.below_refl
    | letVarLeft ho' => cases hlookup.symm.trans ho'
  | letVarLeft | switchLeft | switchCase => exact .inl rfl
  | switch hx ho =>
    cases h' with
    | switch hx' ho' =>
      cases hpart _ (by simp [parts]) _ _ _ _ hb hx hx'
      refine below_of_childOr (fun x o o' hx => hpart x ?_ _ _ o o' hb) ho ho'
      rcases mem_branches_of_chosenBranch hx with hx | hx
      · simp [parts, hx]
      · simp [parts, hx]
    | switchLeft hx' => cases hpart _ (by simp [parts]) _ _ _ _ hb hx hx'
  | fold hos ho | reduce hos ho =>
    cases h'
    rename_i hos' ho'
    refine below_of_elementsGive (fun x hx => hpart x (by simp [parts, hx]))
      (fun x hx => hpart x ?_) hb rfl (fun _ => rfl)
      (forall₂_below (fun x o o' hx => hpart x (by simp [parts, hx]) _ _ o o' hb) hos hos') ho ho'
    first
    | simp [parts, ← mem_singleton.mp hx]
    | rcases FoldDef.mem_parts_of_mem_start _ hx with hx | hx <;> simp [parts, hx]
  | foldArray ha ho =>
    cases h' with
    | foldArray ha' ho' =>
      refine below_of_arrayGives (fun x hx => hpart x (by simp [parts, hx]))
        (fun x hx => hpart x (by simp [parts, FoldDef.parts, hx])) hb rfl
        (below_of_childOr (fun x o o' hx => ?_) ha ha') ho ho'
      exact hpart x (by simp [parts, hx]) _ _ o o' hb
  | foldVectors hos hne _ ho =>
    cases h' with
    | foldVectors hos' _ _ ho' =>
      refine below_of_vectorsGive (fun x hx => hpart x (by simp [parts, hx]))
        (fun x hx => hpart x ?_) hb rfl (fun _ _ => rfl) hne
        (forall₂_below (fun x o o' hx => hpart x (by simp [parts, hx]) _ _ o o' hb) hos hos')
        ho ho'
      rcases FoldDef.mem_parts_of_mem_start _ hx with hx | hx <;> simp [parts, hx]
  | foldTable ha ho =>
    cases h' with
    | foldTable ha' ho' =>
      refine below_of_tableGives (fun x hx => hpart x (by simp [parts, hx]))
        (fun x hx => hpart x ?_) hb rfl (fun x hx => hpart x (by simp [parts, hx]))
        (fun _ _ => rfl) (below_of_childOr (fun x o o' hx => ?_) ha ha') ho ho'
      · rcases FoldDef.mem_parts_of_mem_start _ hx with hx | hx <;> simp [parts, hx]
      · exact hpart x (by simp [parts, hx]) _ _ o o' hb
  | parentSection hr ho =>
    cases ho with
    | left he => exact Outcome.below_of_isOpen (Expr.isOpen_of_withChildren rfl he)
    | known =>
      cases h' with
      | parentSection hr' ho' =>
        cases hpart _ (by simp [parts]) _ _ _ _ hb hr hr'
        cases ho'
        rfl
  | subSection _ ho => exact below_of_rebuilt rfl ho
  | count ho =>
    cases h' with
    | count ho' =>
      cases ho with
      | left => exact Outcome.below_of_isOpen rfl
      | known hn =>
        cases ho' with
        | known hn' =>
          cases hn.symm.trans hn'
          rfl
        | left hn' hne => cases hn.symm.trans hn'; exact absurd rfl hne

/-- **Knowing more keeps every constant**: the outcome of a walk is below the outcome of a walk
that starts from what the first one remembered. -/
theorem below_of_gives {opt : Optimizer} {book : Workbook} {n' : Nat} {origin : Option Address}
    (e : Expr) : ∀ {b b' : Bindings} {o o' : Outcome}, b.Below b' →
      Gives L M b (opt.walkDeep book n origin e) o →
      Gives M U b' (opt.walkDeep book n' origin e) o' → o.Below o' := by
  induction e using induction_on_parts with
  | step e ih =>
    intro b b' o o' hb h h'
    have hMU : M.Within U :=
      h'.within (frames_walkDeep_open (O := fun _ => True) trivial n' origin e b')
    have hentered (a : Address) (f : Expr) (o : Outcome) (h : EnterGives opt book L M n a f o) :
        o.Typed := by
      cases n with
      | zero => exact h.elim
      | succ n => exact typed_of_gives n f .empty h
    refine below_of_nodeGives hMU hentered (fun p hp b b' o o' hb h h' => ?_) hb
      (gives_walkDeep (fun _ _ _ _ h => h) h) (gives_walkDeep (fun _ _ _ _ h => h) h')
    exact ih p hp hb h h'

end FormulaFold
