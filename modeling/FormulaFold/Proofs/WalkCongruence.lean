import FormulaFold.Proofs.FoldCongruence
import FormulaFold.Proofs.References

/-! # Two walks of one formula

**Two walks of a formula are related by a congruence if they are so at the cells that the formula
mentions** (`Walk.Congruence.walk`).  The walks may differ in whether folds are done in part,
provided that what is left of a fold is not told apart.
-/
namespace FormulaFold

open Walk

/-! ## Forms that do not look at whether folds are done in part -/

theorem undecided?_withPartialFolds (site : Site) (p : Bool) (fn : String) (decisive : Bool)
    (acts : List (Option Action)) :
    undecided? (site.withPartialFolds p) fn decisive acts = undecided? site fn decisive acts := by
  induction acts with
  | nil => rfl
  | cons act rest ih =>
    cases act with
    | none => exact ih
    | some act =>
      rw [undecided?_some_cons, undecided?_some_cons, ih]
      rfl

theorem boolForm_withPartialFolds (site : Site) (p : Bool) (fn : String) (t : DataType)
    (decisive : Bool) (acts : List (Option Action)) :
    boolForm (site.withPartialFolds p) fn t decisive acts = boolForm site fn t decisive acts := by
  rw [boolForm, undecided?_withPartialFolds]
  rfl

theorem mergeRuns_withPartialFolds (site : Site) (p : Bool) (node : Expr) (sole : Bool)
    (run os : List Outcome) :
    mergeRuns (site.withPartialFolds p) node sole run os = mergeRuns site node sole run os := by
  induction os generalizing run with
  | nil => rfl
  | cons o rest ih =>
    rw [mergeRuns, mergeRuns, ih, ih]
    rfl

theorem concatForm_withPartialFolds (site : Site) (p : Bool) (node : Expr) (fn : String)
    (t : DataType) (acts : List (Option Action)) :
    concatForm (site.withPartialFolds p) node fn t acts = concatForm site node fn t acts := by
  simp only [concatForm, mergeRuns_withPartialFolds]
  rfl

section Leaves

variable {Q : Expr → Expr → Prop}

/-- Whether `Q` takes any two formulas of one kind and one data type for the same, if two walks
differ in whether folds are done in part. -/
def Blind (site : Site) (p : Bool) (Q : Expr → Expr → Prop) : Prop :=
  p ≠ site.partialFolds → ∀ e e' : Expr, e.isOpen = true → e'.kind = e.kind →
    site.book.typeOf? e' = site.book.typeOf? e → Q e e'

theorem forall₂_held {st st' : FoldState} (h : st.Like Q st') :
    Forall₂ (Option.Rel (Expr.Like Q)) ((st.held.flatten).map some)
      ((st'.held.flatten).map some) :=
  forall₂_map_some (List.rel_flatten h.held)

theorem leaves_fold (hQ : Agreeable site.book Q) (hblind : Blind site p Q) (form : FoldForm) :
    Leaves site p Q (.fold form d seeds folded es t)
      (fun os => .fold form d seeds folded (keepMissing es os) t)
      fun st => .fold form d st.seeds st.folded ((st.held.flatten).map some) t where
  whole_eq _ := rfl
  rebuild_like st st' h := by
    rw [h.seeds, h.folded]
    exact hQ.node_like (.fold form d st.seeds st.folded [] t) (forall₂_held h) rfl rfl
  mixed hp _ _ := by
    cases form <;> exact ⟨hblind hp _ _ rfl rfl rfl, hblind hp _ _ rfl rfl rfl⟩

theorem leaves_reduce (hQ : Agreeable site.book Q) (hblind : Blind site p Q) :
    Leaves site p Q (.reduce d seed folded es t)
      (fun os => .reduce d seed folded (keepMissing es os) t)
      fun st => .reduce d st.seeds.head? st.folded ((st.held.flatten).map some) t where
  whole_eq _ := rfl
  rebuild_like st st' h := by
    rw [h.seeds, h.folded]
    exact hQ.node_like (.reduce d st.seeds.head? st.folded [] t) (forall₂_held h) rfl rfl
  mixed hp _ _ := ⟨hblind hp _ _ rfl rfl rfl, hblind hp _ _ rfl rfl rfl⟩

theorem vector_like (h : Forall₂ (Expr.Like Q) xs ys) :
    (Expr.vector xs).Like Q (Expr.vector ys) := by
  unfold Expr.vector
  rw [h.length_eq]
  exact ⟨_, rfl, Expr.allLike_iff.mpr (forall₂_map_some h)⟩

theorem leaves_foldVectors (hQ : Agreeable site.book Q) (hblind : Blind site p Q) (n : Nat) :
    Leaves site p Q (.foldVectors d seeds folded es t)
      (fun os => .foldVectors d seeds folded (keepMissing es os) t)
      fun st => .foldVectors d st.seeds st.folded
        (((columnsOf n st.held).map Expr.vector).map some) t where
  whole_eq _ := rfl
  rebuild_like st st' h := by
    rw [h.seeds, h.folded]
    refine hQ.node_like (.foldVectors d st.seeds st.folded [] t) (forall₂_map_some ?_)
      rfl rfl
    rw [forall₂_map_left_iff, forall₂_map_right_iff]
    exact (forall₂_columnsOf h.held n).imp fun _ _ => vector_like
  mixed hp _ _ := ⟨hblind hp _ _ rfl rfl rfl, hblind hp _ _ rfl rfl rfl⟩

theorem leaves_foldTable (hQ : Agreeable site.book Q) (hblind : Blind site p Q)
    :
    Leaves site p Q (.foldTable d seeds folded columns filter column table t)
      (fun os => .foldTable d seeds folded columns filter column
        (table.bind fun _ => os.head?.map (·.expr)) t)
      fun st => .foldTable d st.seeds st.folded columns filter column
        (some (.range st.held.length cols ((st.held.flatten).map some))) t where
  whole_eq os := by
    cases os <;> cases table <;> rfl
  rebuild_like st st' h := by
    rw [h.seeds, h.folded, ← h.held.length_eq]
    refine hQ.node_like
      (.foldTable d st.seeds st.folded columns filter column none t)
      (.cons (.some ?_) .nil) rfl rfl
    exact ⟨_, rfl, Expr.allLike_iff.mpr (forall₂_held h)⟩
  mixed hp _ _ := ⟨hblind hp _ _ rfl rfl rfl, hblind hp _ _ rfl rfl rfl⟩

end Leaves

/-- **Two walks of one formula are related if they are so at the cells it mentions.** -/
theorem Walk.Congruence.walk {Q : Expr → Expr → Prop} (C : Congruence site.engine c c')
    (hQ : Agreeable site.book Q) (hblind : Blind site p Q)
    {enter enter' : Address → Expr → Action} (e : Expr)
    (hfolds : ∀ x : Expr, x.OccursIn e → x.isFold = true → c = site.partialFolds ∧ c' = p)
    (hcell : ∀ a, e.Mentions a → C.Alike Q (cellForm site enter a)
      (cellForm (site.withPartialFolds p) enter' a)) :
    C.Alike Q (e.walk site enter) (e.walk (site.withPartialFolds p) enter') := by
  induction e using induction_on_parts with
  | step e ih =>
  have hpart (x : Expr) (hx : x ∈ e.parts) :
      C.Alike Q (x.walk site enter) (x.walk (site.withPartialFolds p) enter') :=
    ih x (.part hx) (fun y hy => hfolds y (hy.tail hx)) fun a ha =>
      hcell a (Expr.Inside.mentions (.part hx) ha)
  cases e with
  | constant v t =>
    rw [Expr.walk, Expr.walk]
    exact C.pure (hQ.outcome_refl _)
  | operator op operands t =>
    rw [Expr.walk, Expr.walk, walkAll_eq, walkAll_eq, trimmed_map, trimmed_map]
    exact C.generic hQ (site.engine.backs_compute op) .nil fun x hx =>
      hpart x (by simpa [parts] using mem_of_mem_trimmed hx)
  | call fn args t =>
    have hargs (x : Expr) (hx : some x ∈ args) := hpart x (by simpa [parts] using hx)
    rw [walk_call, walk_call]
    dsimp only
    cases ofName? fn with
    | none => exact C.callForm hQ hargs
    | some builtin =>
      cases builtin
      all_goals dsimp only
      case ifElse => exact C.ifForm hQ hargs
      case and | or =>
        rw [boolForm_withPartialFolds]
        exact C.boolForm hQ hargs
      case index =>
        refine C.indexForm hQ (fun r hr x hx => ?_) hargs
        obtain ⟨rows, cols, elements⟩ := r
        obtain ⟨rest, rfl⟩ := indexRange?_eq_some hr
        have hx : x.Inside (.range rows cols elements) := .part (by simpa [parts] using hx)
        have hx : x.Inside (.call fn (some (.range rows cols elements) :: rest) t) :=
          hx.trans (.part (by simp [parts]))
        exact ih x hx (fun y hy => hfolds y (hy.trans hx.to_reflTransGen)) fun a ha =>
          hcell a (hx.mentions ha)
      case concatenate =>
        rw [concatForm_withPartialFolds]
        exact C.concatForm hQ hargs
      case row | column => exact C.positionForm hQ hargs
      all_goals exact C.callForm hQ hargs
  | cell a =>
    rw [Expr.walk, Expr.walk]
    exact hcell a (Expr.mentions_cell a)
  | range rows cols elements | splice elements | subSection s elements =>
    rw [Expr.walk, Expr.walk, walkAll_eq, walkAll_eq]
    exact C.rebuildForm hQ fun x hx =>
      hpart x (by simpa [parts] using hx)
  | letIn name value body =>
    simp only [Expr.walk, walkOption_eq]
    exact C.letForm hQ
      (fun x hx => hpart x (by simp [parts, hx]))
      fun x hx => hpart x (by simp [parts, hx])
  | letVar name t =>
    rw [Expr.walk, Expr.walk]
    exact C.nameForm hQ name t
  | switch selector cases otherwise t =>
    have hbranch (c : Case Expr) (hc : c ∈ cases) (x : Expr) (hx : c.branch = some x) :=
      hpart x (by
        simp only [parts, mem_append, mem_present]
        exact .inl (.inr (mem_map.mpr ⟨c, hc, hx⟩)))
    have hselector (x : Expr) (hx : selector = some x) := hpart x (by simp [parts, hx])
    have hotherwise (x : Expr) (hx : otherwise = some x) := hpart x (by simp [parts, hx])
    -- Left to the run, the cases are walked as nodes of their own.
    have hnode (c : Case Expr) (hc : c ∈ cases) : C.Alike Q
        ((Expr.switchCase c).walk site enter)
        ((Expr.switchCase c).walk (site.withPartialFolds p) enter') := by
      simp only [Expr.walk, walkCase_eq]
      exact C.rebuildForm hQ fun x hx =>
        hbranch c hc x (mem_singleton.mp hx).symm
    have hacts (enter : Address → Expr → Action) (site : Site) :
        selector.map (Expr.walk site enter) ::
          (cases.map (fun c => some ((Expr.switchCase c).walk site enter)) ++
            [otherwise.map (Expr.walk site enter)]) =
        (Expr.children (.switch selector cases otherwise t)).map
          (Option.map (Expr.walk site enter)) := by
      simp [Expr.children]
    rw [Expr.walk, Expr.walk]
    simp only [walkOption_eq, walkCases_eq, walkCaseNodes_eq]
    rw [hacts, hacts]
    refine C.switchForm hQ hselector hbranch hotherwise fun x hx => ?_
    simp only [Expr.children, mem_cons, mem_append, mem_map, not_mem_nil,
      or_false, Option.some.injEq] at hx
    rcases hx with hx | ⟨c, hc, rfl⟩ | hx
    · exact hselector x hx.symm
    · exact hnode c hc
    · exact hotherwise x hx.symm
  | switchCase c =>
    simp only [Expr.walk, walkCase_eq]
    exact C.rebuildForm hQ fun x hx =>
      hpart x (by simpa [parts] using (mem_singleton.mp hx).symm)
  | fold form d seeds folded elements t =>
    obtain ⟨rfl, rfl⟩ := hfolds _ .refl rfl
    simp only [Expr.walk, walkDef_eq, walkSeeds_eq, walkAll_eq, resume_eq]
    refine C.foldElements hQ (fun x hx => hpart x ?_)
      (leaves_fold hQ hblind form) folded
    have hstart := @FoldDef.mem_parts_of_mem_start _ d x seeds
    simp only [parts, mem_append, mem_present]
    tauto
  | reduce d seed folded elements t =>
    obtain ⟨rfl, rfl⟩ := hfolds _ .refl rfl
    have hplan (w : Expr → Action) (site : Site) (node : Expr) :
        (⟨site, node, d.map w, [seed.map w]⟩ : FoldPlan) = planOf w site node d [seed] := rfl
    simp only [Expr.walk, walkDef_eq, walkAll_eq, walkOption_eq, hplan]
    refine C.foldElements hQ (fun x hx => hpart x ?_)
      (leaves_reduce hQ hblind) folded
    simpa [parts, eq_comm, or_assoc] using hx
  | foldArray d array t =>
    obtain ⟨rfl, rfl⟩ := hfolds _ .refl rfl
    have hplan (w : Expr → Action) (site : Site) (node : Expr) :
        FoldPlan.resume site node (d.map w) [] = planOf w site node d (d.start []) :=
      resume_eq site w node d []
    simp only [Expr.walk, walkDef_eq, walkOption_eq, hplan]
    refine C.foldArrayForm hQ fun x hx => hpart x ?_
    have hstart := @FoldDef.mem_parts_of_mem_start _ d x []
    simp only [parts, mem_append, mem_toList]
    simp only [not_mem_nil, or_false] at hstart
    tauto
  | foldVectors d seeds folded vectors t =>
    obtain ⟨rfl, rfl⟩ := hfolds _ .refl rfl
    simp only [Expr.walk, walkDef_eq, walkSeeds_eq, walkAll_eq, resume_eq]
    refine C.foldVectorsForm hQ (fun x hx => hpart x ?_)
      (leaves_foldVectors hQ hblind) folded
    have hstart := @FoldDef.mem_parts_of_mem_start _ d x seeds
    simp only [parts, mem_append, mem_present]
    tauto
  | foldTable d seeds folded columns filter column table t =>
    obtain ⟨rfl, rfl⟩ := hfolds _ .refl rfl
    simp only [Expr.walk, walkDef_eq, walkSeeds_eq, walkOption_eq, resume_eq]
    refine C.foldTableForm hQ (fun x hx => hpart x ?_)
      (fun cols => leaves_foldTable hQ hblind) folded
    have hstart := @FoldDef.mem_parts_of_mem_start _ d x seeds
    simp only [parts, mem_append, mem_toList]
    tauto
  | parentSection s inner =>
    simp only [Expr.walk, walkOption_eq]
    exact C.parentForm hQ fun x hx => hpart x (by simp [parts, hx])
  | count static args =>
    rw [Expr.walk, Expr.walk]
    exact C.countForm hQ static args

end FormulaFold
