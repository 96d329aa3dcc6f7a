import FormulaFold.Proofs.Lasting

/-! # Formulas that can be written

A formula can be written unless a sub-section without a section is among the parts of it that are
used.  **What can be written can still be written after a walk** (`isWritable_of_gives`).
-/
namespace FormulaFold

open Walk

variable {withInits : Bool} {e : Expr} {d : FoldDef Expr}

namespace Expr

variable {path : String → String}

/-- Whether a formula can be written. -/
def isWritable (path : String → String) (e : Expr) : Bool := (render path e).isSome

/-- Whether a formula is a sub-section without a section. -/
def isNameless : Expr → Bool
  | subSection none _ => true
  | _ => false

section Texts

variable {α β : Type}

theorem isSome_bind {f : α → Option β} {P : Prop}
    (hf : ∀ a, (f a).isSome = true ↔ P) : (x >>= f).isSome = true ↔ x.isSome = true ∧ P := by
  cases x with
  | none => simp
  | some a => simpa using hf a

theorem isSome_bind_pure {x : Option α} {f : α → β} :
    (x >>= fun a => pure (f a)).isSome = true ↔ x.isSome = true := by
  cases x <;> simp

end Texts

theorem isSome_renderOption {e : Option Expr} :
    (renderOption path e).isSome = true ↔ ∀ x, e = some x → x.isWritable path = true := by
  cases e <;> simp [renderOption, isWritable]

theorem isSome_renderChild {e : Option Expr} :
    (renderChild path e).isSome = true ↔ ∀ x, e = some x → x.isWritable path = true := by
  cases e <;> simp [renderChild, isWritable]

theorem isSome_renderAll :
    (renderAll path es).isSome = true ↔ ∀ x, some x ∈ es → x.isWritable path = true := by
  induction es with
  | nil => simp [renderAll]
  | cons e es ih =>
    rw [renderAll, isSome_bind fun _ => isSome_bind_pure, isSome_renderChild, ih]
    simp only [mem_cons, or_imp, forall_and, eq_comm]

theorem isSome_renderSeeds :
    (renderSeeds path seeds).isSome = true ↔ ∀ x ∈ seeds, x.isWritable path = true := by
  induction seeds with
  | nil => simp [renderSeeds]
  | cons e es ih =>
    rw [renderSeeds, isSome_bind fun _ => isSome_bind_pure, ih, forall_mem_cons]
    rfl

theorem isSome_renderCase {c : Case Expr} :
    (renderCase path c).isSome = true ↔ ∀ x, c.branch = some x → x.isWritable path = true := by
  rw [renderCase, isSome_bind_pure, isSome_renderChild]

theorem isSome_renderCases : (renderCases path cs).isSome = true ↔
      ∀ x, some x ∈ cs.map (·.branch) → x.isWritable path = true := by
  induction cs with
  | nil => simp [renderCases]
  | cons c cs ih =>
    rw [renderCases, isSome_bind fun _ => isSome_bind_pure, isSome_renderCase, ih]
    simp only [map_cons, mem_cons, or_imp, forall_and, eq_comm]

theorem isSome_renderAccumulator : (renderAccumulator path withInit a).isSome = true ↔
      (withInit = true → ∀ x, a.init = some x → x.isWritable path = true) ∧
        a.step.isWritable path = true := by
  obtain ⟨name, init, step⟩ := a
  cases withInit with
  | false =>
    rw [renderAccumulator]
    simpa [isWritable] using @isSome_bind_pure _ _ (render path step) _
  | true =>
    simp only [renderAccumulator, if_true]
    rw [isSome_bind fun _ => isSome_bind_pure, isSome_renderOption]
    simp [isWritable]

theorem isSome_renderAccumulators : (renderAccumulators path withInits accs).isSome = true ↔
      (withInits = true → ∀ x, some x ∈ accs.map (·.init) → x.isWritable path = true) ∧
        ∀ x ∈ accs.map (·.step), x.isWritable path = true := by
  induction accs with
  | nil => simp [renderAccumulators]
  | cons a accs ih =>
    rw [renderAccumulators, isSome_bind fun _ => isSome_bind_pure, ih, isSome_renderAccumulator]
    simp only [map_cons, mem_cons, or_imp, forall_and, eq_comm, forall_eq]
    tauto

theorem isSome_renderDef : (renderDef path withInits d).isSome = true ↔
      (withInits = true → ∀ x, some x ∈ d.inits → x.isWritable path = true) ∧
        ∀ x ∈ d.body, x.isWritable path = true := by
  obtain ⟨accumulators, elements, position, total, merge, whenEmpty, commutative⟩ := d
  rw [renderDef, isSome_bind fun _ => isSome_bind fun _ => isSome_bind_pure,
    isSome_renderAccumulators, isSome_renderOption, isSome_renderOption]
  simp only [FoldDef.inits, FoldDef.body, FoldDef.steps, mem_append, mem_toList, or_imp,
    forall_and]
  tauto

/-- A fold definition and its first values or the seeds in their place. -/
theorem isSome_renderStart :
    (renderDef path seeds.isEmpty d).isSome = true ∧ (renderSeeds path seeds).isSome = true ↔
      ∀ x ∈ present (d.start seeds) ++ d.body, x.isWritable path = true := by
  rw [isSome_renderDef, isSome_renderSeeds]
  simp only [FoldDef.start, mem_append, mem_present, or_imp, forall_and]
  cases seeds with
  | nil => simp
  | cons seed seeds => simp; tauto

/-- A formula can be written if it is no sub-section without a section and the parts of it that are
used can be written. -/
theorem isWritable_iff : e.isWritable path = true ↔
    e.isNameless = false ∧ ∀ p ∈ e.liveParts, p.isWritable path = true := by
  unfold isWritable
  cases e with
  | constant | cell | letVar => simp [render, isNameless, liveParts, parts]
  | operator | call | range | splice | count =>
    rw [render, isSome_bind_pure, isSome_renderAll]
    simp [isNameless, liveParts, parts, isWritable]
  | letIn name value body =>
    rw [render, isSome_bind fun _ => isSome_bind_pure, isSome_renderChild, isSome_renderChild]
    simp [isNameless, liveParts, parts, isWritable, or_imp, forall_and]
  | switch selector cases otherwise t =>
    rw [render, isSome_bind fun _ => isSome_bind fun _ => isSome_bind_pure, isSome_renderChild,
      isSome_renderCases, isSome_renderOption]
    simp only [isNameless, liveParts, parts, isWritable, or_imp, forall_and, mem_append,
      mem_present, mem_toList]
    tauto
  | switchCase c =>
    rw [render, isSome_renderCase]
    simp [isNameless, liveParts, parts, isWritable]
  | fold form d seeds folded elements t =>
    rw [render.eq_def]
    dsimp only
    rw [isSome_bind fun _ => isSome_bind fun _ => isSome_bind_pure, isSome_renderAll,
      ← and_assoc, isSome_renderStart]
    simp only [isNameless, liveParts, isWritable, or_imp, forall_and, mem_append, mem_present]
    tauto
  | reduce d seed folded elements t =>
    rw [render, isSome_bind fun _ => isSome_bind fun _ => isSome_bind_pure, isSome_renderDef,
      isSome_renderOption, isSome_renderAll]
    simp only [isNameless, liveParts, isWritable, or_imp, forall_and, mem_append, mem_present,
      mem_toList]
    tauto
  | foldArray d array t =>
    rw [render, isSome_bind fun _ => isSome_bind_pure, isSome_renderDef, isSome_renderChild]
    simp only [isNameless, liveParts, isWritable, or_imp, forall_and, mem_append, mem_present,
      mem_toList]
    tauto
  | foldVectors d seeds folded vectors t =>
    rw [render, isSome_bind fun _ => isSome_bind fun _ => isSome_bind_pure, isSome_renderAll,
      ← and_assoc, isSome_renderStart]
    simp only [isNameless, liveParts, isWritable, or_imp, forall_and, mem_append, mem_present]
    tauto
  | foldTable d seeds folded columns filter column table t =>
    rw [render, isSome_bind fun _ => isSome_bind fun _ => isSome_bind fun _ => isSome_bind_pure,
      isSome_renderOption, isSome_renderChild, ← and_assoc, isSome_renderStart]
    simp only [isNameless, liveParts, isWritable, or_imp, forall_and, mem_append, mem_present,
      mem_toList]
    tauto
  | parentSection s inner =>
    rw [render, isSome_bind_pure, isSome_renderChild]
    simp [isNameless, liveParts, parts, isWritable]
  | subSection s elements =>
    cases s with
    | none => simp [render, isNameless]
    | some name =>
      rw [render, isSome_bind_pure, isSome_renderAll]
      simp [isNameless, liveParts, parts, isWritable]

theorem isNameless_eq_false (h : e.isLaden = false) : e.isNameless = false := by
  cases e with
  | subSection => cases h
  | _ => rfl

theorem isNameless_eq_false_of_isFold (h : e.isFold = true) : e.isNameless = false := by
  cases e with
  | subSection => cases h
  | _ => rfl

theorem liveParts_of_withChildren {node : Expr} (hladen : node.isLaden = true)
    (h : node.withChildren es = .ok e) :
    e.isNameless = node.isNameless ∧ ∀ p ∈ e.liveParts, p ∈ node.liveParts ∨ some p ∈ es := by
  cases node with
  | fold | reduce | foldVectors =>
    cases h
    refine ⟨rfl, fun p hp => ?_⟩
    simp only [liveParts, mem_append, mem_present] at hp ⊢
    tauto
  | foldArray | foldTable =>
    obtain _ | ⟨x, _ | ⟨y, rest⟩⟩ := es
    · cases h
    · cases h
      refine ⟨rfl, fun p hp => ?_⟩
      simp only [liveParts, mem_append, mem_present, mem_toList,
        mem_singleton] at hp ⊢
      grind
    · cases h
  | subSection s elements =>
    cases h
    refine ⟨by cases s <;> rfl, fun p hp => .inr ?_⟩
    simpa [liveParts, parts] using hp
  | cell a =>
    rw [eq_of_withChildren_cell h]
    exact ⟨rfl, fun p hp => .inl hp⟩
  | _ => cases hladen

end Expr

theorem lasting_isWritable (path : String → String) (partialFolds : Bool) :
    Lasting partialFolds fun e => e.isWritable path = true where
  part _ he := (Expr.isWritable_iff.mp he).2
  plain _ he hparts := Expr.isWritable_iff.mpr ⟨Expr.isNameless_eq_false he, hparts⟩
  resumed _ _ _ _ he _ hparts := Expr.isWritable_iff.mpr
    ⟨Expr.isNameless_eq_false_of_isFold he, hparts⟩
  rebuilt node es e hladen hnode hes he := by
    rw [Expr.isWritable_iff] at hnode ⊢
    obtain ⟨hnameless, hlive⟩ := Expr.liveParts_of_withChildren hladen he
    refine ⟨hnameless.trans hnode.1, fun p hp => ?_⟩
    rcases hlive p hp with hp | hp
    · exact hnode.2 p hp
    · exact hes p hp

/-- **What can be written can still be written after a walk.** -/
theorem isWritable_of_gives {opt : Optimizer} {book : Workbook} {L U : Memo} {n : Nat}
    {origin : Option Address} {o : Outcome} {path : String → String}
    (h : Gives L U .empty (opt.walkDeep book n origin e) o) (he : e.isWritable path = true) :
    o.expr.isWritable path = true :=
  lasts_of_gives (lasting_isWritable path opt.partialFolds) e h Bindings.constant_empty he

end FormulaFold
