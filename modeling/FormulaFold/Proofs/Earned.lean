import FormulaFold.Proofs.WalkGives

/-! # Where remembered constants come from

A constant is remembered of a cell for one of two reasons: the cell has a literal value, or its
formula was walked and found to be known.  `Earned` says that a memory was built up in this way;
every walk keeps it (`frames_walkDeep`), whether it succeeds or not.  With this, what a walk gives
depends on what the walks of its parts and of the cells that it enters give (`gives_walkDeep`).
-/
namespace FormulaFold

open Walk Walk.Contract

variable {e : Expr} {E : Memo → Prop} {origin : Option Address} {Q : Outcome → Prop}

namespace Optimizer

/-- How cells are entered when at most `n` formulas may be entered inside each other. -/
def enter (opt : Optimizer) (book : Workbook) : Nat → Address → Expr → Action
  | 0 => fun _ _ => throw .tooDeep
  | n + 1 => fun a formula => opt.walkDeep book n (some a) formula

theorem walkDeep_eq (opt : Optimizer) (book : Workbook) (n : Nat) (origin : Option Address)
    (e : Expr) :
    opt.walkDeep book n origin e = e.walk (opt.site book origin) (opt.enter book n) := by
  cases n <;> rfl

end Optimizer

/-- The memories that walks under the given optimizers build up. -/
inductive Earned (O : Optimizer → Prop) (book : Workbook) : Memo → Prop
  | empty : Earned O book []
  | literal {opt : Optimizer} {a : Address} {m : Memo} (hopt : O opt)
      (hinput : (book.get a).input = false) (hformula : (book.get a).formula = none)
      (hnone : m.find? a = none) (hm : Earned O book m) :
      Earned O book (m.set a ⟨((opt.site book none).literalOf a).value,
        ((opt.site book none).literalOf a).type book.cellType⟩)
  | formula {opt : Optimizer} {a : Address} {f : Expr} {n : Nat} {s s' : WalkState} {v : Value}
      {t : DataType} {m : Memo} (hopt : O opt) (hformula : (book.get a).formula = some f)
      (hempty : s.bindings = .empty)
      (hwalk : opt.walkDeep book n (some a) f s = .ok (.known v t) s')
      (hwithin : s'.memo.Within m) (hnone : m.find? a = none) (hm : Earned O book m) :
      Earned O book (m.set a ⟨v, t⟩)
  | again {a : Address} {c : Constant} {m : Memo} (hsome : m.find? a = some c)
      (hm : Earned O book m) : Earned O book (m.set a c)

section

variable {O : Optimizer → Prop} {opt : Optimizer} {bound : Prop}

theorem earns_earned (hopt : O opt) (origin : Option Address) (n : Nat) :
    Earns (Earned O book) (opt.site book origin) (opt.enter book n) where
  literal _ _ hinput hformula hnone hm := .literal hopt hinput hformula hnone hm
  formula a f s s' v t _ hformula hempty henter hnone hm := by
    cases n with
    | zero => cases henter
    | succ n => exact .formula hopt hformula hempty henter (.refl _) hnone hm

/-- **The frame of a walk that enters cells.** -/
theorem frames_walkDeep (hopt : O opt)
    (hbook : bound → ∀ a f, (book.get a).formula = some f →
      f.isScoped false (fun _ => false) = true)
    (n : Nat) : ∀ (origin : Option Address) (e : Expr) (b : Bindings),
      (bound → e.isScoped false b.isBound = true) →
      Frames book (Earned O book) bound b (opt.walkDeep book n origin e) := by
  induction n with
  | zero =>
    intro origin e b he
    rw [opt.walkDeep_eq]
    exact frames_walk (earns_earned hopt origin 0) (fun a f _ => frames_throw rfl) e b he
  | succ n ih =>
    intro origin e b he
    rw [opt.walkDeep_eq]
    refine frames_walk (earns_earned hopt origin (n + 1)) (fun a f hf => ?_) e b he
    exact ih (some a) f .empty fun hb => hbook hb a f hf

/-- The frame of a walk of a formula whose names need not be bound. -/
theorem frames_walkDeep_open (hopt : O opt) (n : Nat) (origin : Option Address) (e : Expr)
    (b : Bindings) : Frames book (Earned O book) False b (opt.walkDeep book n origin e) :=
  frames_walkDeep hopt False.elim n origin e b False.elim

/-- The walk at the heart of folding a formula, with the check that no names are left bound. -/
def Optimizer.balanced (opt : Optimizer) (book : Workbook) (e : Expr) (origin : Option Address) :
    Action :=
  opt.walkDeep book book.cells.length origin e >>= fun o => get >>= fun s =>
    if s.bindings.depth ≠ 0 then throw (.leftover (book.shown e) s.bindings.depth) else pure o

theorem optimize_some (e : Expr) (origin : Option Address) :
    opt.optimize book (some e) origin =
      isolated (opt.balanced book e origin) >>= fun o =>
        (opt.site book origin).written e >>= fun text =>
          (opt.site book origin).written o.expr >>= fun result =>
            record (.optimized text o.isKnown result) >>= fun _ => pure o := rfl

theorem frames_balanced (hopt : O opt)
    (hbook : bound → ∀ a f, (book.get a).formula = some f →
      f.isScoped false (fun _ => false) = true)
    (e : Expr) (he : bound → e.isScoped false (fun _ => false) = true) (origin : Option Address) :
    Frames book (Earned O book) bound .empty (opt.balanced book e origin) := by
  refine (frames_walkDeep hopt hbook _ origin e .empty he).bind fun o => ?_
  refine frames_get_bind fun s hs => ?_
  rw [hs]
  exact .refl s

theorem frames_optimize (hopt : O opt)
    (hbook : bound → ∀ a f, (book.get a).formula = some f →
      f.isScoped false (fun _ => false) = true)
    (e : Option Expr) (he : bound → ∀ x, e = some x → x.isScoped false (fun _ => false) = true)
    (origin : Option Address) (b : Bindings) :
    Frames book (Earned O book) bound b (opt.optimize book e origin) := by
  cases e with
  | none => exact frames_throw rfl
  | some e =>
    rw [optimize_some]
    refine (frames_isolated (frames_balanced hopt hbook e (fun hb => he hb e rfl) origin)).bind
      fun o => ?_
    exact (frames_written _).bind fun _ => (frames_written _).bind fun _ =>
      (frames_record _).bind fun _ => frames_pure _

end

/-! ## What walks give -/

section Gives

variable {opt : Optimizer} {A : List Address → Prop}

/-- What entering a cell can give when at most `n` formulas may be entered inside each other. -/
def EnterGives (opt : Optimizer) (book : Workbook) (L U : Memo) :
    Nat → Address → Expr → Outcome → Prop
  | 0 => fun _ _ _ => False
  | n + 1 => fun a f o => Gives L U .empty (opt.walkDeep book n (some a) f) o

theorem frames_enter (n : Nat) (a : Address) (f : Expr) :
    Frames book (Earned (fun _ => True) book) False .empty (opt.enter book n a f) := by
  cases n with
  | zero => exact frames_throw rfl
  | succ n => exact frames_walkDeep_open trivial n (some a) f .empty

theorem enterGives_iff :
    EnterGives opt book L U n a f o ↔ Gives L U .empty (opt.enter book n a f) o := by
  cases n with
  | zero =>
    refine ⟨False.elim, ?_⟩
    rintro ⟨_, _, _, _, _, hok, _⟩
    cases hok
  | succ n => exact .rfl

/-- **What a walk gives depends on what its parts and the cells that it enters give.**  `P` is what
is known of the parts. -/
theorem gives_walkDeep {P : Bindings → Giving}
    (hP : ∀ b p o, p.Inside e → GivesAmid A L U b (opt.walkDeep book n origin p) o → P b p o)
    (h : GivesAmid A L U b (opt.walkDeep book n origin e) o) :
    NodeGives False (opt.site book origin)
      (CellGives (opt.site book origin) L U (EnterGives opt book L U n)) P b e o := by
  have hw (e : Expr) (b : Bindings) : Frames book (Earned (fun _ => True) book) False b
      (e.walk (opt.site book origin) (opt.enter book n)) := by
    rw [← opt.walkDeep_eq]
    exact frames_walkDeep_open (O := fun _ => True) trivial n origin e b
  rw [opt.walkDeep_eq] at h
  let J : Contract (opt.site book origin).book (Earned (fun _ => True) book) False :=
    giving book _ _ A L U
  refine (holds_walk (J := J) (R := P) (fun b' x hx => (holds_gives (hw x b')).imp fun o _ ho => ?_)
    (fun a _ => (holds_gives ?_).imp fun o _ ho => ?_) False.elim).of_gives trivial h
  · rw [← opt.walkDeep_eq] at ho
    exact hP b' x o hx.inside ho
  · exact frames_cellForm (earns_earned trivial origin n) fun f _ => frames_enter n a f
  · have hentered : EnterGives opt book L U n =
        fun a f o => Gives L U .empty (opt.enter book n a f) o := by
      funext a f o
      exact propext enterGives_iff
    rw [hentered]
    exact gives_cellForm (fun f _ => frames_enter n a f) ho

/-- What is owed of the walk at the heart of folding a formula is owed of it alone. -/
theorem holds_balanced {J : Contract book E False}
    (hwalk : J.Holds True .empty (opt.walkDeep book book.cells.length origin e) Q) :
    J.Holds True b (isolated (opt.balanced book e origin)) Q := by
  have hbalanced : J.Holds True .empty (opt.balanced book e origin) Q := by
    refine hwalk.bind fun o s hs => ?_
    have hpure : J.Holds (True ∧ Q o) .empty (pure o) Q := holds_pure And.right
    refine Holds.congr (hpure s hs) ?_
    simp only [bind_apply, get_apply, hs]
    rfl
  exact fun s _ => Holds.congr (hbalanced.within s) (isolated_apply _ s)

/-- What is owed of the walk of a formula is owed of folding it. -/
theorem holds_optimize {J : Contract book E False}
    (hwalk : J.Holds True .empty (opt.walkDeep book book.cells.length origin e) Q) :
    J.Holds True b (opt.optimize book (some e) origin) Q := by
  rw [optimize_some]
  exact (holds_balanced hwalk).bind fun r => (holds_written e).bind fun _ =>
    (holds_written r.expr).bind fun _ => (holds_record _).bind fun _ =>
      holds_pure fun h => h.1.1.1.2

/-- What the walk at the heart of folding a formula gives is what it gives alone. -/
theorem gives_balanced (h : GivesAmid A L U b (isolated (opt.balanced book e origin)) o) :
    GivesAmid A L U .empty (opt.walkDeep book book.cells.length origin e) o :=
  (holds_balanced (holds_gives (frames_walkDeep_open (O := fun _ => True) trivial _ origin e
    .empty))).of_gives trivial h

/-- What folding a formula gives is what its walk gives. -/
theorem gives_optimize (h : GivesAmid A L U b (opt.optimize book (some e) origin) o) :
    GivesAmid A L U .empty (opt.walkDeep book book.cells.length origin e) o :=
  (holds_optimize (holds_gives (frames_walkDeep_open (O := fun _ => True) trivial _ origin e
    .empty))).of_gives trivial h

end Gives

/-! ## Settings for the instances

The settings, cells and formulas that the instances of the results about folding share. -/
namespace Sample

/-- An engine that does not round, and to which no more functions are volatile. -/
def engine : Engine := ⟨0, [], ⟨0.0, 0.0⟩⟩

def optimizer (partialFolds : Bool) : Optimizer := ⟨engine, partialFolds⟩

/-- The cell in the given row of the only column. -/
def cellAt (row : Int) : Address := ⟨"", row, 1⟩

def input : Cell := ⟨cellAt 1, none, .null, none, true, .unknown⟩

def formulaAt (row : Int) (e : Expr) : Cell := ⟨cellAt row, none, .null, some e, false, .unknown⟩

def text (s : String) : Expr := .constant (.text s) .string

def number (x : Float) : Expr := .constant (.number x) .numeric

def truth (b : Bool) : Expr := .constant (.bool b) .numeric

def join (x y : Expr) : Expr := .operator .concat [some x, some y] .string

end Sample

end FormulaFold
