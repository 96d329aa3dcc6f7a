import FormulaFold.Proofs.Parts
import Mathlib.Data.Finset.Card
import Mathlib.Data.Finset.Dedup

/-! # References between cells

A formula mentions the cells that it refers to anywhere: in its children, in the definitions of
its folds and in their filters.  A cell refers to the cells that its formula mentions.  On a
workbook without cycles, every cell gets a rank that is above those of the formulas it leads to
(`rank_lt`) and below the number of cells (`rank_lt_length`).
-/
namespace FormulaFold

variable {a c : Address} {t : DataType} {e : Expr}

/-- Whether a formula occurs in another one, at any depth. -/
def Expr.OccursIn (x e : Expr) : Prop := Relation.ReflTransGen (fun p e => p ∈ e.parts) x e

theorem Expr.occursIn_iff {x : Expr} : x.OccursIn e ↔ e = x ∨ ∃ p ∈ e.parts, x.OccursIn p := by
  unfold OccursIn
  rw [Relation.ReflTransGen.cases_tail_iff]
  simp only [and_comm]

theorem Expr.forall_occursIn {P : Expr → Prop} (he : P e)
    (hparts : ∀ p ∈ e.parts, ∀ x : Expr, x.OccursIn p → P x) : ∀ x : Expr, x.OccursIn e → P x := by
  intro x hx
  obtain rfl | ⟨p, hp, hx⟩ := occursIn_iff.mp hx
  · exact he
  · exact hparts p hp x hx

/-- Whether a formula refers to a cell, at any depth. -/
def Expr.Mentions (e : Expr) (a : Address) : Prop := (Expr.cell a).OccursIn e

theorem Expr.mentions_cell (a : Address) : (Expr.cell a).Mentions a := .refl

theorem Expr.mentions_iff :
    e.Mentions a ↔ e = .cell a ∨ ∃ p ∈ e.parts, p.Mentions a := Expr.occursIn_iff

/-- The cells that a formula other than a reference mentions are those of its parts. -/
theorem Expr.mentions_iff_of_ne (h : ∀ c, e ≠ .cell c) :
    e.Mentions a ↔ ∃ p ∈ e.parts, p.Mentions a :=
  Expr.mentions_iff.trans (or_iff_right (h a))

@[simp] theorem Expr.mentions_cell_iff : (Expr.cell c).Mentions a ↔ c = a := by
  rw [Expr.mentions_iff]
  simp [parts]

@[simp] theorem Expr.not_mentions_constant {v : Value} : ¬(Expr.constant v t).Mentions a := by
  rw [Expr.mentions_iff]
  simp [parts]

@[simp] theorem Expr.not_mentions_letVar {x : String} : ¬(Expr.letVar x t).Mentions a := by
  rw [Expr.mentions_iff]
  simp [parts]

theorem Expr.Inside.mentions {p : Expr} (hp : p.Inside e) (h : p.Mentions a) :
    e.Mentions a := h.trans hp.to_reflTransGen

namespace Workbook

variable (book : Workbook)

/-- Whether the formula of a cell mentions another one. -/
def RefersTo (a c : Address) : Prop := ∃ f, (book.get a).formula = some f ∧ f.Mentions c

/-- Whether no cell leads back to itself by references. -/
def Acyclic : Prop := ∀ a, ¬Relation.TransGen book.RefersTo a a

/-- A workbook has no cycles if every cell can be given a number above those of the cells it refers
to. -/
theorem acyclic_of_lt (number : Address → Nat)
    (h : ∀ a c, book.RefersTo a c → number c < number a) : book.Acyclic := by
  have htrans {a c : Address} (hac : Relation.TransGen book.RefersTo a c) :
      number c < number a := by
    induction hac with
    | single hac => exact h _ _ hac
    | tail _ hcd ih => exact Nat.lt_trans (h _ _ hcd) ih
  exact fun a ha => Nat.lt_irrefl _ (htrans ha)

open Classical in
/-- The number of cells that a cell leads to. -/
noncomputable def rank (a : Address) : Nat :=
  ((book.cells.map (·.address)).toFinset.filter (Relation.TransGen book.RefersTo a)).card

variable {book}

theorem exists_cell_of_formula (h : (book.get a).formula = some f) :
    ∃ cell ∈ book.cells, cell.address = a ∧ cell.formula = some f := by
  unfold get at h
  cases hfind : book.find? a with
  | none =>
    rw [hfind] at h
    cases h
  | some cell =>
    rw [hfind] at h
    exact ⟨cell, List.mem_of_find?_eq_some hfind, by simpa using List.find?_some hfind, h⟩

theorem mem_of_formula (h : (book.get a).formula = some f) : a ∈ book.cells.map (·.address) := by
  obtain ⟨cell, hcell, haddress, -⟩ := exists_cell_of_formula h
  exact mem_map.mpr ⟨cell, hcell, haddress⟩

/-- A cell ranks above the formulas it refers to. -/
theorem rank_lt (hacyclic : book.Acyclic) (href : book.RefersTo a c)
    (hc : (book.get c).formula = some f) : book.rank c < book.rank a := by
  classical
  refine Finset.card_lt_card (Finset.ssubset_iff_of_subset ?_ |>.mpr ⟨c, ?_, ?_⟩)
  · intro x hx
    rw [Finset.mem_filter] at hx ⊢
    exact ⟨hx.1, .head href hx.2⟩
  · rw [Finset.mem_filter, List.mem_toFinset]
    exact ⟨mem_of_formula hc, .single href⟩
  · rw [Finset.mem_filter]
    exact fun h => hacyclic c h.2

theorem rank_lt_length (hacyclic : book.Acyclic) (ha : (book.get a).formula = some f) :
    book.rank a < book.cells.length := by
  classical
  have hmem : a ∈ (book.cells.map (·.address)).toFinset :=
    List.mem_toFinset.mpr (mem_of_formula ha)
  calc book.rank a
      < (book.cells.map (·.address)).toFinset.card := by
        refine Finset.card_lt_card (Finset.ssubset_iff_of_subset (Finset.filter_subset _ _) |>.mpr
          ⟨a, hmem, fun h => ?_⟩)
        exact hacyclic a (Finset.mem_filter.mp h).2
    _ ≤ (book.cells.map (·.address)).length := List.toFinset_card_le _
    _ = book.cells.length := length_map _

/-- Whether references lead from a formula to a cell. -/
def Reaches (book : Workbook) (e : Expr) (a : Address) : Prop :=
  ∃ c, e.Mentions c ∧ Relation.ReflTransGen book.RefersTo c a

/-- Whether something holds of all nodes of a formula and of the formulas that it reaches. -/
structure Throughout (book : Workbook) (P : Expr → Prop) (e : Expr) : Prop where
  nodes : ∀ x : Expr, x.OccursIn e → P x
  formulas : ∀ a f, book.Reaches e a → (book.get a).formula = some f →
    ∀ x : Expr, x.OccursIn f → P x

/-- The formula of a cell that a formula mentions. -/
theorem Throughout.of_mentions {P : Expr → Prop} (h : book.Throughout P e) (ha : e.Mentions a)
    (hf : (book.get a).formula = some f) : book.Throughout P f where
  nodes := h.formulas a f ⟨a, ha, .refl⟩ hf
  formulas c g := by
    rintro ⟨d, hd, hdc⟩
    exact h.formulas c g ⟨a, ha, .head ⟨f, hf, hd⟩ hdc⟩

/-- Whether there is no fold in a formula and in the formulas that it leads to. -/
abbrev Foldless (book : Workbook) (e : Expr) : Prop :=
  book.Throughout (fun x => x.isFold = false) e

end Workbook

end FormulaFold
