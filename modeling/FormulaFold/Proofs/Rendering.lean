import FormulaFold.Proofs.Numerals
import FormulaFold.Value

/-! # The text of a value

What a formula writes for a value can be read in one way only: numbers and truth values run up to
the next separator (`Atom.render_append_inj`), text up to the quote that is not escaped
(`Text.quoteChars_append_inj`), and an array up to its own brace (`gridTail_inj`), where the
semicolons show how long a row is.  Hence **two values with the same text are the same value**
(`render_inj`).
-/
namespace FormulaFold

open List

/-! ## Quoted text -/

namespace Text

theorem length_hex (width n : Nat) : (hex width n).length = width := by
  induction width generalizing n with
  | zero => rfl
  | succ width ih => simp [hex, ih]

theorem hex_inj {width n n' : Nat} (hn : n < 16 ^ width) (hn' : n' < 16 ^ width)
    (h : hex width n = hex width n') : n = n' := by
  induction width generalizing n n' with
  | zero => omega
  | succ width ih =>
    obtain ⟨hinit, hlast⟩ := append_inj h (by rw [length_hex, length_hex])
    have hdigit : ∀ a < 16, ∀ b < 16, Nat.digitChar a = Nat.digitChar b → a = b := by decide
    have := hdigit _ (n.mod_lt (by decide)) _ (n'.mod_lt (by decide)) (List.cons.inj hlast).1
    have := ih (by omega) (by omega) hinit
    omega

/-- How many hexadecimal digits follow a mark. -/
def markWidth (mark : Char) : Nat :=
  if mark = 'x' then 2 else if mark = 'u' then 4 else if mark = 'U' then 8 else 0

/-- The code point of a mark that stands alone. -/
def markCode (mark : Char) : Nat :=
  ([('a', 0x07), ('b', 0x08), ('t', 0x09), ('n', 0x0A), ('v', 0x0B), ('f', 0x0C),
    ('r', 0x0D)].lookup mark).getD mark.toNat

/-- A character stands for itself, or a mark after a backslash says which one it is. -/
theorem escape_cases (c : Char) : c ≠ '"' ∧ c ≠ '\\' ∧ escape c = [c] ∨
    ∃ mark, escape c = '\\' :: mark :: hex (markWidth mark) c.toNat ∧
      if markWidth mark = 0 then markCode mark = c.toNat else c.toNat < 16 ^ markWidth mark := by
  unfold escape
  split
  · subst c
    exact .inr ⟨'"', rfl, rfl⟩
  split
  · subst c
    exact .inr ⟨'\\', rfl, rfl⟩
  split
  · exact .inl ⟨‹_›, ‹_›, rfl⟩
  right
  split
  iterate 7
    rename_i h
    exact ⟨_, rfl, h.symm⟩
  split
  · exact ⟨'x', rfl, by change c.toNat < 256; omega⟩
  split
  · exact ⟨'u', rfl, ‹_›⟩
  · exact ⟨'U', rfl, c.val.toNat_lt⟩

theorem escape_append_inj {c c' : Char} {r r' : List Char}
    (h : escape c ++ r = escape c' ++ r') : c = c' ∧ r = r' := by
  obtain ⟨-, hc, heq⟩ | ⟨mark, heq, hmark⟩ := escape_cases c <;>
    obtain ⟨-, hc', heq'⟩ | ⟨mark', heq', hmark'⟩ := escape_cases c' <;> rw [heq, heq'] at h
  · simpa using h
  · exact absurd (List.cons.inj h).1 hc
  · exact absurd (List.cons.inj h).1.symm hc'
  · simp only [cons_append, List.cons.injEq, true_and] at h
    obtain ⟨rfl, h⟩ := h
    obtain ⟨hhex, hr⟩ := append_inj h (by rw [length_hex, length_hex])
    refine ⟨Char.toNat_inj.mp ?_, hr⟩
    split at hmark
    · rw [if_pos ‹_›] at hmark'
      exact hmark.symm.trans hmark'
    · rw [if_neg ‹_›] at hmark'
      exact hex_inj hmark hmark' hhex

theorem quoteChars_append_inj {cs cs' r r' : List Char}
    (h : quoteChars cs ++ r = quoteChars cs' ++ r') : cs = cs' ∧ r = r' := by
  have hquote (c : Char) (r : List Char) : ∃ d r', escape c ++ r = d :: r' ∧ d ≠ '"' := by
    obtain ⟨hc, -, heq⟩ | ⟨mark, heq, -⟩ := escape_cases c <;> rw [heq]
    · exact ⟨_, _, rfl, hc⟩
    · exact ⟨_, _, rfl, by decide⟩
  unfold quoteChars at h
  simp only [cons_append, append_assoc, nil_append, List.cons.injEq, true_and] at h
  induction cs generalizing cs' with
  | nil =>
    cases cs' with
    | nil => simpa using h
    | cons c' cs' =>
      obtain ⟨d, s, heq, hd⟩ := hquote c' (cs'.flatMap escape ++ '"' :: r')
      rw [flatMap_cons, append_assoc, heq] at h
      exact absurd (List.cons.inj h).1.symm hd
  | cons c cs ih =>
    cases cs' with
    | nil =>
      obtain ⟨d, s, heq, hd⟩ := hquote c (cs.flatMap escape ++ '"' :: r)
      rw [flatMap_cons, append_assoc, heq] at h
      exact absurd (List.cons.inj h).1 hd
    | cons c' cs' =>
      simp only [flatMap_cons, append_assoc] at h
      obtain ⟨rfl, htail⟩ := escape_append_inj h
      obtain ⟨rfl, hr⟩ := ih htail
      exact ⟨rfl, hr⟩

end Text

/-! ## Values -/

namespace Value

/-- Values that no other value is part of, and whose text has neither quotes nor braces. -/
inductive Atom : Value → Prop
  | null : Atom null
  | bool (b : Bool) : Atom (bool b)
  | number {x : Float} (h : x.isNaN = false) : Atom (number x)

/-- The values of formulas: each number is a number, and the shape of each array is that of its
values. -/
inductive Shaped : Value → Prop
  | atom {v : Value} (h : v.Atom) : Shaped v
  | text (s : String) : Shaped (text s)
  | array {rows cols : Int} {values : List Value} (hvalues : ∀ v ∈ values, Shaped v)
      (hshape : 1 ≤ rows ∧ 1 ≤ cols ∧ rows * cols = values.length ∨
        rows = 1 ∧ cols = 0 ∧ values = []) : Shaped (array rows cols values)

/-- The characters that end a value. -/
def stops : List Char := [',', ';', '\x7d']

/-- The characters that begin or end other values. -/
def marks : List Char := '\x7b' :: '"' :: stops

/-- What may follow a value. -/
def Ends (r : List Char) : Prop := ∀ c ∈ r.head?, c ∈ stops

variable {a b : Value} {r r' : List Char}

theorem Atom.not_mem_marks {c : Char} (h : a.Atom) (hc : c ∈ a.render.toList) : c ∉ marks := by
  have hword {w : List Char} (hw : w.all (!marks.contains ·) = true) (hc : c ∈ w) : c ∉ marks := by
    simpa using all_eq_true.mp hw c hc
  cases h with
  | null => exact hword (w := "NULL".toList) (by decide) hc
  | bool b =>
    cases b with
    | true => exact hword (w := "TRUE".toList) (by decide) hc
    | false => exact hword (w := "FALSE".toList) (by decide) hc
  | number h =>
    have hnone : marks.all (!Decimal.isNumeric ·) = true := by decide
    intro hmem
    simpa [Decimal.isNumeric_of_mem_text h hc] using all_eq_true.mp hnone c hmem

theorem Atom.render_ne_nil (h : a.Atom) : a.render.toList ≠ [] := by
  cases h with
  | null => decide
  | bool b => cases b <;> decide
  | number h => exact Decimal.text_ne_empty h

theorem Atom.eq_of_render_eq (ha : a.Atom) (hb : b.Atom) (h : a.render = b.render) : a = b := by
  have hword {x : Float} (hx : x.isNaN = false) {s : String} (hs : s ∈ ["NULL", "TRUE", "FALSE"]) :
      Decimal.formulaLayout.text x ≠ s := by
    have hother : ["NULL", "TRUE", "FALSE"].all (·.toList.any (!Decimal.isNumeric ·)) = true := by
      decide
    rintro rfl
    obtain ⟨c, hc, hnone⟩ := any_eq_true.mp (all_eq_true.mp hother _ hs)
    simp [Decimal.isNumeric_of_mem_text hx hc] at hnone
  have hbool (b : Bool) : (Value.bool b).render ∈ ["NULL", "TRUE", "FALSE"] := by cases b <;> decide
  cases ha with
  | null =>
    cases hb with
    | null => rfl
    | bool b => cases b <;> exact absurd h (by decide)
    | number hy => exact absurd h.symm (hword hy (by decide))
  | bool b =>
    cases hb with
    | null => cases b <;> exact absurd h (by decide)
    | bool b' => cases b <;> cases b' <;> first | rfl | exact absurd h (by decide)
    | number hy => exact absurd h.symm (hword hy (hbool b))
  | number hx =>
    cases hb with
    | null => exact absurd h (hword hx (by decide))
    | bool b => exact absurd h (hword hx (hbool b))
    | number hy => rw [Decimal.text_inj hx hy h]

theorem Atom.render_append_inj (ha : a.Atom) (hb : b.Atom) (hr : Ends r) (hr' : Ends r')
    (h : a.render.toList ++ r = b.render.toList ++ r') : a = b ∧ r = r' := by
  have hsplit {v : Value} {r : List Char} (hv : v.Atom) (hr : Ends r) :
      (v.render.toList ++ r).takeWhile (· ∉ stops) = v.render.toList := by
    have hnone : ∀ c ∈ v.render.toList, decide (c ∉ stops) = true := fun c hc =>
      decide_eq_true fun hmem => hv.not_mem_marks hc (.tail _ (.tail _ hmem))
    rw [takeWhile_append_of_pos hnone]
    cases r with
    | nil => simp
    | cons c r =>
      rw [takeWhile_cons_of_neg, append_nil]
      simpa using hr c rfl
  have htext : a.render.toList = b.render.toList := by
    rw [← hsplit ha hr, h, hsplit hb hr']
  rw [htext] at h
  exact ⟨ha.eq_of_render_eq hb (String.toList_inj.mp htext), append_cancel_left h⟩

/-- What separates the item of a grid at a position from the one before. -/
def separator (cols : Int) (i : Nat) : List Char :=
  if i = 0 then [] else if 0 < cols ∧ i % cols.toNat = 0 then [';', ' '] else [',', ' ']

theorem separator_append_inj {cols cols' : Int} {i : Nat}
    (h : separator cols i ++ r = separator cols' i ++ r') :
    separator cols i = separator cols' i ∧ r = r' := by
  have hlength (cols : Int) : (separator cols i).length = if i = 0 then 0 else 2 := by
    unfold separator
    split
    · rfl
    · split <;> rfl
  exact append_inj h (by rw [hlength, hlength])

/-- The items of a grid from a position on, up to its closing brace. -/
def gridTail (cols : Int) : (i : Nat) → List Value → List Char
  | _, [] => ['\x7d']
  | i, v :: vs => separator cols i ++ (v.render.toList ++ gridTail cols (i + 1) vs)

theorem toList_render_array (rows cols : Int) (values : List Value) :
    (array rows cols values).render.toList = '\x7b' :: gridTail cols 0 values := by
  have hcons (s : String) (l : List String) : "".intercalate (s :: l) = s ++ "".intercalate l := by
    cases l with
    | nil => simp
    | cons t l => simp [String.intercalate_cons_cons]
  have htail (i : Nat) : ("".intercalate ((renderAll values).zipIdx i |>.map fun item =>
      if item.2 = 0 then item.1
      else if 0 < cols ∧ item.2 % cols.toNat = 0 then "; " ++ item.1
      else ", " ++ item.1)).toList ++ ['\x7d'] = gridTail cols i values := by
    induction values generalizing i with
    | nil => simp [renderAll, gridTail]
    | cons v vs ih =>
      rw [renderAll, zipIdx_cons, map_cons, hcons, String.toList_append,
        append_assoc, ih, gridTail, separator]
      dsimp only
      split
      · rfl
      split <;> simp
  rw [render, gridText, ← htail]
  simp

theorem ends_gridTail {cols : Int} {i : Nat} (hi : i ≠ 0) (vs : List Value) :
    Ends (gridTail cols i vs ++ r) := by
  cases vs with
  | nil => simp [gridTail, Ends, stops]
  | cons v vs =>
    rw [gridTail, separator, if_neg hi]
    split <;> simp [Ends, stops]

/-- The first character of a value ends no value. -/
theorem Shaped.exists_cons (h : a.Shaped) :
    ∃ c cs, a.render.toList = c :: cs ∧ c ∉ stops := by
  cases h with
  | atom h =>
    obtain ⟨c, cs, heq⟩ := exists_cons_of_ne_nil h.render_ne_nil
    have := h.not_mem_marks (heq ▸ mem_cons_self)
    exact ⟨c, cs, heq, fun hmem => this (.tail _ (.tail _ hmem))⟩
  | text s =>
    exact ⟨'"', _, by rw [render, Text.quote, String.toList_ofList, Text.quoteChars], by decide⟩
  | array => exact ⟨_, _, toList_render_array .., by decide⟩

/-- No item begins where a grid ends. -/
theorem gridTail_ne {cols : Int} {i : Nat} {v : Value} (h : v.Shaped) (vs : List Value) :
    gridTail cols i (v :: vs) ++ r ≠ '\x7d' :: r' := by
  obtain ⟨c, cs, heq, hc⟩ := h.exists_cons
  rw [gridTail, separator, heq]
  intro h
  split at h
  · exact hc (by rw [(List.cons.inj h).1]; decide)
  · split at h <;> cases h

theorem gridTail_inj {cols cols' : Int} {i : Nat} {vs vs' : List Value}
    (hread : ∀ v ∈ vs, v.Shaped ∧ ∀ {w : Value} {r r' : List Char}, w.Shaped → Ends r → Ends r' →
      v.render.toList ++ r = w.render.toList ++ r' → v = w ∧ r = r')
    (hvs' : ∀ v ∈ vs', v.Shaped) (h : gridTail cols i vs ++ r = gridTail cols' i vs' ++ r') :
    vs = vs' ∧ r = r' ∧
      ∀ j, i ≤ j → j < i + vs.length → separator cols j = separator cols' j := by
  induction vs generalizing i vs' with
  | nil =>
    cases vs' with
    | nil => exact ⟨rfl, (List.cons.inj h).2, fun j hij hj => absurd hj (by simpa using hij)⟩
    | cons v' vs' => exact absurd h.symm (gridTail_ne (hvs' v' mem_cons_self) vs')
  | cons v vs ih =>
    cases vs' with
    | nil => exact absurd h (gridTail_ne (hread v mem_cons_self).1 vs)
    | cons v' vs' =>
      simp only [gridTail, append_assoc] at h
      obtain ⟨hseparator, h⟩ := separator_append_inj h
      obtain ⟨rfl, htail⟩ := (hread v mem_cons_self).2 (hvs' v' mem_cons_self)
        (ends_gridTail i.succ_ne_zero vs) (ends_gridTail i.succ_ne_zero vs') h
      obtain ⟨rfl, hr, hrest⟩ := ih (fun w hw => hread w (mem_cons_of_mem _ hw))
        (fun w hw => hvs' w (mem_cons_of_mem _ hw)) htail
      refine ⟨rfl, hr, fun j hij hj => ?_⟩
      obtain rfl | hlt := hij.eq_or_lt
      · exact hseparator
      · exact hrest j hlt (by rw [length_cons] at hj; omega)

/-- The semicolons show how long a row is. -/
theorem cols_le_of_separator {rows cols cols' : Int} {n : Nat} (hcols : 1 ≤ cols)
    (hcols' : 1 ≤ cols') (hrows : 1 ≤ rows) (hshape : rows * cols = n)
    (h : ∀ j < n, separator cols j = separator cols' j) : cols ≤ cols' := by
  by_contra hlt
  have hle : cols ≤ n := by nlinarith
  have hsep := h cols'.toNat (by omega)
  have hmod : cols'.toNat % cols.toNat = cols'.toNat := Nat.mod_eq_of_lt (by omega)
  rw [separator, separator, if_neg (by omega), if_neg (by rw [hmod]; omega), if_neg (by omega),
    if_pos ⟨by omega, Nat.mod_self _⟩] at hsep
  cases hsep

theorem Shaped.render_append_inj (ha : a.Shaped) (hb : b.Shaped) (hr : Ends r) (hr' : Ends r')
    (h : a.render.toList ++ r = b.render.toList ++ r') : a = b ∧ r = r' := by
  have hquote (s : String) : (Value.text s).render.toList = Text.quoteChars s.toList := by
    rw [render, Text.quote, String.toList_ofList]
  -- the first character tells atoms, text and arrays apart
  have hatom {v : Value} {c : Char} {cs r : List Char} (hv : v.Atom) (hc : c ∈ ['\x7b', '"']) :
      v.render.toList ++ r ≠ c :: cs := by
    obtain ⟨d, ds, heq⟩ := exists_cons_of_ne_nil hv.render_ne_nil
    intro h
    rw [heq] at h
    obtain rfl := (List.cons.inj h).1
    exact hv.not_mem_marks (heq ▸ mem_cons_self) (mem_append_left stops hc)
  induction ha generalizing b r r' with
  | atom ha =>
    cases hb with
    | atom hb => exact ha.render_append_inj hb hr hr' h
    | text s =>
      rw [hquote] at h
      exact absurd h (hatom ha (by decide))
    | array =>
      rw [toList_render_array] at h
      exact absurd h (hatom ha (by decide))
  | text s =>
    rw [hquote] at h
    cases hb with
    | atom hb => exact absurd h.symm (hatom hb (by decide))
    | text s' =>
      rw [hquote] at h
      obtain ⟨hs, hr⟩ := Text.quoteChars_append_inj h
      rw [String.toList_inj.mp hs]
      exact ⟨rfl, hr⟩
    | array =>
      rw [toList_render_array] at h
      cases h
  | @array rows cols values hvalues hshape ih =>
    rw [toList_render_array] at h
    cases hb with
    | atom hb => exact absurd h.symm (hatom hb (by decide))
    | text s =>
      rw [hquote] at h
      cases h
    | @array rows' cols' values' hvalues' hshape' =>
      rw [toList_render_array] at h
      obtain ⟨rfl, hr, hsep⟩ := gridTail_inj (fun v hv => ⟨hvalues v hv, ih v hv⟩) hvalues'
        (List.cons.inj h).2
      have hsep (j : Nat) (hj : j < values.length) := hsep j j.zero_le (by omega)
      have hempty {rows cols : Int} (hrows : 1 ≤ rows) (hcols : 1 ≤ cols)
          (h : rows * cols = ([] : List Value).length) : False := by
        have := mul_pos (by omega : 0 < rows) (by omega : 0 < cols)
        simp at h
        omega
      refine ⟨?_, hr⟩
      obtain ⟨hrows, hcols, hshape⟩ | ⟨rfl, rfl, rfl⟩ := hshape <;>
        obtain ⟨hrows', hcols', hshape'⟩ | ⟨rfl, rfl, hnil⟩ := hshape'
      · obtain rfl := le_antisymm (cols_le_of_separator hcols hcols' hrows hshape hsep)
          (cols_le_of_separator hcols' hcols hrows' hshape' fun j hj => (hsep j hj).symm)
        rw [mul_right_cancel₀ (by omega) (hshape.trans hshape'.symm)]
      · exact (hempty hrows hcols (hnil ▸ hshape)).elim
      · exact (hempty hrows' hcols' hshape').elim
      · rfl

/-- Values with the same text are the same. -/
theorem render_inj (ha : a.Shaped) (hb : b.Shaped) (h : a.render = b.render) : a = b :=
  (ha.render_append_inj hb (by simp [Ends]) (by simp [Ends])
    (congrArg (·.toList ++ []) h)).1

/-- A list with a text that looks like the separator, and with lists inside of it, is shaped. -/
theorem render_inj_data :
    (ofDatum (.list [.text "1; \"2", .number 0, .list [.list [], .null]])).Shaped ∧
      ofDatum (.list [.text "1; \"2", .number 0, .list [.list [], .null]]) =
        array 1 3 [text "1; \"2", number 0, array 1 2 [array 1 0 [], null]] := by
  have hshaped : (array 1 3 [text "1; \"2", number 0, array 1 2 [array 1 0 [], null]]).Shaped := by
    have hinner : (array 1 2 [array 1 0 [], null]).Shaped :=
      .array (by simpa using ⟨.array (by simp) (by simp), .atom .null⟩) (by simp)
    exact .array (by simpa using ⟨.text _, .atom (.number rfl), hinner⟩) (by simp)
  exact ⟨hshaped, render_inj hshaped hshaped rfl⟩

end Value

end FormulaFold
