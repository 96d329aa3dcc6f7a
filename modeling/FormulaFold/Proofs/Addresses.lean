import FormulaFold.Address
import Mathlib.Data.List.TakeWhile

/-! # References that are read back

A column is written in letters without a zero, so a letter adds at least one and no two columns are
written alike.  **A locator is read back from the bytes that it is written as** (`parse_render`),
whatever bytes name its sheet.  Bytes that read as a locator may be written otherwise: with small
letters or letters above ASCII, with a sign or zeros before the row.  **Written by the rule, they
read as the same locator**, unless the column is too large for a word.

The text of a reference is read and written by its bytes (`parse_text_iff`, `bytesOf_render`): no
byte of a character above ASCII is an exclamation mark.
-/
namespace FormulaFold.Locator

open List

/-- The column reached by reading one more letter, without regard to the size of words. -/
def addLetter (col : Int) (b : Nat) : Int :=
  col * 26 + ((Text.upperChar (Char.ofNat b)).toNat - 'A'.toNat : Int) + 1

/-- The column that a reference names, without regard to the size of words. -/
def columnOf (ref : List UInt8) : Int :=
  (((splitSheet ref).2.map UInt8.toNat).takeWhile isLetterByte).foldl addLetter 0

/-- A locator that can be written: counted from 1, by words, on a sheet without an exclamation mark
in its name. -/
structure Proper (l : Locator) : Prop where
  row : 1 ≤ l.row ∧ fitsWord l.row = true
  col : 1 ≤ l.col ∧ fitsWord l.col = true
  sheet : 0x21 ∉ l.sheet

variable {b : Nat} {col row : Int} {bs letters : List Nat} {cs : List Char} {s : String}

/-! ## Bytes -/

theorem bytesOf_ofList (cs : List Char) :
    bytesOf (String.ofList cs) = cs.flatMap String.utf8EncodeChar := by
  have hloop (bs : ByteArray) (i : Nat) (r : List UInt8) :
      ByteArray.toList.loop bs i r = r.reverse ++ bs.data.toList.drop i := by
    induction i, r using ByteArray.toList.loop.induct bs with
    | case1 i r hi ih =>
      have hi' : i < bs.data.toList.length := hi
      rw [ByteArray.toList.loop, if_pos hi, ih, drop_eq_getElem_cons hi', reverse_cons,
        append_assoc]
      congr 1
      exact congrArg (· :: _) (getElem!_pos bs.data i hi)
    | case2 i r hi =>
      have hi' : bs.data.toList.length ≤ i := Nat.le_of_not_lt hi
      rw [ByteArray.toList.loop, if_neg hi, drop_eq_nil_of_le hi', append_nil]
  rw [bytesOf, ByteArray.toList, hloop, String.toUTF8, String.toByteArray_ofList]
  simp [List.utf8Encode]

theorem bytesOf_empty : bytesOf "" = [] := bytesOf_ofList []

theorem bytesOf_bang : bytesOf "!" = [0x21] := bytesOf_ofList ['!']

theorem bytesOf_append (s t : String) : bytesOf (s ++ t) = bytesOf s ++ bytesOf t := by
  rw [← String.ofList_toList (s := s), ← String.ofList_toList (s := t), ← String.ofList_append]
  simp only [bytesOf_ofList, flatMap_append]

theorem textOf_bytesOf (s : String) : textOf (bytesOf s) = s := by
  rw [← String.ofList_toList (s := s), bytesOf_ofList]
  unfold textOf String.fromUTF8?
  have hvalid := ByteArray.isValidUTF8_utf8Encode (l := s.toList)
  rw [List.utf8Encode] at hvalid
  rw [dif_pos hvalid]
  rfl

theorem bytesOf_inj {t : String} : bytesOf s = bytesOf t ↔ s = t := by
  refine ⟨fun h => ?_, fun h => h ▸ rfl⟩
  rw [← textOf_bytesOf s, h, textOf_bytesOf]

/-- The bytes of a character above ASCII are above ASCII too. -/
theorem utf8EncodeChar_cases (c : Char) :
    c.toNat < 128 ∧ String.utf8EncodeChar c = [UInt8.ofNat c.toNat] ∨
      128 ≤ c.toNat ∧ ∀ b ∈ String.utf8EncodeChar c, 128 ≤ b.toNat := by
  have hc : c.val.toNat = c.toNat := rfl
  unfold String.utf8EncodeChar
  dsimp only
  rw [hc]
  by_cases h : c.toNat ≤ 127
  · exact .inl ⟨by omega, if_pos h⟩
  · refine .inr ⟨by omega, ?_⟩
    rw [if_neg h]
    split
    · simp only [mem_cons, not_mem_nil, or_false, forall_eq_or_imp, forall_eq,
        UInt8.toNat_ofNat']
      omega
    · split
      all_goals
        simp only [mem_cons, not_mem_nil, or_false, forall_eq_or_imp, forall_eq,
          UInt8.toNat_ofNat']
        omega

theorem bang_of_bytesOf (h : 0x21 ∈ bytesOf (String.ofList cs)) : '!' ∈ cs := by
  rw [bytesOf_ofList] at h
  obtain ⟨c, hc, hbang⟩ := mem_flatMap.mp h
  obtain ⟨hsmall, hbytes⟩ | ⟨-, hlarge⟩ := utf8EncodeChar_cases c
  · rw [hbytes, mem_singleton] at hbang
    have hbyte := congrArg UInt8.toNat hbang
    rw [UInt8.toNat_ofNat', Nat.mod_eq_of_lt (by omega)] at hbyte
    obtain rfl : c = '!' := Char.toNat_inj.mp hbyte.symm
    exact hc
  · exact absurd (hlarge _ hbang) (by decide)

theorem bytes_ofList (h : ∀ c ∈ cs, c.toNat < 128) :
    (bytesOf (String.ofList cs)).map UInt8.toNat = cs.map Char.toNat := by
  rw [bytesOf_ofList]
  induction cs with
  | nil => rfl
  | cons c cs ih =>
    have hc := forall_mem_cons.mp h
    obtain ⟨-, hbytes⟩ | ⟨hlarge, -⟩ := utf8EncodeChar_cases c
    · have hbyte : (UInt8.ofNat c.toNat).toNat = c.toNat := by
        rw [UInt8.toNat_ofNat']
        exact Nat.mod_eq_of_lt (by omega)
      rw [flatMap_cons, map_append, ih hc.2, hbytes, map_singleton, hbyte]
      rfl
    · exact absurd hc.1 (Nat.not_lt.mpr hlarge)

/-! ## Columns -/

theorem le_upper (h : isLetterByte b = true) :
    'A'.toNat ≤ (Text.upperChar (Char.ofNat b)).toNat := by
  have hbyte : b < 256 := by
    unfold isLetterByte at h
    simp only [Bool.or_eq_true, Bool.and_eq_true, decide_eq_true_eq, beq_iff_eq] at h
    omega
  have hall : ∀ b < 256, isLetterByte b = true →
      'A'.toNat ≤ (Text.upperChar (Char.ofNat b)).toNat := by decide +kernel
  exact hall b hbyte h

theorem addLetter_lt (h : isLetterByte b = true) (hcol : 0 ≤ col) : col < addLetter col b := by
  have := le_upper h
  unfold addLetter
  omega

theorem le_foldl_addLetter (h : ∀ b ∈ letters, isLetterByte b = true)
    (hcol : 0 ≤ col) : col + letters.length ≤ letters.foldl addLetter col := by
  induction letters generalizing col with
  | nil => simp
  | cons b letters ih =>
    have hb := forall_mem_cons.mp h
    have hlt := addLetter_lt hb.1 hcol
    have := ih hb.2 (Int.le_of_lt (Int.lt_of_le_of_lt hcol hlt))
    simp only [foldl_cons, length_cons]
    omega

/-- Each letter makes the column larger, so a column within words was so all along. -/
theorem foldl_pushLetter (h : ∀ b ∈ letters, isLetterByte b = true)
    (hcol : 0 ≤ col) (hfits : fitsWord (letters.foldl addLetter col) = true) :
    letters.foldl pushLetter col = letters.foldl addLetter col := by
  induction letters generalizing col with
  | nil => rfl
  | cons b letters ih =>
    have hb := forall_mem_cons.mp h
    have hlt := addLetter_lt hb.1 hcol
    have hle := le_foldl_addLetter hb.2 (Int.le_of_lt (Int.lt_of_le_of_lt hcol hlt))
    have hwrap : pushLetter col b = addLetter col b := by
      have hbound : letters.foldl addLetter (addLetter col b) < 0x8000000000000000 :=
        of_decide_eq_true (Bool.and_eq_true_iff.mp hfits).2
      change wrap (addLetter col b) = _
      generalize addLetter col b = next at *
      exact Int.bmod_eq_of_le (by omega) (by omega)
    rw [foldl_cons, foldl_cons, hwrap]
    exact ih hb.2 (by omega) hfits

theorem isLetterByte_of_capital (h : 0x41 ≤ b ∧ b ≤ 0x5A) : isLetterByte b = true := by
  simp [isLetterByte, h]

theorem columnLetters_range (n : Nat) : ∀ c ∈ columnLetters n, 0x41 ≤ c.toNat ∧ c.toNat ≤ 0x5A := by
  induction n using columnLetters.induct with
  | case1 => simp [columnLetters]
  | case2 n hn ih =>
    rw [columnLetters, if_neg hn]
    refine forall_mem_append.mpr ⟨ih, forall_mem_singleton.mpr ?_⟩
    have hlt := Nat.mod_lt (n - 1) (by decide : 26 > 0)
    generalize (n - 1) % 26 = k at hlt
    revert k
    decide

theorem foldl_columnLetters (n : Nat) :
    ((columnLetters n).map Char.toNat).foldl addLetter 0 = n := by
  induction n using columnLetters.induct with
  | case1 => simp [columnLetters]
  | case2 n hn ih =>
    have hletter :
        ∀ k < 26, (Text.upperChar (Char.ofNat (Char.ofNat ('A'.toNat + k)).toNat)).toNat =
        'A'.toNat + k := by decide +kernel
    have hlast := hletter ((n - 1) % 26) (Nat.mod_lt _ (by decide))
    rw [columnLetters, if_neg hn, map_append, foldl_append, ih]
    simp only [map_cons, map_nil, foldl_cons, foldl_nil, addLetter, hlast]
    omega

/-! ## Rows -/

theorem readDigits?_map {ds : List Char} (h : ∀ c ∈ ds, c.isDigit = true) (value : Nat) :
    readDigits? value (ds.map Char.toNat) = some (Nat.ofDigitChars 10 ds value) := by
  induction ds generalizing value with
  | nil => rfl
  | cons c ds ih =>
    have hc := forall_mem_cons.mp h
    have hdigit : 0x30 ≤ c.toNat ∧ c.toNat ≤ 0x39 := Char.isDigit_iff_toNat.mp hc.1
    rw [map_cons, readDigits?, if_pos hdigit, ih hc.2, Nat.ofDigitChars_cons, Nat.mul_comm]
    rfl

theorem readRow?_toDigits {n : Nat} (hn : 1 ≤ n) (hfits : fitsWord n = true) :
    readRow? ((Nat.toDigits 10 n).map Char.toNat) = some (n : Int) := by
  have hdigits (c : Char) (hc : c ∈ Nat.toDigits 10 n) : c.isDigit = true :=
    Nat.isDigit_of_mem_toDigits (by decide) (by decide) hc
  have hread := readDigits?_map hdigits 0
  rw [Nat.ofDigitChars_ten_toDigits] at hread
  cases hds : Nat.toDigits 10 n with
  | nil => exact absurd hds Nat.toDigits_ne_nil
  | cons c ds =>
    rw [hds] at hread hdigits
    have hc : 0x30 ≤ c.toNat ∧ c.toNat ≤ 0x39 :=
      Char.isDigit_iff_toNat.mp (hdigits c mem_cons_self)
    have hsign : readRow? ((c :: ds).map Char.toNat) =
        (readDigits? 0 ((c :: ds).map Char.toNat)).bind fun n =>
          if ¬false ∧ 1 ≤ n ∧ fitsWord n then some (n : Int) else none := by
      rw [map_cons]
      generalize c.toNat = b at hc
      unfold readRow?
      split
      rename_i heq
      split at heq <;> rename_i hb
      · cases hb
        omega
      · cases hb
        omega
      · cases heq
        rfl
    rw [hsign, hread]
    simp [hn, hfits]

theorem range_of_readRow? (h : readRow? bs = some row) : 1 ≤ row ∧ fitsWord row = true := by
  unfold readRow? at h
  split at h
  split at h
  · cases h
  · obtain ⟨n, _, hn⟩ := Option.bind_eq_some_iff.mp h
    split at hn
    · cases hn
      exact ⟨by omega, by simp_all⟩
    · cases hn

/-! ## Sheets -/

theorem ne_bang {bs : List UInt8} (h : 0x21 ∉ bs) : ∀ b ∈ bs, decide (b ≠ 0x21) = true := by
  intro b hb
  refine decide_eq_true ?_
  rintro rfl
  exact h hb

theorem splitSheet_ref {ref : List UInt8} (h : 0x21 ∉ ref) : splitSheet ref = ([], ref) := by
  unfold splitSheet
  rw [dropWhile_eq_nil_iff.mpr (ne_bang h)]

theorem splitSheet_sheet {sheet : List UInt8} (h : 0x21 ∉ sheet) (ref : List UInt8) :
    splitSheet (sheet ++ 0x21 :: ref) = (sheet, ref) := by
  unfold splitSheet
  rw [dropWhile_append_of_pos (ne_bang h), takeWhile_append_of_pos (ne_bang h)]
  simp

theorem bang_of_splitSheet (ref : List UInt8) : 0x21 ∉ (splitSheet ref).1 := by
  unfold splitSheet
  split
  · simp
  · exact fun h => by simpa using mem_takeWhile_imp h

/-! ## Locators -/

/-- What is read of a column and a row. -/
theorem parse_eq {letters digits : List Char} (hletters : letters ≠ [])
    (hcapital : ∀ c ∈ letters, 0x41 ≤ c.toNat ∧ c.toNat ≤ 0x5A)
    (hdigits : ∀ c ∈ digits, c.isDigit = true) {ref sheet : List UInt8}
    (href : splitSheet ref = (sheet, bytesOf (String.ofList (letters ++ digits))))
    (hrow : readRow? (digits.map Char.toNat) = some row) :
    parse ref = .ok ⟨sheet, row, (letters.map Char.toNat).foldl pushLetter 0⟩ := by
  have hascii : ∀ c ∈ letters ++ digits, c.toNat < 128 := by
    refine forall_mem_append.mpr ⟨fun c hc => ?_, fun c hc => ?_⟩
    · have := hcapital c hc
      omega
    · have : 0x30 ≤ c.toNat ∧ c.toNat ≤ 0x39 := Char.isDigit_iff_toNat.mp (hdigits c hc)
      omega
  have hfront : ∀ b ∈ letters.map Char.toNat, isLetterByte b = true :=
    forall_mem_map.mpr fun c hc => isLetterByte_of_capital (hcapital c hc)
  have hback : (digits.map Char.toNat).takeWhile isLetterByte = [] ∧
      (digits.map Char.toNat).dropWhile isLetterByte = digits.map Char.toNat := by
    cases digits with
    | nil => exact ⟨rfl, rfl⟩
    | cons c ds =>
      have hc : 0x30 ≤ c.toNat ∧ c.toNat ≤ 0x39 :=
        Char.isDigit_iff_toNat.mp (hdigits c mem_cons_self)
      have hnot : ¬isLetterByte c.toNat = true := by
        unfold isLetterByte
        simp only [Bool.or_eq_true, Bool.and_eq_true, decide_eq_true_eq, beq_iff_eq]
        omega
      exact ⟨takeWhile_cons_of_neg hnot, dropWhile_cons_of_neg hnot⟩
  have hbytes := bytes_ofList hascii
  rw [map_append] at hbytes
  unfold parse
  simp only [href, hbytes, takeWhile_append_of_pos hfront, dropWhile_append_of_pos hfront,
    hback.1, hback.2, append_nil, hrow]
  cases letters with
  | nil => exact absurd rfl hletters
  | cons => rfl

theorem columnLetters_ne_nil {n : Nat} (hn : n ≠ 0) : columnLetters n ≠ [] := by
  rw [columnLetters, if_neg hn]
  simp

/-- **A locator is read back.** -/
theorem parse_render_of_proper {l : Locator} (h : l.Proper) : parse l.render = .ok l := by
  obtain ⟨sheet, row, col⟩ := l
  obtain ⟨n, rfl⟩ := Int.eq_ofNat_of_zero_le (Int.le_trans (by decide) h.row.1)
  obtain ⟨k, rfl⟩ := Int.eq_ofNat_of_zero_le (Int.le_trans (by decide) h.col.1)
  have hk : k ≠ 0 := by
    have := h.col.1
    dsimp only at this
    omega
  have hrange := columnLetters_range k
  have hletters : ∀ b ∈ (columnLetters k).map Char.toNat, isLetterByte b = true :=
    forall_mem_map.mpr fun c hc => isLetterByte_of_capital (hrange c hc)
  have hdigits (c : Char) (hc : c ∈ Nat.toDigits 10 n) : c.isDigit = true :=
    Nat.isDigit_of_mem_toDigits (by decide) (by decide) hc
  have hcol : ((columnLetters k).map Char.toNat).foldl pushLetter 0 = k := by
    have hnumber := foldl_columnLetters k
    rw [foldl_pushLetter hletters (Int.le_refl 0) (by rw [hnumber]; exact h.col.2), hnumber]
  have hname : cellName n k = String.ofList (columnLetters k ++ Nat.toDigits 10 n) := by
    rw [String.ofList_append]
    rfl
  have hsplit : splitSheet (render ⟨sheet, n, k⟩) = (sheet, bytesOf (cellName n k)) := by
    unfold render
    dsimp only
    by_cases hsheet : sheet = []
    · rw [if_pos hsheet, hsheet]
      refine splitSheet_ref fun hbang => ?_
      rw [hname] at hbang
      rcases mem_append.mp (bang_of_bytesOf hbang) with hbang | hbang
      · exact absurd (hrange _ hbang) (by decide)
      · exact absurd (hdigits _ hbang) (by decide)
    · rw [if_neg hsheet]
      exact splitSheet_sheet h.sheet _
  rw [hname] at hsplit
  rw [parse_eq (columnLetters_ne_nil hk) hrange hdigits hsplit
    (readRow?_toDigits (Int.ofNat_le.mp h.row.1) h.row.2), hcol]

/-- What is read is a locator that can be written, if its column is the one that was meant. -/
theorem proper_of_parse {ref : List UInt8} {l : Locator} (h : parse ref = .ok l)
    (hcol : fitsWord (columnOf ref) = true) : l.Proper := by
  unfold parse at h
  dsimp only at h
  split at h
  · rename_i b bs row hletters hrow
    cases h
    have hall : ∀ x ∈ ((splitSheet ref).2.map UInt8.toNat).takeWhile isLetterByte,
        isLetterByte x = true := fun x hx => mem_takeWhile_imp hx
    refine ⟨range_of_readRow? hrow, ?_, bang_of_splitSheet ref⟩
    have hle := le_foldl_addLetter hall (Int.le_refl 0)
    dsimp only
    rw [foldl_pushLetter hall (Int.le_refl 0) hcol]
    refine ⟨Int.le_trans ?_ hle, hcol⟩
    rw [hletters, length_cons]
    omega
  · cases h

/-! ## Texts -/

/-- What an address says. -/
def ofAddress (a : Address) : Locator := ⟨bytesOf a.sheet, a.row, a.col⟩

theorem sheet_of_parse {ref : List UInt8} {l : Locator} (h : parse ref = .ok l) :
    l.sheet = (splitSheet ref).1 := by
  unfold parse at h
  dsimp only at h
  split at h
  · cases h
    rfl
  · cases h

/-- A text is split into texts. -/
theorem exists_splitSheet_bytesOf (ref : String) : ∃ sheet rest,
    splitSheet (bytesOf ref) = (bytesOf sheet, bytesOf rest) := by
  by_cases hbang : '!' ∈ ref.toList
  · obtain ⟨cs, ds, href, hcs⟩ := eq_append_cons_of_mem hbang
    have htext : ref = String.ofList cs ++ "!" ++ String.ofList ds := by
      rw [← String.toList_inj, href]
      simp
    refine ⟨String.ofList cs, String.ofList ds, ?_⟩
    rw [htext, bytesOf_append, bytesOf_append, append_assoc, bytesOf_bang]
    exact splitSheet_sheet (mt bang_of_bytesOf hcs) _
  · refine ⟨"", ref, ?_⟩
    rw [bytesOf_empty]
    refine splitSheet_ref (mt (fun h => ?_) hbang)
    rw [← String.ofList_toList (s := ref)] at h
    exact bang_of_bytesOf h

/-- **The text of a reference is read by its bytes.** -/
theorem parse_text_iff (ref : String) (a : Address) :
    Address.parse ref = .ok a ↔ parse (bytesOf ref) = .ok (ofAddress a) := by
  obtain ⟨sheet, rest, hsplit⟩ := exists_splitSheet_bytesOf ref
  obtain ⟨name, row, col⟩ := a
  unfold Address.parse
  cases hparse : parse (bytesOf ref) with
  | error => simp
  | ok l =>
    have hsheet := sheet_of_parse hparse
    obtain ⟨_, row', col'⟩ := l
    rw [hsplit] at hsheet
    subst hsheet
    simp [ofAddress, textOf_bytesOf, bytesOf_inj]

/-- **An address is written by its bytes.** -/
theorem bytesOf_render (a : Address) : bytesOf a.render = (ofAddress a).render := by
  have hempty : bytesOf a.sheet = [] ↔ a.sheet = "" := bytesOf_empty ▸ bytesOf_inj
  unfold Address.render render ofAddress
  by_cases hsheet : a.sheet = ""
  · rw [if_pos hsheet, if_pos (hempty.mpr hsheet)]
  · rw [if_neg hsheet, if_neg (mt hempty.mp hsheet), bytesOf_append, bytesOf_append,
      append_assoc, bytesOf_bang]
    rfl

/-- **References are read back.**  A locator that is counted from 1 and by words is read from the
bytes that it is written as.  Bytes that read as a locator, with a column that is not too large,
read as the same locator when it is written again; so two such references name one cell just if they
are written alike.  Addresses are read from texts and written as texts in this way. -/
theorem parse_render :
    (∀ l : Locator, 1 ≤ l.row → 1 ≤ l.col → fitsWord l.row = true → fitsWord l.col = true →
      0x21 ∉ l.sheet → parse l.render = .ok l) ∧
    (∀ ref l, parse ref = .ok l → fitsWord (columnOf ref) = true → parse l.render = .ok l) ∧
    (∀ ref ref' l l', parse ref = .ok l → parse ref' = .ok l' → fitsWord (columnOf ref) = true →
      fitsWord (columnOf ref') = true → (l = l' ↔ l.render = l'.render)) ∧
    (∀ ref a, Address.parse ref = .ok a ↔ parse (bytesOf ref) = .ok (ofAddress a)) ∧
    ∀ a : Address, bytesOf a.render = (ofAddress a).render := by
  have hagain (ref : List UInt8) (l : Locator) (h : parse ref = .ok l)
      (hcol : fitsWord (columnOf ref) = true) : parse l.render = .ok l :=
    parse_render_of_proper (proper_of_parse h hcol)
  refine ⟨fun l hrow hcol hrow' hcol' hsheet =>
    parse_render_of_proper ⟨⟨hrow, hrow'⟩, ⟨hcol, hcol'⟩, hsheet⟩, hagain, ?_, parse_text_iff,
    bytesOf_render⟩
  intro ref ref' l l' h h' hcol hcol'
  refine ⟨fun heq => heq ▸ rfl, fun heq => ?_⟩
  have hback := hagain ref l h hcol
  rw [heq, hagain ref' l' h' hcol'] at hback
  cases hback
  rfl

/-- A sheet that no text names, a small letter, a letter above ASCII in one byte, a sign and zeros;
and the last cell of that sheet. -/
theorem parse_render_bytes :
    parse [0xFF, 0x21, 0x78, 0xE9, 0x2B, 0x30, 0x31] = .ok ⟨[0xFF], 1, 761⟩ ∧
      parse (render ⟨[0xFF], 1, 761⟩) = .ok ⟨[0xFF], 1, 761⟩ ∧
      parse (render ⟨[0xFF], 9223372036854775807, 9223372036854775807⟩) =
        .ok ⟨[0xFF], 9223372036854775807, 9223372036854775807⟩ := by
  have hread : parse [0xFF, 0x21, 0x78, 0xE9, 0x2B, 0x30, 0x31] = .ok ⟨[0xFF], 1, 761⟩ := by
    decide +kernel
  exact ⟨hread, parse_render.2.1 _ _ hread (by decide +kernel),
    parse_render.1 _ (by decide) (by decide) (by decide) (by decide) (by decide)⟩

end FormulaFold.Locator
