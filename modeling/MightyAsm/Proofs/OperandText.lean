import Mathlib.Data.List.Forall2
import MightyAsm.Operand
import MightyAsm.Proofs.Padding

/-!
# Operands in a text

`Operand.WrittenAs` lists the ways to write an operand, and `Operand.SpelledBy` allows
blanks around it. Reading a text as an operand inverts both.

* `Register.ofText?_eq_some_iff`: a register is named by its letter in either case;
* `Operand.ofText?_eq_some_iff`: reading an operand inverts the ways to write it;
* `Operand.spelledBy_iff`: a text spells the operand that its trimmed form reads as;
* `Operand.WrittenAs.isOperandChar`: no operand has a blank, a comma, a colon or a
  semicolon in it.
-/

namespace MightyAsm

/-! ## Registers -/

theorem Register.ofChar?_eq_some_iff {c : Char} {r : Register} :
    Register.ofChar? c = some r ↔ c.toUpper = r.letter := by
  unfold Register.ofChar?
  constructor
  · intro h
    split at h
    · rename_i hc
      cases h
      have h1 : 65 ≤ c.toUpper.toNat := hc.1
      have h2 : c.toUpper.toNat ≤ 80 := hc.2
      have hval : (Fin.ofNat 16 (c.toUpper.toNat - 'A'.toNat)).val = c.toUpper.toNat - 65 :=
        Nat.mod_eq_of_lt (by show c.toUpper.toNat - 65 < 16; omega)
      rw [letter, hval]
      have : 'A'.toNat + (c.toUpper.toNat - 65) = c.toUpper.toNat := by
        show 65 + (c.toUpper.toNat - 65) = _
        omega
      rw [this, Char.ofNat_toNat]
    · cases h
  · intro h
    have hall : ∀ i : Fin 16, 'A' ≤ letter ⟨i⟩ ∧ letter ⟨i⟩ ≤ 'P' ∧
        Fin.ofNat 16 ((letter ⟨i⟩).toNat - 'A'.toNat) = i := by decide
    obtain ⟨hlow, hhigh, hindex⟩ := hall r.index
    rw [h, if_pos ⟨hlow, hhigh⟩, hindex]

theorem Register.ofText?_eq_some_iff {t : Text} {r : Register} :
    Register.ofText? t = some r ↔ t.upper = r.name := by
  match t with
  | [] => simp [Register.ofText?, Text.upper, Register.name]
  | [c] => simp [Register.ofText?, Text.upper, Register.name, Register.ofChar?_eq_some_iff]
  | _ :: _ :: _ => simp [Register.ofText?, Text.upper, Register.name]

/-! ## Ways to write an operand -/

/-- The texts that write an operand. -/
def Operand.WrittenAs : Operand → Text → Prop
  | .reg r, t => t.upper = r.name
  | .imm value, t => ∃ digits, t = '#' :: '$' :: digits ∧ hexByte? digits = some value
  | .addr value, t => ∃ digits, t = '$' :: digits ∧ hexByte? digits = some value
  | .symbol name, t => t = name ∧ isSymbolName name = true
  | .here, t => t = ['*']

theorem Operand.ofText?_of_writtenAs {t : Text} {o : Operand} (h : o.WrittenAs t) :
    Operand.ofText? t = some o := by
  cases o with
  | reg r => simp [Operand.ofText?, Register.ofText?_eq_some_iff.mpr h]
  | imm value =>
      obtain ⟨digits, rfl, hdigits⟩ := h
      simp [Operand.ofText?, Register.ofText?, hdigits]
  | addr value =>
      obtain ⟨digits, rfl, hdigits⟩ := h
      cases digits with
      | nil => cases hdigits
      | cons d ds => simp [Operand.ofText?, Register.ofText?, hdigits]
  | symbol name =>
      obtain ⟨rfl, hname⟩ := h
      simp only [isSymbolName, Bool.and_eq_true, Option.isNone_iff_eq_none] at hname
      obtain ⟨hident, hreg⟩ := hname
      obtain ⟨c, rest, rfl, hc, -⟩ := isIdentifier_iff.mp hident
      simp only [Operand.ofText?, hreg]
      -- None of the marks `*`, `#` and `$` begins an identifier.
      split
      · rename_i heq; cases heq; exact absurd hc (by decide)
      · rename_i heq; cases heq; exact absurd hc (by decide)
      · rename_i heq; cases heq; exact absurd hc (by decide)
      · rw [if_pos hident]
  | here => cases h; rfl

theorem Operand.writtenAs_of_ofText? {t : Text} {o : Operand} (h : Operand.ofText? t = some o) :
    o.WrittenAs t := by
  unfold Operand.ofText? at h
  split at h
  · rename_i r hr
    cases h
    exact Register.ofText?_eq_some_iff.mp hr
  · rename_i hreg
    split at h
    · cases h
      rfl
    · obtain ⟨value, hvalue, rfl⟩ := Option.map_eq_some_iff.mp h
      exact ⟨_, rfl, hvalue⟩
    · obtain ⟨value, hvalue, rfl⟩ := Option.map_eq_some_iff.mp h
      exact ⟨_, rfl, hvalue⟩
    · split at h
      · rename_i hident
        cases h
        exact ⟨rfl, by simp [isSymbolName, hident, hreg]⟩
      · cases h

theorem Operand.ofText?_eq_some_iff {t : Text} {o : Operand} :
    Operand.ofText? t = some o ↔ o.WrittenAs t :=
  ⟨writtenAs_of_ofText?, ofText?_of_writtenAs⟩

theorem Operand.ofText?_eq_symbol_iff {t name : Text} :
    Operand.ofText? t = some (.symbol name) ↔ t = name ∧ isSymbolName name = true :=
  Operand.ofText?_eq_some_iff

/-! ## Characters of operands -/

/-- The characters of operands. -/
def isOperandChar (c : Char) : Bool :=
  isIdentChar c || c == '#' || c == '$' || c == '*'

/-- The characters that a cut looks for. -/
def isMark (c : Char) : Bool :=
  isBlank c || c == ',' || c == ';' || c == ':'

theorem toNat_lt_of_isOperandChar {c : Char} (h : isOperandChar c = true) : c.toNat < 128 := by
  simp only [isOperandChar, Bool.or_eq_true, beq_iff_eq] at h
  rcases h with ((h | rfl) | rfl) | rfl
  · exact toNat_lt_of_isIdentChar h
  all_goals decide

theorem not_isMark_of_isOperandChar {c : Char} (h : isOperandChar c = true) :
    isMark c = false := by
  have hsmall : ∀ n : Fin 128, isOperandChar (Char.ofNat n.val) = true →
      isMark (Char.ofNat n.val) = false := by decide
  have hc := hsmall ⟨c.toNat, toNat_lt_of_isOperandChar h⟩
  simp only [Char.ofNat_toNat] at hc
  exact hc h

theorem isBlank_eq_false_of_isOperandChar {c : Char} (h : isOperandChar c = true) :
    isBlank c = false := by
  have hmark := not_isMark_of_isOperandChar h
  simp only [isMark, Bool.or_eq_false_iff] at hmark
  exact hmark.1.1.1

theorem isOperandChar_of_hexDigit? {c : Char} {n : Nat} (h : hexDigit? c = some n) :
    isOperandChar c = true := by
  have hident : isIdentChar c = true := by
    unfold hexDigit? at h
    simp only [isIdentChar, isIdentStart, isBetween, Bool.or_eq_true, Bool.and_eq_true,
      decide_eq_true_eq]
    split at h
    · rename_i hc
      exact Or.inr hc
    · split at h
      · rename_i hc
        exact Or.inl (Or.inl (Or.inl ⟨hc.1, hc.2.trans (by decide)⟩))
      · split at h
        · rename_i hc
          exact Or.inl (Or.inl (Or.inr ⟨hc.1, hc.2.trans (by decide)⟩))
        · cases h
  simp [isOperandChar, hident]

theorem isOperandChar_of_hexByte? {t : Text} {b : UInt8} (h : hexByte? t = some b) :
    ∀ c ∈ t, isOperandChar c = true := by
  unfold hexByte? at h
  split at h
  · obtain ⟨n, hn, -⟩ := Option.map_eq_some_iff.mp h
    simpa using isOperandChar_of_hexDigit? hn
  · split at h
    · rename_i hhigh hlow
      simpa using ⟨isOperandChar_of_hexDigit? hhigh, isOperandChar_of_hexDigit? hlow⟩
    · cases h
  · cases h

theorem isIdentStart_of_toUpper {c : Char} (h : isIdentStart c.toUpper = true) :
    isIdentStart c = true := by
  unfold Char.toUpper at h
  split at h
  · rename_i hc
    have hbetween : isBetween 'a' 'z' c = true := by
      simp only [isBetween, Bool.and_eq_true, decide_eq_true_eq]
      exact hc
    simp [isIdentStart, hbetween]
  · exact h

theorem isIdentStart_of_upper {t : Text} (h : ∀ c ∈ t.upper, isIdentStart c = true) :
    ∀ c ∈ t, isIdentStart c = true := by
  intro c hc
  exact isIdentStart_of_toUpper (h _ (List.mem_map_of_mem hc))

theorem isOperandChar_of_isIdentStart {c : Char} (h : isIdentStart c = true) :
    isOperandChar c = true := by
  simp [isOperandChar, isIdentChar, h]

/-- Every character of an operand is a letter, a digit or one of the marks `_`, `#`, `$`, `*`. -/
theorem Operand.WrittenAs.isOperandChar {o : Operand} {t : Text} (h : o.WrittenAs t) :
    ∀ c ∈ t, isOperandChar c = true := by
  cases o with
  | reg r =>
      have hletter : ∀ i : Fin 16, isIdentStart (Register.letter ⟨i⟩) = true := by decide
      intro c hc
      apply isOperandChar_of_isIdentStart
      refine isIdentStart_of_upper (t := t) ?_ c hc
      rw [show t.upper = r.name from h]
      simpa [Register.name] using hletter r.index
  | imm value =>
      obtain ⟨digits, rfl, hdigits⟩ := h
      have hd := isOperandChar_of_hexByte? hdigits
      simpa [MightyAsm.isOperandChar] using hd
  | addr value =>
      obtain ⟨digits, rfl, hdigits⟩ := h
      have hd := isOperandChar_of_hexByte? hdigits
      simpa [MightyAsm.isOperandChar] using hd
  | symbol name =>
      obtain ⟨rfl, hname⟩ := h
      simp only [isSymbolName, Bool.and_eq_true] at hname
      intro c hc
      simp [MightyAsm.isOperandChar, isIdentChar_of_isIdentifier hname.1 c hc]
  | here =>
      cases h
      exact List.forall_mem_singleton.mpr (by decide)

/-! ## Operands with blanks around them -/

/-- The texts that spell an operand: it is written with any blanks around it. -/
def Operand.SpelledBy (o : Operand) (part : Text) : Prop :=
  ∃ before t after : Text, before.Blank ∧ after.Blank ∧ o.WrittenAs t ∧
    part = before ++ (t ++ after)

theorem Operand.spelledBy_iff {o : Operand} {part : Text} :
    o.SpelledBy part ↔ Operand.ofText? part.trim = some o := by
  rw [Operand.ofText?_eq_some_iff]
  constructor
  · rintro ⟨before, t, after, hbefore, hafter, ht, rfl⟩
    rw [Text.trim_pad hbefore hafter, Text.trim_eq_self_of_noBlank]
    · exact ht
    · exact fun c hc => isBlank_eq_false_of_isOperandChar (ht.isOperandChar c hc)
  · intro h
    obtain ⟨before, after, hpart, hbefore, hafter⟩ := Text.exists_trim part
    exact ⟨before, part.trim, after, hbefore, hafter, h, by simpa using hpart⟩

theorem Operand.SpelledBy.not_mem_comma {o : Operand} {part : Text} (h : o.SpelledBy part) :
    ',' ∉ part := by
  obtain ⟨before, t, after, hbefore, hafter, ht, rfl⟩ := h
  have hcomma : isBlank ',' = false := by decide
  have hmid : ',' ∉ t := by
    intro hmem
    have hmark := not_isMark_of_isOperandChar (ht.isOperandChar ',' hmem)
    cases hmark
  simp [Text.not_mem_of_blank hcomma hbefore, Text.not_mem_of_blank hcomma hafter, hmid]

theorem forall₂_spelledBy_iff {os : List Operand} {parts : List Text} :
    List.Forall₂ Operand.SpelledBy os parts ↔
      parts.map (fun part => Operand.ofText? part.trim) = os.map some := by
  induction os generalizing parts with
  | nil => simp
  | cons o os ih =>
      cases parts with
      | nil => simp
      | cons part parts => simp [Operand.spelledBy_iff, ih]

theorem exists_spelledBy_of_mem {os : List Operand} {parts : List Text}
    (h : List.Forall₂ Operand.SpelledBy os parts) {part : Text} (hpart : part ∈ parts) :
    ∃ o : Operand, o.SpelledBy part := by
  have hmem := List.mem_map_of_mem (f := fun part => Operand.ofText? part.trim) hpart
  rw [forall₂_spelledBy_iff.mp h] at hmem
  obtain ⟨o, -, ho⟩ := List.mem_map.mp hmem
  exact ⟨o, Operand.spelledBy_iff.mpr ho.symm⟩

theorem Operand.SpelledBy.not_blank {o : Operand} {part : Text} (h : o.SpelledBy part) :
    ¬ part.Blank := by
  intro hblank
  rw [Operand.spelledBy_iff, Text.trim_eq_nil_iff.mpr hblank] at h
  cases h

end MightyAsm
