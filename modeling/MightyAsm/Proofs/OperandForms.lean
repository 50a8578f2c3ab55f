import MightyAsm.Proofs.ConstForms

/-!
# The forms of an operand

An operand is written in one of five forms: a letter, digits after `#$` or after `$`, a star, or
a name. `Operand.HasForm` gives the grammar of each form by itself; it does not say which of two
forms that fit a text wins. They are told apart by the first character, except that the letter
of a register is also a name.

* `Operand.HasForm.mark?_form`: the first character of a text tells its form;
* `Operand.HasForm.eq_or_overlap`: two forms of one text are a register and a name;
* `Operand.ofText?_eq_some_iff_hasForm`: a text is read in the form that it has, as a register
  before it is read as a name;
* `OperandForm.findSome?_read?`: the forms can be tried in any order, as long as the one that
  shall win is tried before the others that fit;
* `Operand.ofText?_partition`: what is read from every text.
-/

namespace MightyAsm

/-! ## Five grammars -/

/-- The ways to write an operand. -/
inductive OperandForm where
  | reg
  | imm
  | addr
  | here
  | name
deriving DecidableEq, Repr

/-- The form in which an operand is written. -/
def Operand.form : Operand → OperandForm
  | .reg _ => .reg
  | .imm _ => .imm
  | .addr _ => .addr
  | .symbol _ => .name
  | .here => .here

/-- The letters that name the registers, in the order of their indices. -/
def registerLetters : Text :=
  ['A', 'B', 'C', 'D', 'E', 'F', 'G', 'H', 'I', 'J', 'K', 'L', 'M', 'N', 'O', 'P']

/-- The texts of each form, with the operand that they stand for. -/
inductive Operand.HasForm : Operand → Text → Prop
  | reg {r : Register} {c : Char} (letter : registerLetters[r.index.val]? = some c.toUpper) :
      HasForm (.reg r) [c]
  | imm {value : UInt8} {digits : Text} (isHexByte : IsHexByte digits)
      (hexValue_eq : hexValue digits = value.toNat) : HasForm (.imm value) ('#' :: '$' :: digits)
  | addr {value : UInt8} {digits : Text} (isHexByte : IsHexByte digits)
      (hexValue_eq : hexValue digits = value.toNat) : HasForm (.addr value) ('$' :: digits)
  | here : HasForm .here ['*']
  | name {c : Char} {rest : Text} (start : isIdentStart c = true)
      (char : ∀ d ∈ rest, isIdentChar d = true) : HasForm (.symbol (c :: rest)) (c :: rest)

theorem registerLetters_getElem? (r : Register) :
    registerLetters[r.index.val]? = some r.letter := by
  have hall : ∀ i : Fin 16, registerLetters[i.val]? = some (Register.letter ⟨i⟩) := by decide
  exact hall r.index

theorem Operand.hasForm_reg_iff {r : Register} {t : Text} :
    (Operand.reg r).HasForm t ↔ Register.ofText? t = some r := by
  constructor
  · rintro ⟨hletter⟩
    rw [registerLetters_getElem?, Option.some_inj] at hletter
    exact Register.ofChar?_eq_some_iff.mpr hletter.symm
  · intro h
    match t with
    | [] => cases h
    | [c] =>
        refine .reg ?_
        rw [registerLetters_getElem?, Register.ofChar?_eq_some_iff.mp h]
    | _ :: _ :: _ => cases h

theorem Operand.hasForm_imm_iff {value : UInt8} {t : Text} :
    (Operand.imm value).HasForm t ↔
      ∃ digits, t = '#' :: '$' :: digits ∧ hexByte? digits = some value := by
  simp only [hexByte?_eq_some_iff]
  constructor
  · intro h
    cases h with
    | imm hdigits hvalue => exact ⟨_, rfl, hdigits, hvalue⟩
  · rintro ⟨digits, rfl, hdigits, hvalue⟩
    exact .imm hdigits hvalue

theorem Operand.hasForm_addr_iff {value : UInt8} {t : Text} :
    (Operand.addr value).HasForm t ↔
      ∃ digits, t = '$' :: digits ∧ hexByte? digits = some value := by
  simp only [hexByte?_eq_some_iff]
  constructor
  · intro h
    cases h with
    | addr hdigits hvalue => exact ⟨_, rfl, hdigits, hvalue⟩
  · rintro ⟨digits, rfl, hdigits, hvalue⟩
    exact .addr hdigits hvalue

theorem Operand.hasForm_here_iff {t : Text} : Operand.here.HasForm t ↔ t = ['*'] := by
  constructor
  · intro h
    cases h
    rfl
  · rintro rfl
    exact .here

theorem Operand.hasForm_symbol_iff {name t : Text} :
    (Operand.symbol name).HasForm t ↔ t = name ∧ isIdentifier t = true := by
  rw [isIdentifier_iff]
  constructor
  · intro h
    cases h with
    | name hstart hchar => exact ⟨rfl, _, _, rfl, hstart, hchar⟩
  · rintro ⟨rfl, c, rest, rfl, hstart, hchar⟩
    exact .name hstart hchar

/-! ## Telling the forms apart -/

/-- The mark that the texts of a form begin with; registers and names begin with a letter. -/
def OperandForm.mark? : OperandForm → Option Char
  | .reg => none
  | .imm => some '#'
  | .addr => some '$'
  | .here => some '*'
  | .name => none

theorem isIdentStart_of_registerLetters {k : Nat} {c : Char}
    (h : registerLetters[k]? = some c.toUpper) : isIdentStart c = true := by
  have hall : registerLetters.all isIdentStart = true := by decide
  exact isIdentStart_of_toUpper (List.all_eq_true.mp hall _ (List.mem_of_getElem? h))

theorem Operand.HasForm.mark?_form {o : Operand} {t : Text} (h : o.HasForm t) :
    o.form.mark? = t.head?.filter (fun c => !isIdentStart c) := by
  cases h with
  | reg hletter =>
      have hstart := isIdentStart_of_registerLetters hletter
      simp [Operand.form, OperandForm.mark?, Option.filter, hstart]
  | imm => rfl
  | addr => rfl
  | here => rfl
  | name hstart => simp [Operand.form, OperandForm.mark?, Option.filter, hstart]

theorem OperandForm.eq_or_of_mark?_eq {f g : OperandForm} (h : f.mark? = g.mark?) :
    f = g ∨ (f = .reg ∧ g = .name) ∨ (f = .name ∧ g = .reg) := by
  revert h
  cases f <;> cases g <;> decide

/-- A text of a register is also a name. -/
theorem Operand.HasForm.symbol_of_reg {r : Register} {t : Text} (h : (Operand.reg r).HasForm t) :
    (Operand.symbol t).HasForm t := by
  cases h with
  | reg hletter => exact .name (isIdentStart_of_registerLetters hletter) (by simp)

/-! ## Trying the forms -/

/-- The operand that a text writes in one form. -/
def OperandForm.read? (f : OperandForm) (t : Text) : Option Operand :=
  match f with
  | .reg => (Register.ofText? t).map .reg
  | .imm => ((List.isPrefixOf? ['#', '$'] t).bind hexByte?).map .imm
  | .addr => ((List.isPrefixOf? ['$'] t).bind hexByte?).map .addr
  | .here => if t = ['*'] then some .here else none
  | .name => if isIdentifier t then some (.symbol t) else none

theorem bind_hexByte?_eq_some_iff {mark t : Text} {value : UInt8} :
    (mark.isPrefixOf? t).bind hexByte? = some value ↔
      ∃ digits, t = mark ++ digits ∧ hexByte? digits = some value := by
  simp only [Option.bind_eq_some_iff, List.isPrefixOf?_eq_some_iff_append_eq, eq_comm]

theorem OperandForm.read?_eq_some_iff {f : OperandForm} {t : Text} {o : Operand} :
    f.read? t = some o ↔ o.form = f ∧ o.HasForm t := by
  cases f with
  | reg => cases o <;> simp [read?, Operand.form, Operand.hasForm_reg_iff]
  | imm =>
      simp only [read?, Option.map_eq_some_iff, bind_hexByte?_eq_some_iff]
      cases o <;> simp [Operand.form, Operand.hasForm_imm_iff]
  | addr =>
      simp only [read?, Option.map_eq_some_iff, bind_hexByte?_eq_some_iff]
      cases o <;> simp [Operand.form, Operand.hasForm_addr_iff]
  | here => cases o <;> simp [read?, Operand.form, Operand.hasForm_here_iff]
  | name => cases o <;> simp [read?, Operand.form, Operand.hasForm_symbol_iff, and_comm]

theorem Operand.HasForm.eq_of_form {o o' : Operand} {t : Text} (h : o.HasForm t)
    (h' : o'.HasForm t) (hform : o.form = o'.form) : o = o' := by
  have hread := OperandForm.read?_eq_some_iff.mpr ⟨hform, h⟩
  have hread' := OperandForm.read?_eq_some_iff.mpr ⟨rfl, h'⟩
  rw [hread, Option.some_inj] at hread'
  exact hread'

/-- Where two forms fit one text, one of them is that of a register and the other that of a
name. -/
theorem Operand.HasForm.eq_or_overlap {o o' : Operand} {t : Text} (h : o.HasForm t)
    (h' : o'.HasForm t) :
    o = o' ∨ (o.form = .reg ∧ o'.form = .name) ∨ (o.form = .name ∧ o'.form = .reg) := by
  have hmark : o.form.mark? = o'.form.mark? := by rw [h.mark?_form, h'.mark?_form]
  rcases OperandForm.eq_or_of_mark?_eq hmark with heq | hother
  · exact .inl (h.eq_of_form h' heq)
  · exact .inr hother

/-- The form that is tried before all others that fit decides what is read. -/
theorem OperandForm.findSome?_read? {order : List OperandForm} {o : Operand} {t : Text}
    (hmem : o.form ∈ order) (h : o.HasForm t)
    (hfirst : ∀ o' : Operand, o'.HasForm t → o' ≠ o →
      order.idxOf o.form < order.idxOf o'.form) :
    order.findSome? (·.read? t) = some o := by
  have hread := read?_eq_some_iff.mpr ⟨rfl, h⟩
  cases hfound : order.findSome? (·.read? t) with
  | none =>
      have hnone := List.findSome?_eq_none_iff.mp hfound _ hmem
      rw [hread] at hnone
      cases hnone
  | some o' =>
      obtain ⟨before, g, after, rfl, hg, hbefore⟩ := List.findSome?_eq_some_iff.mp hfound
      obtain ⟨rfl, h'⟩ := read?_eq_some_iff.mp hg
      by_cases heq : o' = o
      · rw [heq]
      · -- The form that was found stands after `before`, and that of `o` is not in `before`.
        have hnot : o.form ∉ before := by
          intro hin
          have hnone := hbefore _ hin
          rw [hread] at hnone
          cases hnone
        have hlt := hfirst o' h' heq
        rw [List.idxOf_append, List.idxOf_append, if_neg hnot] at hlt
        have hle : (if o'.form ∈ before then before.idxOf o'.form
            else (o'.form :: after).idxOf o'.form + before.length) ≤ before.length := by
          split
          · exact List.idxOf_le_length
          · rw [List.idxOf_cons_self]
            omega
        omega

/-! ## Reading an operand -/

theorem Operand.writtenAs_iff_hasForm {o : Operand} {t : Text} :
    o.WrittenAs t ↔
      o.HasForm t ∧ (o.form = .name → ∀ r : Register, ¬ (Operand.reg r).HasForm t) := by
  cases o with
  | reg r => simp [WrittenAs, form, hasForm_reg_iff, Register.ofText?_eq_some_iff]
  | imm value => simp [WrittenAs, form, hasForm_imm_iff]
  | addr value => simp [WrittenAs, form, hasForm_addr_iff]
  | here => simp [WrittenAs, form, hasForm_here_iff]
  | symbol name =>
      simp only [WrittenAs, form, hasForm_symbol_iff, hasForm_reg_iff, isSymbolName,
        Bool.and_eq_true, Option.isNone_iff_eq_none, forall_const]
      constructor
      · rintro ⟨rfl, hident, hreg⟩
        exact ⟨⟨rfl, hident⟩, by simp [hreg]⟩
      · rintro ⟨⟨rfl, hident⟩, hreg⟩
        exact ⟨rfl, hident, Option.eq_none_iff_forall_ne_some.mpr hreg⟩

/-- A text is read in the form that it has; the letter of a register is read as the register. -/
theorem Operand.ofText?_eq_some_iff_hasForm {o : Operand} {t : Text} :
    Operand.ofText? t = some o ↔
      o.HasForm t ∧ (o.form = .name → ∀ r : Register, ¬ (Operand.reg r).HasForm t) :=
  Operand.ofText?_eq_some_iff.trans Operand.writtenAs_iff_hasForm

theorem Operand.ofText?_eq_none_iff {t : Text} :
    Operand.ofText? t = none ↔ ∀ o : Operand, ¬ o.HasForm t := by
  constructor
  · intro hnone o h
    by_cases hreg : ∃ r : Register, (Operand.reg r).HasForm t
    · obtain ⟨r, hr⟩ := hreg
      have hsome := ofText?_eq_some_iff_hasForm.mpr ⟨hr, nofun⟩
      rw [hnone] at hsome
      cases hsome
    · have hsome := ofText?_eq_some_iff_hasForm.mpr ⟨h, fun _ r hr => hreg ⟨r, hr⟩⟩
      rw [hnone] at hsome
      cases hsome
  · intro hnot
    cases hread : Operand.ofText? t with
    | none => rfl
    | some o => exact absurd (ofText?_eq_some_iff_hasForm.mp hread).1 (hnot o)

theorem Operand.findSome?_read?_eq_ofText? {order : List OperandForm} {t : Text}
    (hall : ∀ f, f ∈ order)
    (hfirst : (∃ r : Register, (Operand.reg r).HasForm t) →
      order.idxOf .reg < order.idxOf .name) :
    order.findSome? (·.read? t) = Operand.ofText? t := by
  cases hread : Operand.ofText? t with
  | none =>
      rw [List.findSome?_eq_none_iff]
      intro f _
      cases hf : f.read? t with
      | none => rfl
      | some o =>
          exact absurd (OperandForm.read?_eq_some_iff.mp hf).2 (ofText?_eq_none_iff.mp hread o)
  | some o =>
      obtain ⟨h, hname⟩ := ofText?_eq_some_iff_hasForm.mp hread
      refine OperandForm.findSome?_read? (hall _) h ?_
      intro o' h' hne
      rcases h.eq_or_overlap h' with heq | ⟨hreg, hname'⟩ | ⟨hform, hreg'⟩
      · exact absurd heq.symm hne
      · rw [hreg, hname']
        cases o with
        | reg r => exact hfirst ⟨r, h⟩
        | _ => cases hreg
      · cases o' with
        | reg r => exact absurd h' (hname hform r)
        | _ => cases hreg'

/-! ## The partition -/

/-- What is read from a text. -/
structure Operand.Partition (t : Text) : Prop where
  /-- A text is read in the form that it has; the letter of a register is not read as a name. -/
  some_iff : ∀ o : Operand, Operand.ofText? t = some o ↔
    o.HasForm t ∧ (o.form = .name → ∀ r : Register, ¬ (Operand.reg r).HasForm t)
  /-- Only texts of no form are not read. -/
  none_iff : Operand.ofText? t = none ↔ ∀ o : Operand, ¬ o.HasForm t
  /-- A text with a blank, a sign or a character beyond ASCII in it is not read. -/
  foreign : (∃ c ∈ t, isBlank c = true ∨ c = '+' ∨ c = '-' ∨ 128 ≤ c.toNat) →
    Operand.ofText? t = none
  /-- More than two digits are not read. -/
  long : ∀ digits : Text, t = '$' :: digits ∨ t = '#' :: '$' :: digits → 2 < digits.length →
    Operand.ofText? t = none
  /-- Digits in the places for them have a value that fits in a byte. -/
  digits : ∀ digits : Text, t = '$' :: digits ∨ t = '#' :: '$' :: digits → IsHexByte digits →
    ∃ value : UInt8, hexByte? digits = some value ∧ value.toNat = hexValue digits
  /-- No two forms fit the text, unless they are those of a register and of a name. -/
  disjoint : ∀ o o' : Operand, o.HasForm t → o'.HasForm t →
    o = o' ∨ (o.form = .reg ∧ o'.form = .name) ∨ (o.form = .name ∧ o'.form = .reg)
  /-- The letter of a register is also a name. -/
  overlap : ∀ r : Register, (Operand.reg r).HasForm t → (Operand.symbol t).HasForm t
  /-- Unless the text is the letter of a register, the forms can be tried in any order. -/
  anyOrder : ∀ order : List OperandForm, (∀ f, f ∈ order) →
    ((∃ r : Register, (Operand.reg r).HasForm t) → order.idxOf .reg < order.idxOf .name) →
    order.findSome? (·.read? t) = Operand.ofText? t
  /-- For the letter of a register, the order decides. -/
  swapped : ∀ order : List OperandForm, (∀ f, f ∈ order) →
    order.idxOf .name < order.idxOf .reg → ∀ r : Register, (Operand.reg r).HasForm t →
    order.findSome? (·.read? t) = some (.symbol t)

theorem Operand.ofText?_eq_none_of_mem {t : Text} {c : Char} (hc : c ∈ t)
    (h : isOperandChar c = false) : Operand.ofText? t = none := by
  cases hread : Operand.ofText? t with
  | none => rfl
  | some o =>
      have hchar := (Operand.ofText?_eq_some_iff.mp hread).isOperandChar c hc
      rw [h] at hchar
      cases hchar

theorem isOperandChar_eq_false_of_foreign {c : Char}
    (h : isBlank c = true ∨ c = '+' ∨ c = '-' ∨ 128 ≤ c.toNat) : isOperandChar c = false := by
  rw [← Bool.not_eq_true]
  intro hchar
  rcases h with hblank | rfl | rfl | hlarge
  · rw [isBlank_eq_false_of_isOperandChar hchar] at hblank
    cases hblank
  · cases hchar
  · cases hchar
  · have hlt := toNat_lt_of_isOperandChar hchar
    omega

theorem Operand.HasForm.length_le {o : Operand} {digits t : Text} (h : o.HasForm t)
    (ht : t = '$' :: digits ∨ t = '#' :: '$' :: digits) : digits.length ≤ 2 := by
  have hstart : isIdentStart '$' = false ∧ isIdentStart '#' = false := by decide
  rcases ht with rfl | rfl
  · cases h with
    | reg => simp
    | addr hdigits =>
        have hlength := hdigits.length
        omega
    | name hname => simp [hstart] at hname
  · cases h with
    | imm hdigits =>
        have hlength := hdigits.length
        omega
    | name hname => simp [hstart] at hname

theorem Operand.ofText?_partition (t : Text) : Operand.Partition t where
  some_iff _ := ofText?_eq_some_iff_hasForm
  none_iff := ofText?_eq_none_iff
  foreign := by
    rintro ⟨c, hc, hforeign⟩
    exact ofText?_eq_none_of_mem hc (isOperandChar_eq_false_of_foreign hforeign)
  long := by
    intro digits ht hlong
    rw [ofText?_eq_none_iff]
    intro o h
    have hle := h.length_le ht
    omega
  digits := by
    intro digits _ hdigits
    have hread := hexByte?_of_isHexByte hdigits
    exact ⟨_, hread, (hexByte?_eq_some_iff.mp hread).2.symm⟩
  disjoint _ _ h h' := h.eq_or_overlap h'
  overlap _ h := h.symbol_of_reg
  anyOrder _ hall hfirst := findSome?_read?_eq_ofText? hall hfirst
  swapped := by
    intro order hall hlt r hr
    refine OperandForm.findSome?_read? (hall _) hr.symbol_of_reg ?_
    intro o' h' hne
    rcases hr.symbol_of_reg.eq_or_overlap h' with heq | ⟨hreg, -⟩ | ⟨-, hreg⟩
    · exact absurd heq.symm hne
    · cases hreg
    · rw [hreg]
      exact hlt

end MightyAsm
