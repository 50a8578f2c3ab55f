import MightyAsm.Text.Basic

/-!
# Hexadecimal bytes

Reading one or two hexadecimal digits as a byte, and writing a byte with exactly two.

* `hexByte?_hexOfByte`: the two digits written for a byte read back as that byte.
-/

namespace MightyAsm

/-- The value of a hexadecimal digit, in either letter case. -/
def hexDigit? (c : Char) : Option Nat :=
  if '0' ≤ c ∧ c ≤ '9' then some (c.toNat - '0'.toNat)
  else if 'A' ≤ c ∧ c ≤ 'F' then some (c.toNat - 'A'.toNat + 10)
  else if 'a' ≤ c ∧ c ≤ 'f' then some (c.toNat - 'a'.toNat + 10)
  else none

/-- The byte written with one or two hexadecimal digits. -/
def hexByte? : Text → Option UInt8
  | [low] => (hexDigit? low).map UInt8.ofNat
  | [high, low] =>
      match hexDigit? high, hexDigit? low with
      | some h, some l => some (UInt8.ofNat (16 * h + l))
      | _, _ => none
  | _ => none

/-- The hexadecimal digit of a value below 16, with capital letters. -/
def hexDigit (n : Nat) : Char :=
  if n < 10 then Char.ofNat ('0'.toNat + n) else Char.ofNat ('A'.toNat + (n - 10))

/-- The two hexadecimal digits of a byte, with capital letters. -/
def hexOfByte (b : UInt8) : Text :=
  [hexDigit (b.toNat / 16), hexDigit (b.toNat % 16)]

theorem hexDigit?_hexDigit {n : Nat} (h : n < 16) : hexDigit? (hexDigit n) = some n := by
  have hall : ∀ k : Fin 16, hexDigit? (hexDigit k.val) = some k.val := by decide
  exact hall ⟨n, h⟩

theorem hexByte?_hexOfByte (b : UInt8) : hexByte? (hexOfByte b) = some b := by
  have hb := b.toNat_lt
  rw [hexOfByte, hexByte?, hexDigit?_hexDigit (by omega), hexDigit?_hexDigit (by omega)]
  simp only [Nat.div_add_mod, UInt8.ofNat_toNat]

end MightyAsm
