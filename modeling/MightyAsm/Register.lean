import MightyAsm.Text.Basic

/-!
# Registers

The sixteen registers are called `A` to `P`, in either letter case. A register is encoded
by its index.

* `Register.ofText?_name`: the name of a register reads back as that register.
-/

namespace MightyAsm

/-- One of the sixteen registers. -/
structure Register where
  index : Fin 16
deriving DecidableEq, Repr, Inhabited

namespace Register

/-- The capital letter that names a register. -/
def letter (r : Register) : Char :=
  Char.ofNat ('A'.toNat + r.index.val)

/-- The name of a register. -/
def name (r : Register) : Text :=
  [r.letter]

/-- The byte that encodes a register. -/
def toByte (r : Register) : UInt8 :=
  UInt8.ofNat r.index.val

/-- The register named by a letter, in either case. -/
def ofChar? (c : Char) : Option Register :=
  if 'A' ≤ c.toUpper ∧ c.toUpper ≤ 'P' then
    some ⟨Fin.ofNat 16 (c.toUpper.toNat - 'A'.toNat)⟩
  else none

/-- The register named by a text. -/
def ofText? : Text → Option Register
  | [c] => ofChar? c
  | _ => none

theorem ofText?_name (r : Register) : ofText? r.name = some r := by
  have h : ∀ i : Fin 16, ofText? (name ⟨i⟩) = some ⟨i⟩ := by decide
  exact h r.index

end Register

end MightyAsm
