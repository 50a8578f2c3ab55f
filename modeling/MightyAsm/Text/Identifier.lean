import MightyAsm.Text.Basic

/-!
# Identifiers

A symbol is named by a letter or an underscore followed by letters, digits and underscores.
Only the letters `A` to `Z` and `a` to `z` and the digits `0` to `9` count.

* `isIdentifier_iff`: the shape of an identifier;
* `not_isBlank_of_isIdentChar`: no character of an identifier is blank.
-/

namespace MightyAsm

/-- Whether a character lies between two others, both included. -/
def isBetween (first last c : Char) : Bool :=
  decide (first.toNat ≤ c.toNat) && decide (c.toNat ≤ last.toNat)

/-- A character that may begin an identifier. -/
def isIdentStart (c : Char) : Bool :=
  isBetween 'A' 'Z' c || isBetween 'a' 'z' c || c == '_'

/-- A character that may stand in an identifier. -/
def isIdentChar (c : Char) : Bool :=
  isIdentStart c || isBetween '0' '9' c

/-- A letter or an underscore, then letters, digits and underscores. -/
def isIdentifier : Text → Bool
  | [] => false
  | c :: rest => isIdentStart c && rest.all isIdentChar

theorem isIdentifier_iff {t : Text} :
    isIdentifier t = true ↔
      ∃ c rest, t = c :: rest ∧ isIdentStart c = true ∧ ∀ d ∈ rest, isIdentChar d = true := by
  cases t with
  | nil => simp [isIdentifier]
  | cons c rest =>
      constructor
      · intro h
        exact ⟨c, rest, rfl, by simpa [isIdentifier] using h⟩
      · rintro ⟨d, tail, h, hd⟩
        cases h
        simpa [isIdentifier] using hd

theorem isIdentChar_of_isIdentifier {t : Text} (h : isIdentifier t = true) :
    ∀ c ∈ t, isIdentChar c = true := by
  obtain ⟨c, rest, rfl, hc, hrest⟩ := isIdentifier_iff.mp h
  intro d hd
  rcases List.mem_cons.mp hd with rfl | hd
  · simp [isIdentChar, hc]
  · exact hrest d hd

theorem toNat_le_of_isBetween {first last c : Char} (h : isBetween first last c = true) :
    c.toNat ≤ last.toNat := by
  simp only [isBetween, Bool.and_eq_true, decide_eq_true_eq] at h
  exact h.2

theorem toNat_lt_of_isIdentChar {c : Char} (h : isIdentChar c = true) : c.toNat < 128 := by
  simp only [isIdentChar, isIdentStart, Bool.or_eq_true, beq_iff_eq] at h
  rcases h with ((h | h) | rfl) | h
  · exact Nat.lt_of_le_of_lt (toNat_le_of_isBetween h) (by decide)
  · exact Nat.lt_of_le_of_lt (toNat_le_of_isBetween h) (by decide)
  · decide
  · exact Nat.lt_of_le_of_lt (toNat_le_of_isBetween h) (by decide)

theorem not_isBlank_of_isIdentChar {c : Char} (h : isIdentChar c = true) : isBlank c = false := by
  have hsmall : ∀ n : Fin 128, isIdentChar (Char.ofNat n.val) = true →
      isBlank (Char.ofNat n.val) = false := by decide
  have hc := hsmall ⟨c.toNat, toNat_lt_of_isIdentChar h⟩
  simp only [Char.ofNat_toNat] at hc
  exact hc h

end MightyAsm
