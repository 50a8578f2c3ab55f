import Mathlib.Data.List.Forall2
import MightyAsm.Proofs.Places
import MightyAsm.Proofs.Words

/-!
# Corresponding words

Two sources may use different words for the same things. A rewording is a relation between
their words under which corresponding words are read as the same operands, and under which
names of symbols are told apart in one source just where they are told apart in the other.
Tokens, lines and diagnostics match if their words correspond, and so do their line numbers.

* `Rewording`: when a relation between words keeps their meaning;
* `Rewording.isSymbolName_iff`: it keeps which words may name symbols;
* `SourceLine.matches_of_words`: lines match if their words and their numbers correspond.
-/

namespace MightyAsm

/-! ## Operands -/

/-- The same operands, up to the names of symbols. -/
inductive Operand.Matches (R : Text → Text → Prop) : Operand → Operand → Prop
  | reg (r : Register) : Matches R (.reg r) (.reg r)
  | imm (value : UInt8) : Matches R (.imm value) (.imm value)
  | addr (value : UInt8) : Matches R (.addr value) (.addr value)
  | symbol {name name' : Text} : R name name' → Matches R (.symbol name) (.symbol name')
  | here : Matches R .here .here

/-- A relation between words that keeps their meaning: corresponding words are read as the
same operands, and they name the same symbol in one source exactly if they do in the other. -/
structure Rewording (R : Text → Text → Prop) : Prop where
  operand : ∀ {t t'}, R t t' →
    Option.Rel (Operand.Matches R) (Operand.ofText? t) (Operand.ofText? t')
  name : ∀ {t t' u u'}, R t t' → R u u' → isSymbolName t = true → isSymbolName u = true →
    (t = u ↔ t' = u')

theorem Rewording.isSymbolName_iff {R : Text → Text → Prop} (hR : Rewording R) {t t' : Text}
    (h : R t t') : isSymbolName t = true ↔ isSymbolName t' = true := by
  have hread : ∀ u, isSymbolName u = true ↔ ∃ name, Operand.ofText? u = some (.symbol name) := by
    intro u
    simp only [Operand.ofText?_eq_symbol_iff]
    constructor
    · intro hu
      exact ⟨u, rfl, hu⟩
    · rintro ⟨name, rfl, hname⟩
      exact hname
  rw [hread t, hread t']
  have hop := hR.operand h
  generalize Operand.ofText? t = x at hop ⊢
  generalize Operand.ofText? t' = x' at hop ⊢
  cases hop with
  | none => simp
  | some hop => cases hop <;> simp

/-! ## Diagnostics -/

section Relations

variable (R : Text → Text → Prop) (ρ : Nat → Nat → Prop)

/-- Tokens with corresponding texts on corresponding lines. -/
structure Token.Matches (t t' : Token) : Prop where
  text : R t.text t'.text
  line : ρ t.line t'.line

/-- The same fault of corresponding words. -/
inductive Fault.Matches : Fault → Fault → Prop
  | duplicateSymbol {name name' : Text} {first first' : Nat} : R name name' → ρ first first' →
      Matches (.duplicateSymbol name first) (.duplicateSymbol name' first')
  | duplicateLabel {name name' : Text} {first first' : Nat} : R name name' → ρ first first' →
      Matches (.duplicateLabel name first) (.duplicateLabel name' first')
  | unknownSymbol {name name' : Text} : R name name' →
      Matches (.unknownSymbol name) (.unknownSymbol name')
  | missingOperand (mnemonic : Text) :
      Matches (.missingOperand mnemonic) (.missingOperand mnemonic)
  | malformedOperand {token token' : Text} : R token token' →
      Matches (.malformedOperand token) (.malformedOperand token')
  | unsupportedMode (mnemonic : Text) (mode : Mode) :
      Matches (.unsupportedMode mnemonic mode) (.unsupportedMode mnemonic mode)
  | tooManyOperands (mnemonic : Text) :
      Matches (.tooManyOperands mnemonic) (.tooManyOperands mnemonic)
  | branchOutOfRange {target target' : Text} (offset : Int) : R target target' →
      Matches (.branchOutOfRange target offset) (.branchOutOfRange target' offset)
  | labelOutOfRange {name name' : Text} (addr : Nat) : R name name' →
      Matches (.labelOutOfRange name addr) (.labelOutOfRange name' addr)

/-- The same fault on corresponding lines. -/
structure Diagnostic.Matches (d d' : Diagnostic) : Prop where
  fault : d.fault.Matches R ρ d'.fault
  line : ρ d.line d'.line

/-! ## Lines -/

/-- Instructions with the same mnemonic, up to letter case, and corresponding operands. -/
structure Instruction.Matches (i i' : Instruction) : Prop where
  key : i.key = i'.key
  operands : List.Forall₂ (Token.Matches R ρ) i.operands i'.operands
  line : ρ i.text.line i'.text.line

inductive SourceLine.Body.Matches : SourceLine.Body → SourceLine.Body → Prop
  | blank : Matches .blank .blank
  | constant {name name' : Token} (value : UInt8) : name.Matches R ρ name' →
      Matches (.constant name value) (.constant name' value)
  | instruction {i i' : Instruction} : i.Matches R ρ i' →
      Matches (.instruction i) (.instruction i')

/-- Lines with corresponding words. -/
structure SourceLine.Matches (l l' : SourceLine) : Prop where
  line : ρ l.line l'.line
  label : Option.Rel (Token.Matches R ρ) l.label l'.label
  body : l.body.Matches R ρ l'.body

end Relations

/-! ## Lines with corresponding words -/

/-- Corresponding words in the same order. -/
inductive BodyWords.Matches (R : Text → Text → Prop) : BodyWords → BodyWords → Prop
  | blank : Matches R .blank .blank
  | constant {name name' : Text} (value : UInt8) : R name name' →
      Matches R (.constant ⟨name, value⟩) (.constant ⟨name', value⟩)
  | instruction {mnemonic mnemonic' : Text} {operands operands' : List Text} :
      mnemonic.upper = mnemonic'.upper → List.Forall₂ R operands operands' →
      Matches R (.instruction mnemonic operands) (.instruction mnemonic' operands')

structure LineWords.Matches (R : Text → Text → Prop) (w w' : LineWords) : Prop where
  label : Option.Rel R w.label w'.label
  body : w.body.Matches R w'.body

def BodyWords.map (g : Text → Text) : BodyWords → BodyWords
  | .blank => .blank
  | .constant c => .constant ⟨g c.name, c.value⟩
  | .instruction mnemonic operands => .instruction mnemonic (operands.map g)

/-- The words of a line with others for its names and operands. -/
def LineWords.map (g : Text → Text) (w : LineWords) : LineWords := ⟨w.label.map g, w.body.map g⟩

theorem LineWords.map_id (w : LineWords) : w.map id = w := by
  have hbody : w.body.map id = w.body := by
    cases w.body with
    | blank => rfl
    | constant c => rfl
    | instruction mnemonic operands => simp [BodyWords.map]
  rw [LineWords.map, Option.map_id, id, hbody]

theorem LineWords.isBlank_map (g : Text → Text) (w : LineWords) :
    (w.map g).isBlank = w.isBlank := by
  have hbody : (w.body.map g == .blank) = (w.body == .blank) := by
    cases w.body <;> rfl
  rw [LineWords.isBlank, LineWords.isBlank, LineWords.map, hbody, Option.isNone_map]

theorem LineWords.matches_map {R : Text → Text → Prop} {g : Text → Text} (h : ∀ t, R t (g t))
    (w : LineWords) : w.Matches R (w.map g) := by
  refine ⟨?_, ?_⟩
  · rw [LineWords.map]
    cases w.label with
    | none => exact .none
    | some t => exact .some (h t)
  · rw [LineWords.map]
    cases w.body with
    | blank => exact .blank
    | constant c => exact .constant c.value (h c.name)
    | instruction mnemonic operands =>
        refine .instruction rfl (List.forall₂_map_right_iff.mpr ?_)
        exact List.forall₂_same.mpr fun t _ => h t

theorem LineWords.matches_self (w : LineWords) : w.Matches Eq w := by
  have hsame : w.Matches Eq (w.map id) := w.matches_map fun _ => rfl
  rwa [LineWords.map_id] at hsame

section Lines

variable {R : Text → Text → Prop} {ρ : Nat → Nat → Prop} {src src' : Text} {l l' : SourceLine}

theorem forall₂_matches_of_texts {ts ts' : List Token} {line line' : Nat} (hline : ρ line line')
    (hts : ∀ t ∈ ts, t.line = line) (hts' : ∀ t ∈ ts', t.line = line')
    (h : List.Forall₂ R (ts.map (·.text)) (ts'.map (·.text))) :
    List.Forall₂ (Token.Matches R ρ) ts ts' := by
  rw [List.forall₂_map_left_iff, List.forall₂_map_right_iff] at h
  induction h with
  | nil => exact .nil
  | @cons t t' ts ts' ht _ ih =>
      obtain ⟨hfirst, hts⟩ := List.forall_mem_cons.mp hts
      obtain ⟨hfirst', hts'⟩ := List.forall_mem_cons.mp hts'
      refine .cons ⟨ht, ?_⟩ (ih hts hts')
      rw [hfirst, hfirst']
      exact hline

theorem SourceLine.line_of_label (hl : l ∈ allLines src) : ∀ t ∈ l.label, t.line = l.line :=
  fun _ ht => (standsIn_of_part hl (Or.inl ht)).2

/-- The tokens of a body bear the number of a line. -/
def SourceLine.Body.On (line : Nat) : SourceLine.Body → Prop
  | .blank => True
  | .constant name _ => name.line = line
  | .instruction i => i.text.line = line ∧ ∀ op ∈ i.operands, op.line = line

theorem SourceLine.body_on (hl : l ∈ allLines src) : l.body.On l.line := by
  unfold SourceLine.body
  cases ht : l.instr with
  | none => trivial
  | some t =>
      cases hc : ConstDef.read? t.text with
      | some c =>
          simp only [hc]
          rfl
      | none =>
          simp only [hc]
          refine ⟨(standsIn_of_part hl (Or.inr ht)).2, fun op hop => ?_⟩
          exact ((SourceLine.HasToken.operand ht hop).standsIn hl).2

theorem SourceLine.Body.matches_of_words {b b' : SourceLine.Body} {line line' : Nat}
    (hline : ρ line line') (hb : b.On line) (hb' : b'.On line')
    (h : b.words.Matches R b'.words) : b.Matches R ρ b' := by
  cases b with
  | blank =>
      cases b' with
      | blank => exact .blank
      | _ => cases h
  | constant name value =>
      cases b' with
      | constant name' value' =>
          cases h with
          | constant _ ht =>
              refine .constant _ ⟨ht, ?_⟩
              rw [hb, hb']
              exact hline
      | _ => cases h
  | instruction i =>
      cases b' with
      | instruction i' =>
          obtain ⟨htext, hops⟩ := hb
          obtain ⟨htext', hops'⟩ := hb'
          cases h with
          | instruction hkey ht =>
              refine .instruction ⟨hkey, forall₂_matches_of_texts hline hops hops' ht, ?_⟩
              rw [htext, htext']
              exact hline
      | _ => cases h

theorem label_matches_of_words {label label' : Option Token} {line line' : Nat}
    (hline : ρ line line') (hlabel : ∀ t ∈ label, t.line = line)
    (hlabel' : ∀ t ∈ label', t.line = line')
    (h : Option.Rel R (label.map (·.text)) (label'.map (·.text))) :
    Option.Rel (Token.Matches R ρ) label label' := by
  cases label with
  | none =>
      cases label' with
      | none => exact .none
      | some t' => cases h
  | some t =>
      cases label' with
      | none => cases h
      | some t' =>
          cases h with
          | some ht =>
              refine .some ⟨ht, ?_⟩
              rw [hlabel t rfl, hlabel' t' rfl]
              exact hline

/-- Lines of two sources match if their words and their numbers correspond. -/
theorem SourceLine.matches_of_words (hl : l ∈ allLines src) (hl' : l' ∈ allLines src')
    (hline : ρ l.line l'.line) (h : l.words.Matches R l'.words) : l.Matches R ρ l' :=
  ⟨hline, label_matches_of_words hline (line_of_label hl) (line_of_label hl') h.label,
    Body.matches_of_words hline (body_on hl) (body_on hl') h.body⟩

end Lines

end MightyAsm
