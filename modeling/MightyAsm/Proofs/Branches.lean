import MightyAsm.Proofs.Emission
import MightyAsm.Proofs.Steps

/-!
# Branches that reach their targets

The target of a branch is the only operand that may have no encoding: it is looked up when
the whole table is known, and a signed byte has to lead there.

* `Statement.exists_bytes_iff`: a statement is encoded exactly if its branch reaches;
* `Statement.bytes_eq_fault_iff`: what is reported otherwise;
* `Statement.bytes_append`: more symbols at the end of the table change no encoding;
* `Program.rom_eq_fault_iff`: the fault of an image is that of the first branch at fault.
-/

namespace MightyAsm

/-- If the statement is a branch to a symbol, the table has the symbol and a signed byte
leads there. -/
def Statement.Reaches (symbols : SymbolTable) (s : Statement) : Prop :=
  ∀ name, s.operands = .branch (.symbol name) →
    ∃ dest distance, symbols.value? name.text = some dest ∧
      branchDistance? s.addr dest = some distance ∧ -128 ≤ distance ∧ distance ≤ 127

/-- The statement is a branch to a symbol that the table does not have, or that is further
away than a signed byte leads. -/
inductive Statement.BranchFault (symbols : SymbolTable) (s : Statement) : Diagnostic → Prop
  | unknown {name : Token} : s.operands = .branch (.symbol name) →
      symbols.value? name.text = none → BranchFault symbols s (.undefined name)
  | outOfRange {name : Token} {dest : UInt8} {distance : Int} :
      s.operands = .branch (.symbol name) → symbols.value? name.text = some dest →
      branchDistance? s.addr dest = some distance → ¬ (-128 ≤ distance ∧ distance ≤ 127) →
      BranchFault symbols s (.atToken (.branchOutOfRange name.text distance) name)

theorem Target.encodeWith_symbol_eq_fault_iff {symbols : SymbolTable}
    {distance? : UInt8 → Option Int} {name : Token} {d : Diagnostic} :
    (Target.symbol name).encodeWith symbols distance? = .error (.fault d) ↔
      (symbols.value? name.text = none ∧ d = .undefined name) ∨
      ∃ dest distance, symbols.value? name.text = some dest ∧ distance? dest = some distance ∧
        ¬ (-128 ≤ distance ∧ distance ≤ 127) ∧
        d = .atToken (.branchOutOfRange name.text distance) name := by
  simp only [Target.encodeWith]
  cases symbols.value? name.text with
  | none => simp [eq_comm]
  | some dest =>
      cases hd : distance? dest with
      | none => simp [hd]
      | some distance =>
          by_cases hrange : -128 ≤ distance ∧ distance ≤ 127
          · simp [hrange, hd]
          · simp only [if_neg hrange, hd, Except.error.injEq, RomError.fault.injEq]
            constructor
            · rintro rfl
              exact Or.inr ⟨dest, distance, rfl, hd, hrange, rfl⟩
            · rintro (⟨hnone, -⟩ | ⟨dest', distance', hdest, hdistance, -, rfl⟩)
              · cases hnone
              · cases hdest
                rw [hd] at hdistance
                cases hdistance
                rfl

/-! ## One statement -/

section Statement

variable {symbols : SymbolTable} {s : Statement}

theorem Statement.bytes_of_symbol {name : Token} (h : s.operands = .branch (.symbol name)) :
    s.bytes symbols = (fun b => [s.opcode.code, b]) <$>
      (Target.symbol name).encodeWith symbols (branchDistance? s.addr) := by
  rw [Statement.bytes, h, Operands.encode, Target.encode]
  cases (Target.symbol name).encodeWith symbols (branchDistance? s.addr) <;> rfl

/-- Without a symbol to look up there is an encoding, and it depends on no table and no place. -/
theorem Operands.exists_encode_of_ne_symbol {o : Operands}
    (h : ∀ name, o ≠ .branch (.symbol name)) :
    ∃ bytes, ∀ symbols pc, o.encode symbols pc = .ok bytes := by
  cases o with
  | branch target =>
      cases target with
      | here => exact ⟨_, fun _ _ => rfl⟩
      | symbol name => exact absurd rfl (h name)
  | _ => exact ⟨_, fun _ _ => rfl⟩

theorem Statement.exists_bytes_of_ne_symbol (h : ∀ name, s.operands ≠ .branch (.symbol name)) :
    ∃ chunk, ∀ symbols, s.bytes symbols = .ok chunk := by
  obtain ⟨bytes, hbytes⟩ := Operands.exists_encode_of_ne_symbol h
  refine ⟨s.opcode.code :: bytes, fun symbols => ?_⟩
  rw [Statement.bytes, hbytes]
  rfl

theorem Statement.exists_bytes_iff :
    (∃ chunk, s.bytes symbols = .ok chunk) ↔ s.Reaches symbols := by
  by_cases h : ∃ name, s.operands = .branch (.symbol name)
  · obtain ⟨name, hs⟩ := h
    simp only [Statement.bytes_of_symbol hs, map_eq_ok_iff, Target.encodeWith_symbol_eq_ok_iff]
    constructor
    · rintro ⟨-, -, ⟨dest, distance, hdest, hdistance, hrange, -⟩, -⟩ name' hname'
      rw [hs] at hname'
      cases hname'
      exact ⟨dest, distance, hdest, hdistance, hrange⟩
    · intro hreach
      obtain ⟨dest, distance, hdest, hdistance, hrange⟩ := hreach name hs
      exact ⟨_, _, ⟨dest, distance, hdest, hdistance, hrange, rfl⟩, rfl⟩
  · have hnone := not_exists.mp h
    obtain ⟨chunk, hchunk⟩ := Statement.exists_bytes_of_ne_symbol hnone
    exact iff_of_true ⟨chunk, hchunk symbols⟩ fun name hname => absurd hname (hnone name)

theorem Statement.bytes_eq_fault_iff {d : Diagnostic} :
    s.bytes symbols = .error (.fault d) ↔ s.BranchFault symbols d := by
  constructor
  · intro h
    by_cases hsymbol : ∃ name, s.operands = .branch (.symbol name)
    · obtain ⟨name, hs⟩ := hsymbol
      rw [Statement.bytes_of_symbol hs, map_eq_error_iff,
        Target.encodeWith_symbol_eq_fault_iff] at h
      rcases h with ⟨hnone, rfl⟩ | ⟨dest, distance, hdest, hdistance, hrange, rfl⟩
      · exact .unknown hs hnone
      · exact .outOfRange hs hdest hdistance hrange
    · obtain ⟨chunk, hchunk⟩ := Statement.exists_bytes_of_ne_symbol (not_exists.mp hsymbol)
      rw [hchunk] at h
      cases h
  · rintro (⟨hs, hnone⟩ | ⟨hs, hdest, hdistance, hrange⟩)
    · rw [Statement.bytes_of_symbol hs, map_eq_error_iff, Target.encodeWith_symbol_eq_fault_iff]
      exact Or.inl ⟨hnone, rfl⟩
    · rw [Statement.bytes_of_symbol hs, map_eq_error_iff, Target.encodeWith_symbol_eq_fault_iff]
      exact Or.inr ⟨_, _, hdest, hdistance, hrange, rfl⟩

/-- A statement that is encoded is encoded to the same bytes once there are more symbols. -/
theorem Statement.bytes_append {symbols' : SymbolTable} {new : List Symbol}
    {chunk : List UInt8} (hsymbols : symbols'.symbols = symbols.symbols ++ new)
    (h : s.bytes symbols = .ok chunk) : s.bytes symbols' = .ok chunk := by
  by_cases hsymbol : ∃ name, s.operands = .branch (.symbol name)
  · obtain ⟨name, hs⟩ := hsymbol
    rw [Statement.bytes_of_symbol hs, map_eq_ok_iff] at h ⊢
    obtain ⟨b, hb, hchunk⟩ := h
    obtain ⟨dest, distance, hdest, hrest⟩ := Target.encodeWith_symbol_eq_ok_iff.mp hb
    have hdest' := SymbolTable.value?_append hsymbols hdest
    exact ⟨b, Target.encodeWith_symbol_eq_ok_iff.mpr ⟨dest, distance, hdest', hrest⟩, hchunk⟩
  · obtain ⟨chunk', hchunk'⟩ := Statement.exists_bytes_of_ne_symbol (not_exists.mp hsymbol)
    rw [hchunk'] at h ⊢
    exact h

end Statement

/-! ## Images -/

/-- The image of statements in step has a fault exactly if some branch is at fault and all
branches before it reach their targets. -/
theorem Program.rom_eq_fault_iff {p : Program} {d : Diagnostic}
    (h : InStep 0 p.stmts.toList) :
    p.rom = .error (.fault d) ↔ ∃ before s after, p.stmts.toList = before ++ s :: after ∧
      (∀ s' ∈ before, s'.Reaches p.symbols) ∧ s.BranchFault p.symbols d := by
  rw [Program.rom_eq_map h, map_eq_error_iff, mapM_eq_error_iff]
  simp only [Statement.exists_bytes_iff, Statement.bytes_eq_fault_iff]

end MightyAsm
