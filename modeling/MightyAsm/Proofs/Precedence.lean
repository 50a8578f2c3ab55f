import MightyAsm.Proofs.LookingBack

/-!
# Which fault of an instruction is reported

An instruction may have several faults at once, and only one of them is reported. First comes
the number of operands, then the form of each of them, then the symbol that has to be known,
and last the mode. `Instruction.Outcome` says so in rules that do not mention how an
instruction is resolved.

* `Instruction.Misplaces`: the first operand that is out of place;
* `Instruction.Misses`: a symbol that is needed at once and unknown;
* `Instruction.HasShape`: the operands that are meant where all is in place and known;
* `Instruction.exists_outcome`, `Instruction.Outcome.resolve_eq`: there is an outcome, and
  resolving gives it;
* `Instruction.resolve_outcome`: resolving gives just the outcome of the rules, and a larger
  table changes it only where a symbol was missed.
-/

namespace MightyAsm

/-! ## Rules -/

/-- The text is the name of a register, in either letter case. -/
def NamesRegister (t : Text) : Prop := ∃ r : Register, (Operand.reg r).WrittenAs t

theorem ofText?_ne_reg {t : Text} (h : ¬ NamesRegister t) (r : Register) :
    Operand.ofText? t ≠ some (.reg r) :=
  fun hr => h ⟨r, Operand.ofText?_eq_some_iff.mp hr⟩

theorem not_isSymbolName_of_namesRegister {t : Text} (h : NamesRegister t) :
    isSymbolName t = false := by
  obtain ⟨r, hr⟩ := h
  simp [isSymbolName, Register.ofText?_eq_some_iff.mpr hr]

theorem isSymbolName_of_not_namesRegister {t : Text} (h : ¬ NamesRegister t)
    (hident : isIdentifier t = true) : isSymbolName t = true := by
  have hnone : Register.ofText? t = none := by
    cases hr : Register.ofText? t with
    | none => rfl
    | some r => exact absurd ⟨r, Register.ofText?_eq_some_iff.mp hr⟩ h
  simp [isSymbolName, hident, hnone]

namespace Instruction

/-- The first operand that has not the form that its place asks for. A single operand is a
register, an identifier, or `*` after the mnemonic of a branch; of two operands the first is a
register, and the second anything but `*`. -/
inductive Misplaces (i : Instruction) : Token → Prop
  | only {op : Token} : i.operands = [op] → ¬ NamesRegister op.text →
      isIdentifier op.text = false → ¬ (op.text = ['*'] ∧ isBranch i.key = true) → Misplaces i op
  | first {op second : Token} : i.operands = [op, second] → ¬ NamesRegister op.text →
      Misplaces i op
  | second {first op : Token} : i.operands = [first, op] → NamesRegister first.text →
      (op.text = ['*'] ∨ ∀ o : Operand, ¬ o.WrittenAs op.text) → Misplaces i op

/-- There are one or two operands, each of them of a form that its place allows. -/
structure WellPlaced (i : Instruction) : Prop where
  length : i.operands.length = 1 ∨ i.operands.length = 2
  placed : ∀ op, ¬ i.Misplaces op

/-- An operand names a symbol that the table does not have, and is not the target of a branch. -/
structure Misses (symbols : SymbolTable) (i : Instruction) (op : Token) : Prop where
  mem : op ∈ i.operands
  named : isSymbolName op.text = true
  needed : ¬ (i.operands = [op] ∧ isBranch i.key = true)
  absent : op.text ∉ symbols.names

/-- The operands that an instruction means, with the value of the symbol that it needs. -/
inductive HasShape (symbols : SymbolTable) (i : Instruction) : Operands → Prop
  | reg {op : Token} {r : Register} : i.operands = [op] → (Operand.reg r).WrittenAs op.text →
      HasShape symbols i (.reg r)
  | branchTo {op : Token} : i.operands = [op] → isBranch i.key = true →
      isSymbolName op.text = true → HasShape symbols i (.branch (.symbol op))
  | branchHere {op : Token} : i.operands = [op] → isBranch i.key = true → op.text = ['*'] →
      HasShape symbols i (.branch .here)
  | symbol {op : Token} {value : UInt8} : i.operands = [op] → isBranch i.key = false →
      isSymbolName op.text = true → symbols.value? op.text = some value →
      HasShape symbols i (.addr value)
  | regPair {first second : Token} {r s : Register} : i.operands = [first, second] →
      (Operand.reg r).WrittenAs first.text → (Operand.reg s).WrittenAs second.text →
      HasShape symbols i (.regPair r s)
  | regImm {first second : Token} {r : Register} {value : UInt8} :
      i.operands = [first, second] → (Operand.reg r).WrittenAs first.text →
      (Operand.imm value).WrittenAs second.text → HasShape symbols i (.regImm r value)
  | regAddr {first second : Token} {r : Register} {addr : UInt8} :
      i.operands = [first, second] → (Operand.reg r).WrittenAs first.text →
      (Operand.addr addr).WrittenAs second.text → HasShape symbols i (.regAddr r addr)
  | regSymbol {first second : Token} {r : Register} {value : UInt8} :
      i.operands = [first, second] → (Operand.reg r).WrittenAs first.text →
      isSymbolName second.text = true → symbols.value? second.text = some value →
      HasShape symbols i (.regAddr r value)

/-- The instruction set has the entry for the mnemonic in the mode of the operands, and it has
room for just their bytes. -/
def Fits (i : Instruction) (operands : Operands) (entry : Opcode) : Prop :=
  (i.key, entry) ∈ instructionSet ∧ entry.mode = operands.mode ∧ entry.size = 1 + operands.size

/-- What an instruction comes to, given the symbols known so far. The rules are in the order of
their precedence. -/
inductive Outcome (symbols : SymbolTable) (i : Instruction) :
    Except Diagnostic (Opcode × Operands) → Prop
  | missing : i.operands = [] →
      Outcome symbols i (.error (.atToken (.missingOperand i.key) i.text))
  | tooMany {extra : Token} : i.operands[2]? = some extra →
      Outcome symbols i (.error (.atToken (.tooManyOperands i.key) extra))
  | malformed {op : Token} : i.Misplaces op → Outcome symbols i (.error (.malformed op))
  | undefined {op : Token} : i.WellPlaced → i.Misses symbols op →
      Outcome symbols i (.error (.undefined op))
  | unsupported {operands : Operands} : i.WellPlaced → (∀ op, ¬ i.Misses symbols op) →
      i.HasShape symbols operands → (∀ entry, ¬ i.Fits operands entry) →
      Outcome symbols i (.error (.atToken (.unsupportedMode i.key operands.mode) i.text))
  | ok {operands : Operands} {entry : Opcode} : i.WellPlaced → (∀ op, ¬ i.Misses symbols op) →
      i.HasShape symbols operands → i.Fits operands entry → Outcome symbols i (.ok (entry, operands))

/-! ## Resolving follows the rules -/

variable {i : Instruction} {symbols : SymbolTable} {op : Token} {operands : Operands}
  {entry : Opcode}

theorem Misplaces.resolve_eq (h : i.Misplaces op) :
    i.resolve symbols = .error (.malformed op) := by
  cases h with
  | only hops hreg hident hhere =>
      simp only [resolve, hops, Operands.ofOne]
      cases hread : Operand.ofText? op.text with
      | none => rfl
      | some o =>
          cases o with
          | reg r => exact absurd hread (ofText?_ne_reg hreg r)
          | imm value => rfl
          | addr value => rfl
          | symbol name =>
              obtain ⟨rfl, hname⟩ := Operand.ofText?_eq_symbol_iff.mp hread
              simp [isSymbolName, hident] at hname
          | here =>
              have hstar : op.text = ['*'] := Operand.ofText?_eq_some_iff.mp hread
              have hbranch : ¬ isBranch i.key = true := fun hb => hhere ⟨hstar, hb⟩
              simp only [if_neg hbranch]
              rfl
  | first hops hreg =>
      simp only [resolve, hops, Operands.ofTwo]
      cases hread : Operand.ofText? op.text with
      | none => rfl
      | some o =>
          cases o with
          | reg r => exact absurd hread (ofText?_ne_reg hreg r)
          | _ => rfl
  | second hops hreg hother =>
      obtain ⟨r, hr⟩ := hreg
      simp only [resolve, hops, Operands.ofTwo, Operand.ofText?_of_writtenAs hr]
      rcases hother with hstar | hnone
      · rw [hstar]
        rfl
      · cases hread : Operand.ofText? op.text with
        | none => rfl
        | some o => exact absurd (Operand.ofText?_eq_some_iff.mp hread) (hnone o)

/-- Where all is in place, a symbol that is missed is looked up. -/
theorem Misses.looksUp (h : i.Misses symbols op) (hi : i.WellPlaced) : i.LooksUp op := by
  rcases hi.length with hlength | hlength
  · obtain ⟨o, hops⟩ := List.length_eq_one_iff.mp hlength
    have ho : op = o := by simpa [hops] using h.mem
    subst ho
    refine .only hops ?_ h.named
    simpa using fun hbranch => h.needed ⟨hops, hbranch⟩
  · obtain ⟨first, second, hops⟩ := List.length_eq_two.mp hlength
    have hfirst : NamesRegister first.text := by
      by_contra hreg
      exact hi.placed first (.first hops hreg)
    obtain ⟨r, hr⟩ := hfirst
    have hmem : op = first ∨ op = second := by simpa [hops] using h.mem
    rcases hmem with rfl | rfl
    · have hname := h.named
      rw [not_isSymbolName_of_namesRegister ⟨r, hr⟩] at hname
      cases hname
    · exact .second hops (Register.ofText?_eq_some_iff.mpr hr) h.named

theorem Misses.resolve_eq (h : i.Misses symbols op) (hi : i.WellPlaced) :
    i.resolve symbols = .error (.undefined op) := by
  have hnone : symbols.value? op.text = none := by
    rw [SymbolTable.value?, Option.map_eq_none_iff, SymbolTable.find?_eq_none_iff]
    exact h.absent
  exact (h.looksUp hi).resolve_eq_error hnone

theorem HasShape.resolve_eq (h : i.HasShape symbols operands) :
    i.resolve symbols = i.fit operands := by
  cases h with
  | reg hops hr =>
      simp only [resolve, hops, Operands.ofOne, Operand.ofText?_of_writtenAs hr]
      rfl
  | branchTo hops hbranch hname =>
      simp only [resolve, hops, Operands.ofOne, hbranch,
        Operand.ofText?_eq_symbol_iff.mpr ⟨rfl, hname⟩]
      rfl
  | branchHere hops hbranch hstar =>
      simp only [resolve, hops, Operands.ofOne, hbranch, hstar]
      rfl
  | symbol hops hbranch hname hvalue =>
      simp only [resolve, hops, Operands.ofOne, hbranch,
        Operand.ofText?_eq_symbol_iff.mpr ⟨rfl, hname⟩, SymbolTable.resolve_eq_ok_iff.mpr hvalue]
      rfl
  | regPair hops hr hs =>
      simp only [resolve, hops, Operands.ofTwo, Operand.ofText?_of_writtenAs hr,
        Operand.ofText?_of_writtenAs hs]
      rfl
  | regImm hops hr hvalue =>
      simp only [resolve, hops, Operands.ofTwo, Operand.ofText?_of_writtenAs hr,
        Operand.ofText?_of_writtenAs hvalue]
      rfl
  | regAddr hops hr haddr =>
      simp only [resolve, hops, Operands.ofTwo, Operand.ofText?_of_writtenAs hr,
        Operand.ofText?_of_writtenAs haddr]
      rfl
  | regSymbol hops hr hname hvalue =>
      simp only [resolve, hops, Operands.ofTwo, Operand.ofText?_of_writtenAs hr,
        Operand.ofText?_eq_symbol_iff.mpr ⟨rfl, hname⟩, SymbolTable.resolve_eq_ok_iff.mpr hvalue]
      rfl

theorem fit_eq_ok_iff_fits : i.fit operands = .ok (entry, operands) ↔ i.Fits operands entry := by
  rw [fit_eq_ok_iff]
  constructor
  · rintro ⟨op, hop, hsize, heq⟩
    cases heq
    obtain ⟨hmem, hmode⟩ := mem_instructionSet_of_opcode? hop
    refine ⟨hmem, hmode, ?_⟩
    rw [opcode?_size hop, ← hsize, Nat.add_comm]
  · rintro ⟨hmem, hmode, hsize⟩
    have hop := opcode?_of_mem hmem
    rw [hmode] at hop
    refine ⟨entry, hop, ?_, rfl⟩
    rw [← opcode?_size hop, hsize, Nat.add_comm]

theorem fit_eq_unsupported (h : ∀ entry, ¬ i.Fits operands entry) :
    i.fit operands = .error (.atToken (.unsupportedMode i.key operands.mode) i.text) := by
  cases hfit : i.fit operands with
  | error d => rw [fit_eq_error hfit]
  | ok r =>
      obtain ⟨op, -, -, rfl⟩ := fit_eq_ok_iff.mp hfit
      exact absurd (fit_eq_ok_iff_fits.mp hfit) (h op)

theorem Outcome.resolve_eq {r : Except Diagnostic (Opcode × Operands)}
    (h : i.Outcome symbols r) : i.resolve symbols = r := by
  cases h with
  | missing hops =>
      simp only [resolve, hops]
      cases hfit : i.fitNone with
      | error d => rw [fitNone_eq_error hfit]
      | ok r => exact absurd hfit (i.fitNone_ne_ok r)
  | @tooMany extra hextra =>
      unfold resolve
      split
      · rename_i hops
        simp [hops] at hextra
      · rename_i hops
        simp [hops] at hextra
      · rename_i hops
        simp [hops] at hextra
      · rename_i third _ hops
        have hthird : third = extra := by simpa [hops] using hextra
        rw [hthird]
  | malformed hop => exact hop.resolve_eq
  | undefined hi hop => exact hop.resolve_eq hi
  | unsupported _ _ hshape hfits => rw [hshape.resolve_eq, fit_eq_unsupported hfits]
  | ok _ _ hshape hfits => rw [hshape.resolve_eq, fit_eq_ok_iff_fits.mpr hfits]

/-! ## There is always an outcome -/

theorem exists_value_of_not_misses (hops : op ∈ i.operands) (hname : isSymbolName op.text = true)
    (hneeded : ¬ (i.operands = [op] ∧ isBranch i.key = true)) (h : ¬ i.Misses symbols op) :
    ∃ value, symbols.value? op.text = some value := by
  rw [SymbolTable.value?_isSome_iff]
  by_contra habsent
  exact h ⟨hops, hname, hneeded, habsent⟩

/-- Where all is in place and known, the operands have a shape. -/
theorem WellPlaced.exists_hasShape (h : i.WellPlaced) (hknown : ∀ op, ¬ i.Misses symbols op) :
    ∃ operands, i.HasShape symbols operands := by
  rcases h.length with hlength | hlength
  · obtain ⟨op, hops⟩ := List.length_eq_one_iff.mp hlength
    by_cases hreg : NamesRegister op.text
    · obtain ⟨r, hr⟩ := hreg
      exact ⟨_, .reg hops hr⟩
    · by_cases hident : isIdentifier op.text = true
      · have hname := isSymbolName_of_not_namesRegister hreg hident
        by_cases hbranch : isBranch i.key = true
        · exact ⟨_, .branchTo hops hbranch hname⟩
        · obtain ⟨value, hvalue⟩ := exists_value_of_not_misses (by simp [hops]) hname
            (fun hbad => hbranch hbad.2) (hknown op)
          exact ⟨_, .symbol hops (by simpa using hbranch) hname hvalue⟩
      · have hhere : op.text = ['*'] ∧ isBranch i.key = true := by
          by_contra hhere
          exact h.placed op (.only hops hreg (by simpa using hident) hhere)
        exact ⟨_, .branchHere hops hhere.2 hhere.1⟩
  · obtain ⟨first, second, hops⟩ := List.length_eq_two.mp hlength
    have hfirst : NamesRegister first.text := by
      by_contra hreg
      exact h.placed first (.first hops hreg)
    have hsecond : ¬ (second.text = ['*'] ∨ ∀ o : Operand, ¬ o.WrittenAs second.text) :=
      fun hother => h.placed second (.second hops hfirst hother)
    rw [not_or, not_forall] at hsecond
    obtain ⟨hstar, o, ho⟩ := hsecond
    obtain ⟨r, hr⟩ := hfirst
    have ho := not_not.mp ho
    cases o with
    | reg s => exact ⟨_, .regPair hops hr ho⟩
    | imm value => exact ⟨_, .regImm hops hr ho⟩
    | addr value => exact ⟨_, .regAddr hops hr ho⟩
    | symbol name =>
        obtain ⟨rfl, hname⟩ := ho
        obtain ⟨value, hvalue⟩ := exists_value_of_not_misses (by simp [hops]) hname
          (by simp [hops]) (hknown second)
        exact ⟨_, .regSymbol hops hr hname hvalue⟩
    | here => exact absurd ho hstar

theorem WellPlaced.exists_outcome (h : i.WellPlaced) (symbols : SymbolTable) :
    ∃ r, i.Outcome symbols r := by
  by_cases hmisses : ∃ op, i.Misses symbols op
  · obtain ⟨op, hop⟩ := hmisses
    exact ⟨_, .undefined h hop⟩
  · have hknown := not_exists.mp hmisses
    obtain ⟨operands, hshape⟩ := h.exists_hasShape hknown
    by_cases hfits : ∃ entry, i.Fits operands entry
    · obtain ⟨entry, hentry⟩ := hfits
      exact ⟨_, .ok h hknown hshape hentry⟩
    · exact ⟨_, .unsupported h hknown hshape (not_exists.mp hfits)⟩

theorem exists_outcome (i : Instruction) (symbols : SymbolTable) : ∃ r, i.Outcome symbols r := by
  by_cases hlength : i.operands.length = 1 ∨ i.operands.length = 2
  · by_cases hplaced : ∃ op, i.Misplaces op
    · obtain ⟨op, hop⟩ := hplaced
      exact ⟨_, .malformed hop⟩
    · exact WellPlaced.exists_outcome ⟨hlength, not_exists.mp hplaced⟩ symbols
  · by_cases hnone : i.operands = []
    · exact ⟨_, .missing hnone⟩
    · have hlong : 2 < i.operands.length := by
        have := List.length_pos_iff.mpr hnone
        omega
      exact ⟨_, .tooMany (List.getElem?_eq_getElem hlong)⟩

/-- Resolving an instruction gives just the outcome of the rules. -/
theorem resolve_eq_iff_outcome {r : Except Diagnostic (Opcode × Operands)} :
    i.resolve symbols = r ↔ i.Outcome symbols r := by
  constructor
  · rintro rfl
    obtain ⟨r, hr⟩ := i.exists_outcome symbols
    rwa [hr.resolve_eq]
  · exact Outcome.resolve_eq

end Instruction

/-! ## Larger tables -/

/-- The second table has all symbols of the first, with the same values. -/
def SymbolTable.EnlargedTo (symbols symbols' : SymbolTable) : Prop :=
  ∀ name value, symbols.value? name = some value → symbols'.value? name = some value

namespace Instruction

variable {i : Instruction} {symbols symbols' : SymbolTable} {op : Token} {operands : Operands}

theorem HasShape.enlarge (hsymbols : symbols.EnlargedTo symbols')
    (h : i.HasShape symbols operands) : i.HasShape symbols' operands := by
  cases h with
  | reg hops hr => exact .reg hops hr
  | branchTo hops hbranch hname => exact .branchTo hops hbranch hname
  | branchHere hops hbranch hstar => exact .branchHere hops hbranch hstar
  | symbol hops hbranch hname hvalue =>
      exact .symbol hops hbranch hname (hsymbols _ _ hvalue)
  | regPair hops hr hs => exact .regPair hops hr hs
  | regImm hops hr hvalue => exact .regImm hops hr hvalue
  | regAddr hops hr haddr => exact .regAddr hops hr haddr
  | regSymbol hops hr hname hvalue => exact .regSymbol hops hr hname (hsymbols _ _ hvalue)

/-- What a larger table misses the smaller one misses too. -/
theorem Misses.shrink (hsymbols : symbols.EnlargedTo symbols') (h : i.Misses symbols' op) :
    i.Misses symbols op := by
  refine ⟨h.mem, h.named, h.needed, fun hmem => h.absent ?_⟩
  obtain ⟨value, hvalue⟩ := SymbolTable.value?_isSome_iff.mpr hmem
  exact SymbolTable.value?_isSome_iff.mp ⟨value, hsymbols _ _ hvalue⟩

/-- What becomes of an instruction when the table is enlarged: its outcome stays, or a symbol
that was missed is found, and then the operands have their shape and only the mode may fail. -/
inductive Keeps (symbols symbols' : SymbolTable) (i : Instruction) : Prop
  | same : i.resolve symbols' = i.resolve symbols → Keeps symbols symbols' i
  | found {op : Token} {value : UInt8} {operands : Operands} :
      i.resolve symbols = .error (.undefined op) → symbols'.value? op.text = some value →
      i.HasShape symbols' operands →
      ((∃ entry, i.resolve symbols' = .ok (entry, operands)) ∨ i.resolve symbols' =
        .error (.atToken (.unsupportedMode i.key operands.mode) i.text)) → Keeps symbols symbols' i

theorem Outcome.keeps {r : Except Diagnostic (Opcode × Operands)} (h : i.Outcome symbols r)
    (h' : i.Outcome symbols' r) : i.Keeps symbols symbols' :=
  .same (h'.resolve_eq.trans h.resolve_eq.symm)

theorem Misses.keeps (hsymbols : symbols.EnlargedTo symbols') (hi : i.WellPlaced)
    (h : i.Misses symbols op) : i.Keeps symbols symbols' := by
  by_cases hmisses : ∃ op', i.Misses symbols' op'
  · obtain ⟨op', hop'⟩ := hmisses
    exact (Outcome.undefined hi (hop'.shrink hsymbols)).keeps (.undefined hi hop')
  · have hknown := not_exists.mp hmisses
    obtain ⟨value, hvalue⟩ := exists_value_of_not_misses h.mem h.named h.needed (hknown op)
    obtain ⟨operands, hshape⟩ := hi.exists_hasShape hknown
    refine .found (h.resolve_eq hi) hvalue hshape ?_
    by_cases hfits : ∃ entry, i.Fits operands entry
    · obtain ⟨entry, hentry⟩ := hfits
      exact Or.inl ⟨entry, (Outcome.ok hi hknown hshape hentry).resolve_eq⟩
    · exact Or.inr (Outcome.unsupported hi hknown hshape (not_exists.mp hfits)).resolve_eq

theorem keeps_of_enlargedTo (hsymbols : symbols.EnlargedTo symbols') (i : Instruction) :
    i.Keeps symbols symbols' := by
  have hshrink : (∀ op, ¬ i.Misses symbols op) → ∀ op, ¬ i.Misses symbols' op :=
    fun hknown op hop => hknown op (hop.shrink hsymbols)
  obtain ⟨r, hr⟩ := i.exists_outcome symbols
  cases hr with
  | missing hops => exact (Outcome.missing hops).keeps (.missing hops)
  | tooMany hextra => exact (Outcome.tooMany hextra).keeps (.tooMany hextra)
  | malformed hop => exact (Outcome.malformed hop).keeps (.malformed hop)
  | undefined hi hop => exact hop.keeps hsymbols hi
  | unsupported hi hknown hshape hfits =>
      exact (Outcome.unsupported hi hknown hshape hfits).keeps
        (.unsupported hi (hshrink hknown) (hshape.enlarge hsymbols) hfits)
  | ok hi hknown hshape hfits =>
      exact (Outcome.ok hi hknown hshape hfits).keeps
        (.ok hi (hshrink hknown) (hshape.enlarge hsymbols) hfits)

/-- Resolving an instruction gives just the outcome of the rules. A larger table changes it only
where a symbol was missed. -/
theorem resolve_outcome (i : Instruction) (symbols : SymbolTable) :
    (∀ r, i.resolve symbols = r ↔ i.Outcome symbols r) ∧
      ∀ symbols', symbols.EnlargedTo symbols' → i.Keeps symbols symbols' :=
  ⟨fun _ => resolve_eq_iff_outcome, fun _ hsymbols => keeps_of_enlargedTo hsymbols i⟩

/-- A symbol is missed before it is seen that the mnemonic takes no address. -/
theorem resolve_outcome_add_key :
    (Instruction.ofToken ⟨"add KEY".toList, ⟨0, 7⟩, 1⟩).Outcome .empty
        (.error (.undefined ⟨"KEY".toList, ⟨4, 3⟩, 1⟩)) ∧
      SymbolTable.empty.EnlargedTo ⟨[⟨"KEY".toList, 0x1F, .const, 1⟩]⟩ ∧
      (Instruction.ofToken ⟨"add KEY".toList, ⟨0, 7⟩, 1⟩).Keeps .empty
        ⟨[⟨"KEY".toList, 0x1F, .const, 1⟩]⟩ ∧
      (Instruction.ofToken ⟨"add KEY".toList, ⟨0, 7⟩, 1⟩).Outcome
        ⟨[⟨"KEY".toList, 0x1F, .const, 1⟩]⟩
        (.error ⟨.unsupportedMode "ADD".toList .direct, 1, ⟨0, 7⟩⟩) := by
  have hlarger : SymbolTable.empty.EnlargedTo ⟨[⟨"KEY".toList, 0x1F, .const, 1⟩]⟩ := by
    intro name value h
    cases h
  exact ⟨((resolve_outcome _ _).1 _).mp rfl, hlarger, (resolve_outcome _ _).2 _ hlarger,
    ((resolve_outcome _ _).1 _).mp rfl⟩

end Instruction

end MightyAsm
