import Mathlib.Data.List.Nodup
import MightyAsm.Proofs.Blame
import MightyAsm.Proofs.FailFast

/-!
# Symbols that have to be known

A branch may lead to a symbol that is defined further down. Every other use of a symbol is
looked up when its line is read, in the table of the lines before it and of its own label.
What is found there is what the completed table has, and what is not found is refused,
whatever comes later.

* `Instruction.LooksUp`: the operand whose value an instruction needs at once;
* `Instruction.LooksUp.exists_of_resolve`, `Instruction.LooksUp.resolve_eq_error`: such an
  instruction resolves only if it loads or stores and the table has the symbol;
* `Program.addLine_of_looksUp`, `Program.addLine_eq_undefined`: what that means for a line;
* `Program.looksBack`: what it means for a source.
-/

namespace MightyAsm

/-! ## Instructions -/

/-- The operand whose value an instruction needs at once: a symbol after a register, or a symbol
alone after a mnemonic that is no branch. -/
inductive Instruction.LooksUp (i : Instruction) : Token → Prop
  | second {first op : Token} {r : Register} : i.operands = [first, op] →
      Register.ofText? first.text = some r → isSymbolName op.text = true → LooksUp i op
  | only {op : Token} : i.operands = [op] → isBranch i.key = false →
      isSymbolName op.text = true → LooksUp i op

theorem Operand.ofText?_of_register {t : Text} {r : Register} (h : Register.ofText? t = some r) :
    Operand.ofText? t = some (.reg r) := by
  simp only [Operand.ofText?, h]

section Instruction

variable {i : Instruction} {op : Token} {symbols : SymbolTable}

theorem Instruction.LooksUp.mem_operands (h : i.LooksUp op) : op ∈ i.operands := by
  cases h with
  | second hops _ _ => simp [hops]
  | only hops _ _ => simp [hops]

theorem Instruction.LooksUp.ofText?_eq (h : i.LooksUp op) :
    Operand.ofText? op.text = some (.symbol op.text) := by
  cases h with
  | second _ _ hname => exact Operand.ofText?_eq_symbol_iff.mpr ⟨rfl, hname⟩
  | only _ _ hname => exact Operand.ofText?_eq_symbol_iff.mpr ⟨rfl, hname⟩

/-- The symbol is missed before it is known whether the machine has the instruction. -/
theorem Instruction.LooksUp.resolve_eq_error (h : i.LooksUp op)
    (hnone : symbols.value? op.text = none) : i.resolve symbols = .error (.undefined op) := by
  have hop := h.ofText?_eq
  have hresolve : symbols.resolve op = .error (.undefined op) :=
    SymbolTable.resolve_eq_error_iff.mpr ⟨hnone, rfl⟩
  cases h with
  | second hops hr _ =>
      simp only [Instruction.resolve, hops, Operands.ofTwo, Operand.ofText?_of_register hr, hop,
        hresolve]
      rfl
  | only hops hbranch _ =>
      simp only [Instruction.resolve, hops, Operands.ofOne, hop, hbranch, hresolve]
      rfl

/-- An instruction that resolves although it needs a symbol loads or stores a register, with the
value that the table has for the symbol. -/
theorem Instruction.LooksUp.exists_of_resolve {opcode : Opcode} {operands : Operands}
    (h : i.LooksUp op) (hresolve : i.resolve symbols = .ok (opcode, operands)) :
    ∃ (m : MemoryOp) (r : Register) (value : UInt8), i.key = m.name ∧
      symbols.value? op.text = some value ∧ operands = .regAddr r value := by
  have hop := h.ofText?_eq
  obtain ⟨c, ⟨hkey, hreads⟩, -, hden⟩ := Instruction.exists_command_of_resolve hresolve
  cases h with
  | @second first _ r hops hr _ =>
      have hc : c.operands = [.reg r, .symbol op.text] := by
        rw [hops, List.map_cons, List.map_singleton, Operand.ofText?_of_register hr, hop] at hreads
        exact List.map_injective_iff.mpr (Option.some_injective _) hreads.symm
      cases c with
      | memorySymbol m r' name =>
          simp only [Command.operands, List.cons.injEq, Operand.symbol.injEq] at hc
          obtain ⟨value, hvalue, hoperands⟩ := hden
          exact ⟨m, r', value, hkey, hc.2.1 ▸ hvalue, hoperands⟩
      | _ => simp [Command.operands] at hc
  | only hops hbranch _ =>
      have hc : c.operands = [.symbol op.text] := by
        rw [hops, List.map_singleton, hop] at hreads
        exact List.map_injective_iff.mpr (Option.some_injective _) hreads.symm
      cases c with
      | branchTo b name =>
          rw [hkey, Command.mnemonic, b.isBranch_name] at hbranch
          cases hbranch
      | _ => simp [Command.operands] at hc

/-- The single operand of a constant definition is no symbol. -/
theorem Instruction.LooksUp.read?_eq_none {t : Token} (h : (Instruction.ofToken t).LooksUp op) :
    ConstDef.read? t.text = none := by
  cases hc : ConstDef.read? t.text with
  | none => rfl
  | some c =>
      obtain ⟨hblank, hcut⟩ := ConstDef.cut_of_read? hc
      rw [← Instruction.map_text_operands_ofToken hblank] at hcut
      have hmem : some (Operand.symbol op.text) ∈ [none] := by
        rw [← hcut, ← h.ofText?_eq]
        exact List.mem_map_of_mem (List.mem_map_of_mem h.mem_operands)
      simp at hmem

end Instruction

/-! ## Lines -/

theorem SymbolTable.find?_of_prefix {t t' : SymbolTable} (h : t.symbols <+: t'.symbols)
    {name : Text} {s : Symbol} (hs : t.find? name = some s) : t'.find? name = some s := by
  obtain ⟨new, hnew⟩ := h
  rw [find?] at hs ⊢
  rw [← hnew, List.find?_append, hs]
  rfl

theorem SymbolTable.exists_find?_of_value? {t : SymbolTable} {name : Text} {value : UInt8}
    (h : t.value? name = some value) : ∃ s, t.find? name = some s ∧ s.value = value :=
  Option.map_eq_some_iff.mp h

namespace Program

variable {p q q' : Program} {l : SourceLine} {t op : Token}

/-- A label adds its own name to the table and no other. -/
theorem mem_names_addLabel? {label : Option Token} (h : q.addLabel? label = .ok q')
    {name : Text} : name ∈ q'.symbols.names ↔
      name ∈ q.symbols.names ∨ label.map (·.text) = some name := by
  cases label with
  | none =>
      cases addLabel?_none_eq_ok_iff.mp h
      simp
  | some label =>
      obtain ⟨-, -, -, rfl⟩ := addLabel?_some_eq_ok_iff.mp h
      simp [withSymbol, SymbolTable.names, eq_comm]

/-- A symbol that is found after a label has been added was there before, or is the label. -/
theorem mem_or_label_of_addLabel? {label : Option Token} (h : q.addLabel? label = .ok q')
    {name : Text} {s : Symbol} (hs : q'.symbols.find? name = some s) :
    s ∈ q.symbols.symbols ∨
      ∃ token, label = some token ∧ token.text = name ∧ s.kind = .label ∧ s.line = token.line := by
  have hmem := List.mem_of_find?_eq_some hs
  have hname : s.name = name := by simpa using List.find?_some hs
  cases label with
  | none =>
      cases addLabel?_none_eq_ok_iff.mp h
      exact Or.inl hmem
  | some token =>
      obtain ⟨-, -, -, rfl⟩ := addLabel?_some_eq_ok_iff.mp h
      rcases List.mem_append.mp hmem with hmem | hmem
      · exact Or.inl hmem
      · rw [List.mem_singleton] at hmem
        subst hmem
        exact Or.inr ⟨token, rfl, hname, rfl, rfl⟩

theorem addLine_eq_undefined (hlabel : q.addLabel? l.label = .ok q') (ht : l.instr = some t)
    (hop : (Instruction.ofToken t).LooksUp op) (hfree : op.text ∉ q.symbols.names)
    (hother : l.label.map (·.text) ≠ some op.text) : q.addLine l = .error (.undefined op) := by
  have hnone : q'.symbols.value? op.text = none := by
    rw [SymbolTable.value?, Option.map_eq_none_iff, SymbolTable.find?_eq_none_iff,
      mem_names_addLabel? hlabel, not_or]
    exact ⟨hfree, hother⟩
  simp only [addLine, SourceLine.body, ht, hop.read?_eq_none]
  refine bind_eq_error_iff.mpr (Or.inr ⟨q', hlabel, ?_⟩)
  exact addInstruction_eq_error_iff.mpr (hop.resolve_eq_error hnone)

/-- A line that needs a symbol adds a statement with the value of the symbol, which the table had
before or which labels the line. -/
theorem addLine_of_looksUp (h : q.addLine l = .ok q') (ht : l.instr = some t)
    (hop : (Instruction.ofToken t).LooksUp op) :
    ∃ (m : MemoryOp) (r : Register) (s : Symbol), (Instruction.ofToken t).key = m.name ∧
      q'.symbols.find? op.text = some s ∧
      (∃ st ∈ q'.stmts.toList, st.line = l.line ∧ st.operands = .regAddr r s.value) ∧
      (s ∈ q.symbols.symbols ∨ ∃ token, l.label = some token ∧ token.text = op.text ∧
        s.kind = .label ∧ s.line = token.line) := by
  obtain ⟨q₁, opcode, operands, hq₁, hresolve, rfl⟩ :=
    (addLine_of_instruction_eq_ok_iff ht hop.read?_eq_none).mp h
  obtain ⟨m, r, value, hkey, hvalue, rfl⟩ := hop.exists_of_resolve hresolve
  obtain ⟨s, hs, rfl⟩ := SymbolTable.exists_find?_of_value? hvalue
  refine ⟨m, r, s, hkey, hs, ?_, mem_or_label_of_addLabel? hq₁ hs⟩
  exact ⟨⟨l.line, q₁.size, opcode, .regAddr r s.value⟩, by simp, rfl, rfl⟩

/-! ## Sources -/

/-- The symbols of the lines before a line are defined on lines with smaller numbers. -/
theorem line_lt_of_mem_symbols {src : Text} {before after : List SourceLine} {s : Symbol}
    (hsplit : allLines src = before ++ l :: after) (hq : empty.addLines before = .ok q)
    (hs : s ∈ q.symbols.symbols) : s.line < l.line := by
  have hmem : (s.name, s.line) ∈ q.symbols.symbols.map fun s => (s.name, s.line) :=
    List.mem_map_of_mem hs
  rw [(records_of_addLines hq).table] at hmem
  obtain ⟨x, hx, heq⟩ := List.mem_map.mp hmem
  obtain ⟨l', hl', hx⟩ := List.mem_flatMap.mp hx
  have hline : x.token.line = l'.line :=
    line_of_mem_definedNames (by rw [hsplit]; exact List.mem_append_left _ hl') hx
  have hlines := allLines_pairwise_line src
  rw [hsplit] at hlines
  have hlt := (List.pairwise_append.mp hlines).2.2 l' hl' l List.mem_cons_self
  have hsame : x.token.line = s.line := (Prod.mk.inj heq).2
  omega

/-- Lines increase along the statements, so that a line has one statement at most. -/
theorem eq_of_line_eq {src : Text} {s s' : Statement} (h : ofSource src = .ok p)
    (hs : s ∈ p.stmts.toList) (hs' : s' ∈ p.stmts.toList) (hline : s.line = s'.line) :
    s = s' := by
  have hnodup : (p.stmts.toList.map (·.line)).Nodup := by
    rw [List.Nodup, List.pairwise_map]
    exact (pairwise_line_of_ofSource h).imp fun hlt => Nat.ne_of_lt hlt
  exact List.inj_on_of_nodup_map hnodup hs hs' hline

/-- Where a symbol that a line needs at once is defined: on a line before it, or as its own
label. -/
def DefinedUpTo (l : SourceLine) (s : Symbol) : Prop :=
  s.line < l.line ∨ s.line = l.line ∧ s.kind = .label ∧ l.label.map (·.text) = some s.name

/-- Only branches may use symbols that are defined further down. -/
structure LooksBack (src : Text) : Prop where
  /-- In a source that is read, a line that needs a symbol is the one statement that loads or
  stores a register with the value that the symbol has in the end, and the symbol is defined
  no later than on that line. -/
  resolved : ∀ p, ofSource src = .ok p → ∀ l ∈ allLines src, ∀ t op, l.instr = some t →
    (Instruction.ofToken t).LooksUp op →
    ∃ (m : MemoryOp) (r : Register) (s : Symbol), (Instruction.ofToken t).key = m.name ∧
      p.symbols.find? op.text = some s ∧ DefinedUpTo l s ∧
      (∃ st ∈ p.stmts.toList, st.line = l.line) ∧
      ∀ st ∈ p.stmts.toList, st.line = l.line → st.operands = .regAddr r s.value
  /-- A line that needs a symbol which neither the lines before it nor its own label define is
  refused for it, whatever lines follow. -/
  refused : ∀ before l after, allLines src = before ++ l :: after → ∀ q q' t op,
    ofSource (Text.join '\n' ((src.splitOn '\n').take before.length)) = .ok q →
    q.addLabel? l.label = .ok q' → l.instr = some t → (Instruction.ofToken t).LooksUp op →
    op.text ∉ q.symbols.names → l.label.map (·.text) ≠ some op.text →
    op.line = before.length + 1 ∧ ∀ more,
      ofSource (Text.join '\n' ((src.splitOn '\n').take (before.length + 1) ++ more)) =
        .error (.undefined op)

theorem definedUpTo_of_addLine {src : Text} {before after : List SourceLine} {s : Symbol}
    {name : Text} (hsplit : allLines src = before ++ l :: after)
    (hq : empty.addLines before = .ok q) (hname : s.name = name)
    (hs : s ∈ q.symbols.symbols ∨ ∃ token, l.label = some token ∧ token.text = name ∧
      s.kind = .label ∧ s.line = token.line) : DefinedUpTo l s := by
  rcases hs with hs | ⟨token, hlabel, htext, hkind, hline⟩
  · exact Or.inl (line_lt_of_mem_symbols hsplit hq hs)
  · have hl : l ∈ allLines src := by simp [hsplit]
    have htoken : token.line = l.line := ((SourceLine.HasToken.label hlabel).standsIn hl).2
    refine Or.inr ⟨hline.trans htoken, hkind, ?_⟩
    rw [hlabel, Option.map_some, htext, hname]

/-- Every use of a symbol other than as the target of a branch looks back. -/
theorem looksBack (src : Text) : LooksBack src := by
  constructor
  · intro p hp l hl t op ht hop
    obtain ⟨before, after, hsplit⟩ := List.append_of_mem hl
    have hrun := hp
    rw [ofSource_eq_addLines, hsplit, addLines_append] at hrun
    obtain ⟨q, hq, hrun⟩ := bind_eq_ok_iff.mp hrun
    obtain ⟨q', hq', hrun⟩ := addLines_cons.mp hrun
    obtain ⟨m, r, s, hkey, hs, ⟨st, hst, hline, hoperands⟩, hwhere⟩ :=
      addLine_of_looksUp hq' ht hop
    have hbegins := begins_of_addLines hrun
    have hname : s.name = op.text := by simpa using List.find?_some hs
    have hst := hbegins.stmts.subset hst
    refine ⟨m, r, s, hkey, SymbolTable.find?_of_prefix hbegins.symbols hs,
      definedUpTo_of_addLine hsplit hq hname hwhere, ⟨st, hst, hline⟩, ?_⟩
    intro st' hst' hline'
    rw [eq_of_line_eq hp hst' hst (hline'.trans hline.symm), hoperands]
  · intro before l after hsplit q q' t op hq hlabel ht hop hfree hother
    have hl : l ∈ allLines src := by simp [hsplit]
    rw [ofSource_join_take, hsplit, List.take_left] at hq
    refine ⟨?_, ofSource_join_append_eq_error hsplit hq
      (addLine_eq_undefined hlabel ht hop hfree hother)⟩
    rw [((SourceLine.HasToken.operand ht hop.mem_operands).standsIn hl).2,
      line_of_allLines_eq hsplit]

/-- A line may use its own label, and a name is missed even after an unknown mnemonic. -/
theorem looksBack_own_label :
    (∃ p, ofSource "INC A\nhere: ST B, here".toList = .ok p ∧
      ∃ s, p.symbols.find? "here".toList = some s ∧ s.value = 2 ∧
        ∀ st ∈ p.stmts.toList, st.line = 2 → ∃ r, st.operands = .regAddr r s.value) ∧
    ∀ more, ofSource (Text.join '\n' (["INC A".toList, "FOO KEY".toList] ++ more)) =
      .error (.undefined ⟨"KEY".toList, ⟨10, 3⟩, 2⟩) := by
  constructor
  · obtain ⟨p, hp, hsymbols⟩ : ∃ p, ofSource "INC A\nhere: ST B, here".toList = .ok p ∧
        p.symbols.find? "here".toList = some ⟨"here".toList, 2, .label, 2⟩ := ⟨_, rfl, rfl⟩
    obtain ⟨m, r, s, -, hs, -, -, hall⟩ := (looksBack "INC A\nhere: ST B, here".toList).resolved
      p hp ⟨2, some ⟨"here".toList, ⟨6, 4⟩, 2⟩, some ⟨"ST B, here".toList, ⟨12, 10⟩, 2⟩⟩
      (by decide) ⟨"ST B, here".toList, ⟨12, 10⟩, 2⟩ ⟨"here".toList, ⟨18, 4⟩, 2⟩ rfl
      (.second rfl rfl rfl)
    have hvalue : s.value = 2 := by
      rw [hsymbols] at hs
      cases hs
      rfl
    exact ⟨p, hp, s, hs, hvalue, fun st hst hline => ⟨r, hall st hst hline⟩⟩
  · exact ((looksBack "INC A\nFOO KEY".toList).refused
      [⟨1, none, some ⟨"INC A".toList, ⟨0, 5⟩, 1⟩⟩] ⟨2, none, some ⟨"FOO KEY".toList, ⟨6, 7⟩, 2⟩⟩
      [] rfl _ _ ⟨"FOO KEY".toList, ⟨6, 7⟩, 2⟩ ⟨"KEY".toList, ⟨10, 3⟩, 2⟩ rfl rfl rfl
      (.only rfl rfl rfl) (by decide) (by decide)).2

end Program

end MightyAsm
