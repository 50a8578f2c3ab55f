import MightyAsm.Proofs.Places
import MightyAsm.Proofs.Prefixes

/-!
# What reading refuses

A line is refused for one of its tokens: for a name that it defines, for an operand of its
instruction, or for the instruction as a whole. A name is refused as a duplicate because of
its first definition, which the table has kept since.

* `Program.Records`: the table holds the names that the lines define, kept by each line
  (`Program.Records.addLine`);
* `Instruction.blames_of_resolve`, `Program.Records.blames_of_addLine`: for which token an
  instruction and a line are refused, and with which fault;
* `Program.exists_blames_of_ofSource`: a source is refused for the first line that is;
* `Program.standsIn_of_target`: the target of a branch is an operand on its line.
-/

namespace MightyAsm

/-! ## Defined names -/

/-- A name as a line defines it. -/
structure DefinedName where
  token : Token
  kind : SymbolKind
deriving DecidableEq, Repr

namespace SourceLine

def constantNames (l : SourceLine) : List DefinedName :=
  match l.body with
  | .constant name _ => [⟨name, .const⟩]
  | _ => []

def labelNames (l : SourceLine) : List DefinedName :=
  match l.label with
  | none => []
  | some label => [⟨label, .label⟩]

/-- The names that a line defines, a constant before the label. -/
def definedNames (l : SourceLine) : List DefinedName := l.constantNames ++ l.labelNames

theorem constantNames_of_constant {l : SourceLine} {t : Token} {c : ConstDef}
    (ht : l.instr = some t) (hc : ConstDef.read? t.text = some c) :
    l.constantNames = [⟨(Fragment.mk c.name t.span.offs).token l.line, .const⟩] := by
  simp only [constantNames, body, ht, hc]

theorem definedNames_of_blank {l : SourceLine} (h : l.instr = none) :
    l.definedNames = l.labelNames := by
  simp only [definedNames, constantNames, body, h, List.nil_append]

theorem definedNames_of_instruction {l : SourceLine} {t : Token} (ht : l.instr = some t)
    (hc : ConstDef.read? t.text = none) : l.definedNames = l.labelNames := by
  simp only [definedNames, constantNames, body, ht, hc, List.nil_append]

theorem hasToken_of_mem_definedNames {l : SourceLine} {x : DefinedName}
    (h : x ∈ l.definedNames) : l.HasToken x.token := by
  rcases List.mem_append.mp h with h | h
  · cases ht : l.instr with
    | none => simp [constantNames, body, ht] at h
    | some t =>
        cases hc : ConstDef.read? t.text with
        | none => simp [constantNames, body, ht, hc] at h
        | some c =>
            rw [constantNames_of_constant ht hc, List.mem_singleton] at h
            subst h
            exact .constant ht hc
  · unfold labelNames at h
    cases hl : l.label with
    | none => simp [hl] at h
    | some label =>
        rw [hl, List.mem_singleton] at h
        subst h
        exact .label hl

end SourceLine

/-- The second definition of a name among others, and the first one. -/
def Redefines (names : List DefinedName) (first second : DefinedName) : Prop :=
  ∃ before between after, names = before ++ first :: (between ++ second :: after) ∧
    first.token.text = second.token.text ∧
    ∀ x ∈ before ++ between, x.token.text ≠ second.token.text

theorem Redefines.append {names : List DefinedName} {first second : DefinedName}
    (h : Redefines names first second) (more : List DefinedName) :
    Redefines (names ++ more) first second := by
  obtain ⟨before, between, after, rfl, hrest⟩ := h
  exact ⟨before, between, after ++ more, by simp, hrest⟩

/-! ## The table -/

/-- The table of a program holds the names, in their order and each of them once. -/
structure Program.Records (p : Program) (names : List DefinedName) : Prop where
  table : p.symbols.symbols.map (fun s => (s.name, s.line)) =
    names.map fun x => (x.token.text, x.token.line)
  distinct : (names.map (·.token.text)).Nodup

namespace Program

variable {p p' : Program} {names : List DefinedName} {l : SourceLine} {d : Diagnostic}

theorem Records.names_eq (h : p.Records names) : p.symbols.names = names.map (·.token.text) := by
  have hfst := congrArg (List.map Prod.fst) h.table
  rwa [List.map_map, List.map_map] at hfst

theorem Records.withSymbol (h : p.Records names) (x : DefinedName) (value : UInt8)
    (hfree : x.token.text ∉ p.symbols.names) :
    (p.withSymbol ⟨x.token.text, value, x.kind, x.token.line⟩).Records (names ++ [x]) := by
  constructor
  · simp [Program.withSymbol, h.table]
  · rw [h.names_eq] at hfree
    rw [List.map_append, List.map_singleton, List.perm_append_comm.nodup_iff,
      List.singleton_append, List.nodup_cons]
    exact ⟨hfree, h.distinct⟩

theorem Records.withConstant (h : p.Records names) {t : Token} {c : ConstDef}
    (ht : l.instr = some t) (hc : ConstDef.read? t.text = some c)
    (hfree : c.name ∉ p.symbols.names) :
    (p.withSymbol ⟨c.name, c.value, .const, l.line⟩).Records (names ++ l.constantNames) := by
  rw [SourceLine.constantNames_of_constant ht hc]
  exact h.withSymbol ⟨(Fragment.mk c.name t.span.offs).token l.line, .const⟩ c.value hfree

theorem Records.addLabel? (h : p.Records names) (hp : p.addLabel? l.label = .ok p') :
    p'.Records (names ++ l.labelNames) := by
  unfold SourceLine.labelNames
  cases hl : l.label with
  | none =>
      rw [hl] at hp
      cases addLabel?_none_eq_ok_iff.mp hp
      rwa [List.append_nil]
  | some label =>
      rw [hl] at hp
      obtain ⟨-, -, hfree, rfl⟩ := addLabel?_some_eq_ok_iff.mp hp
      exact h.withSymbol ⟨label, .label⟩ _ hfree

theorem Records.addLine (h : p.Records names) (hp : p.addLine l = .ok p') :
    p'.Records (names ++ l.definedNames) := by
  cases ht : l.instr with
  | none =>
      rw [addLine_of_blank ht] at hp
      rw [SourceLine.definedNames_of_blank ht]
      exact h.addLabel? hp
  | some t =>
      cases hc : ConstDef.read? t.text with
      | some c =>
          obtain ⟨-, hfree, hp⟩ := (addLine_of_constant_eq_ok_iff ht hc).mp hp
          rw [SourceLine.definedNames, ← List.append_assoc]
          exact (h.withConstant ht hc hfree).addLabel? hp
      | none =>
          obtain ⟨q, op, operands, hq, -, rfl⟩ := (addLine_of_instruction_eq_ok_iff ht hc).mp hp
          rw [SourceLine.definedNames_of_instruction ht hc]
          have hlabel := h.addLabel? hq
          exact ⟨hlabel.table, hlabel.distinct⟩

theorem records_of_addLines {ls : List SourceLine} (h : empty.addLines ls = .ok p) :
    p.Records (ls.flatMap SourceLine.definedNames) := by
  refine @addLines_induction empty p
    (fun done q => q.Records (done.flatMap SourceLine.definedNames)) ?_ [] ls ?_ h
  · intro done l q q' hq hstep
    rw [List.flatMap_append, List.flatMap_singleton]
    exact hq.addLine hstep
  · exact ⟨rfl, List.nodup_nil⟩

/-- A name that the table has was defined first by one of the recorded definitions. -/
theorem Records.exists_redefines (h : p.Records names) {x : DefinedName} {s : Symbol}
    (hs : p.symbols.find? x.token.text = some s) (rest : List DefinedName) :
    ∃ first, first.token.line = s.line ∧ Redefines (names ++ x :: rest) first x := by
  have hname : s.name = x.token.text := by simpa using List.find?_some hs
  have hmem : (s.name, s.line) ∈ names.map fun y => (y.token.text, y.token.line) :=
    h.table ▸ List.mem_map_of_mem (List.mem_of_find?_eq_some hs)
  obtain ⟨first, hfirst, heq⟩ := List.mem_map.mp hmem
  obtain ⟨htext, hline⟩ := Prod.mk.inj heq
  obtain ⟨before, between, rfl⟩ := List.append_of_mem hfirst
  -- No other recorded name is the same, so that this one is the first of the name.
  have hdistinct := h.distinct
  rw [List.map_append, List.map_cons, List.perm_middle.nodup_iff, ← List.map_append,
    List.nodup_cons] at hdistinct
  refine ⟨first, hline, before, between, rest, by simp, htext.trans hname, ?_⟩
  intro y hy hsame
  refine hdistinct.1 (List.mem_map.mpr ⟨y, hy, ?_⟩)
  rw [hsame, htext, hname]

end Program

/-! ## Tokens to blame -/

/-- The faults that an instruction may be refused with, and the token to blame for each. -/
inductive Instruction.Blames (i : Instruction) : Fault → Token → Prop
  | missing : Blames i (.missingOperand i.key) i.text
  | malformed {op : Token} : op ∈ i.operands → Blames i (.malformedOperand op.text) op
  | undefined {op : Token} : op ∈ i.operands → Blames i (.unknownSymbol op.text) op
  | unsupported {mode : Mode} : Blames i (.unsupportedMode i.key mode) i.text
  | tooMany {op : Token} : i.operands[2]? = some op → Blames i (.tooManyOperands i.key) op

/-- The faults that a line may be refused with after lines that define names, and the token to
blame for each. -/
inductive SourceLine.Blames (names : List DefinedName) (l : SourceLine) : Fault → Token → Prop
  | malformedName {x : DefinedName} : x ∈ l.definedNames →
      Blames names l (.malformedOperand x.token.text) x.token
  | duplicate {first x : DefinedName} : x ∈ l.definedNames →
      Redefines (names ++ l.definedNames) first x →
      Blames names l (Program.duplicate x.kind x.token.text first.token.line) x.token
  | labelOutOfRange {label : Token} {addr : Nat} : l.label = some label →
      Blames names l (.labelOutOfRange label.text addr) label
  | instruction {t : Token} {fault : Fault} {token : Token} : l.instr = some t →
      (Instruction.ofToken t).Blames fault token → Blames names l fault token

theorem SourceLine.Blames.hasToken {names : List DefinedName} {l : SourceLine} {fault : Fault}
    {t : Token} (h : l.Blames names fault t) : l.HasToken t := by
  cases h with
  | malformedName hx => exact hasToken_of_mem_definedNames hx
  | duplicate hx _ => exact hasToken_of_mem_definedNames hx
  | labelOutOfRange hl => exact .label hl
  | instruction ht h =>
      cases h with
      | missing => exact .instr ht
      | malformed hop => exact .operand ht hop
      | undefined hop => exact .operand ht hop
      | unsupported => exact .instr ht
      | tooMany hop => exact .operand ht (List.mem_of_getElem? hop)

/-! ### Instructions -/

section Instruction

variable {i : Instruction} {symbols : SymbolTable} {d : Diagnostic}

theorem SymbolTable.resolve_eq_error_iff {t : Token} :
    symbols.resolve t = .error d ↔ symbols.value? t.text = none ∧ d = .undefined t := by
  unfold SymbolTable.resolve
  cases symbols.value? t.text <;> simp [eq_comm]

theorem Operands.ofOne_eq_error {mnemonic : Text} {op : Token}
    (h : ofOne symbols mnemonic op = .error d) : d = .malformed op ∨ d = .undefined op := by
  unfold ofOne at h
  split at h
  · cases h
  · split at h
    · cases h
    · obtain ⟨-, hd⟩ := SymbolTable.resolve_eq_error_iff.mp (map_eq_error_iff.mp h)
      exact Or.inr hd
  · split at h
    · cases h
    · cases h
      exact Or.inl rfl
  · cases h
    exact Or.inl rfl

theorem Operands.ofTwo_eq_error {first second : Token}
    (h : ofTwo symbols first second = .error d) :
    d = .malformed first ∨ d = .malformed second ∨ d = .undefined second := by
  unfold ofTwo at h
  split at h
  · split at h
    · cases h
    · cases h
    · cases h
    · obtain ⟨-, hd⟩ := SymbolTable.resolve_eq_error_iff.mp (map_eq_error_iff.mp h)
      exact Or.inr (Or.inr hd)
    · cases h
      exact Or.inr (Or.inl rfl)
  · cases h
    exact Or.inl rfl

theorem Instruction.fit_eq_error {operands : Operands} (h : i.fit operands = .error d) :
    d = .atToken (.unsupportedMode i.key operands.mode) i.text := by
  unfold Instruction.fit at h
  split at h
  · split at h
    · cases h
    · cases h
      rfl
  · cases h
    rfl

theorem Instruction.fitNone_eq_error (h : i.fitNone = .error d) :
    d = .atToken (.missingOperand i.key) i.text := by
  unfold Instruction.fitNone at h
  split at h
  · split at h
    · cases h
    · cases h
      rfl
  · cases h
    rfl

/-- An instruction that does not resolve is refused for one of its tokens. -/
theorem Instruction.blames_of_resolve (h : i.resolve symbols = .error d) :
    ∃ fault t, d = .atToken fault t ∧ i.Blames fault t := by
  unfold Instruction.resolve at h
  split at h
  · exact ⟨_, _, fitNone_eq_error h, .missing⟩
  · rename_i op hops
    have hop : op ∈ i.operands := by simp [hops]
    rcases bind_eq_error_iff.mp h with h | ⟨operands, -, h⟩
    · rcases Operands.ofOne_eq_error h with rfl | rfl
      · exact ⟨_, _, rfl, .malformed hop⟩
      · exact ⟨_, _, rfl, .undefined hop⟩
    · exact ⟨_, _, fit_eq_error h, .unsupported⟩
  · rename_i first second hops
    have hfirst : first ∈ i.operands := by simp [hops]
    have hsecond : second ∈ i.operands := by simp [hops]
    rcases bind_eq_error_iff.mp h with h | ⟨operands, -, h⟩
    · rcases Operands.ofTwo_eq_error h with rfl | rfl | rfl
      · exact ⟨_, _, rfl, .malformed hfirst⟩
      · exact ⟨_, _, rfl, .malformed hsecond⟩
      · exact ⟨_, _, rfl, .undefined hsecond⟩
    · exact ⟨_, _, fit_eq_error h, .unsupported⟩
  · rename_i extra _ hops
    cases h
    exact ⟨_, _, rfl, .tooMany (by simp [hops])⟩

end Instruction

/-! ### Lines -/

namespace Program

variable {p : Program} {names : List DefinedName} {l : SourceLine} {d : Diagnostic}

theorem define_eq_error {name : Token} {value : UInt8} {kind : SymbolKind}
    (h : p.define name value kind = .error d) :
    d = .malformed name ∨ ∃ s, p.symbols.find? name.text = some s ∧
      d = .atToken (duplicate kind name.text s.line) name := by
  unfold define at h
  split at h
  · split at h
    · cases h
    · rename_i first hinsert
      cases h
      exact Or.inr ⟨first, SymbolTable.insert_eq_error_iff.mp hinsert, rfl⟩
  · cases h
    exact Or.inl rfl

theorem addInstruction_eq_error_iff {line : Nat} {i : Instruction} :
    p.addInstruction line i = .error d ↔ i.resolve p.symbols = .error d := by
  unfold addInstruction
  rw [bind_eq_error_iff]
  simp [pure, Except.pure]

/-- A name that cannot be defined is to blame itself. -/
theorem Records.blames_of_define {new rest : List DefinedName} {x : DefinedName} {value : UInt8}
    (h : p.Records (names ++ new)) (hl : l.definedNames = new ++ x :: rest)
    (hp : p.define x.token value x.kind = .error d) :
    ∃ fault t, d = .atToken fault t ∧ l.Blames names fault t := by
  have hx : x ∈ l.definedNames := by simp [hl]
  rcases define_eq_error hp with rfl | ⟨s, hs, rfl⟩
  · exact ⟨_, _, rfl, .malformedName hx⟩
  · obtain ⟨first, hline, hfirst⟩ := h.exists_redefines hs rest
    rw [List.append_assoc, ← hl] at hfirst
    exact ⟨_, _, rfl, hline ▸ .duplicate hx hfirst⟩

theorem Records.blames_of_addLabel? {new : List DefinedName} (h : p.Records (names ++ new))
    (hl : l.definedNames = new ++ l.labelNames) (hp : p.addLabel? l.label = .error d) :
    ∃ fault t, d = .atToken fault t ∧ l.Blames names fault t := by
  cases hlabel : l.label with
  | none =>
      rw [hlabel] at hp
      cases hp
  | some label =>
      rw [hlabel, Program.addLabel?, addLabel] at hp
      split at hp
      · have hname : l.labelNames = [⟨label, .label⟩] := by
          simp only [SourceLine.labelNames, hlabel]
        rw [hname] at hl
        exact h.blames_of_define hl hp
      · cases hp
        exact ⟨_, _, rfl, .labelOutOfRange hlabel⟩

/-- A line that cannot be added is refused for one of its tokens. -/
theorem Records.blames_of_addLine (h : p.Records names) (hp : p.addLine l = .error d) :
    ∃ fault t, d = .atToken fault t ∧ l.Blames names fault t := by
  have hnil : p.Records (names ++ []) := by rwa [List.append_nil]
  cases ht : l.instr with
  | none =>
      rw [addLine_of_blank ht] at hp
      exact hnil.blames_of_addLabel? (SourceLine.definedNames_of_blank ht) hp
  | some t =>
      cases hc : ConstDef.read? t.text with
      | some c =>
          simp only [Program.addLine, SourceLine.body, ht, hc] at hp
          rcases bind_eq_error_iff.mp hp with hp | ⟨q, hq, hp⟩
          · have hl : l.definedNames = [] ++ _ :: l.labelNames :=
              congrArg (· ++ l.labelNames) (SourceLine.constantNames_of_constant ht hc)
            exact hnil.blames_of_define hl hp
          · -- The label is refused by a table that has the constant of its line already.
            obtain ⟨-, hfree, rfl⟩ := define_eq_ok_iff.mp hq
            exact (h.withConstant ht hc hfree).blames_of_addLabel? rfl hp
      | none =>
          simp only [Program.addLine, SourceLine.body, ht, hc] at hp
          rcases bind_eq_error_iff.mp hp with hp | ⟨q, -, hp⟩
          · exact hnil.blames_of_addLabel? (SourceLine.definedNames_of_instruction ht hc) hp
          · obtain ⟨fault, token, hd, hblames⟩ :=
              Instruction.blames_of_resolve (addInstruction_eq_error_iff.mp hp)
            exact ⟨fault, token, hd, .instruction ht hblames⟩

/-! ### Sources -/

/-- Reading stops at the first line that is refused. -/
theorem addLines_eq_error_iff {ls : List SourceLine} :
    p.addLines ls = .error d ↔ ∃ before l after q, ls = before ++ l :: after ∧
      p.addLines before = .ok q ∧ q.addLine l = .error d :=
  foldlM_eq_error_iff

theorem exists_blames_of_ofSource {src : Text} (h : ofSource src = .error d) :
    ∃ before l after q fault t, allLines src = before ++ l :: after ∧
      empty.addLines before = .ok q ∧ q.addLine l = .error d ∧ d = .atToken fault t ∧
      l.Blames (before.flatMap SourceLine.definedNames) fault t := by
  rw [ofSource_eq_addLines] at h
  obtain ⟨before, l, after, q, hsplit, hq, hl⟩ := addLines_eq_error_iff.mp h
  obtain ⟨fault, t, hd, hblames⟩ := (records_of_addLines hq).blames_of_addLine hl
  exact ⟨before, l, after, q, fault, t, hsplit, hq, hl, hd, hblames⟩

end Program

/-! ## Targets of branches -/

theorem Operands.eq_of_ofOne_branch {symbols : SymbolTable} {mnemonic : Text} {op name : Token}
    (h : ofOne symbols mnemonic op = .ok (.branch (.symbol name))) : name = op := by
  unfold ofOne at h
  split at h
  · cases h
  · split at h
    · cases h
      rfl
    · obtain ⟨value, -, hvalue⟩ := map_eq_ok_iff.mp h
      cases hvalue
  · split at h
    · cases h
    · cases h
  · cases h

theorem Operands.ofTwo_ne_branch {symbols : SymbolTable} {first second : Token}
    {target : Target} : ofTwo symbols first second ≠ .ok (.branch target) := by
  intro h
  unfold ofTwo at h
  split at h
  · split at h
    · cases h
    · cases h
    · cases h
    · obtain ⟨value, -, hvalue⟩ := map_eq_ok_iff.mp h
      cases hvalue
    · cases h
  · cases h

/-- The target of a branch is an operand of its instruction. -/
theorem Instruction.mem_operands_of_resolve {i : Instruction} {symbols : SymbolTable}
    {op : Opcode} {name : Token} (h : i.resolve symbols = .ok (op, .branch (.symbol name))) :
    name ∈ i.operands := by
  obtain ⟨operands, hfit, hread⟩ := Instruction.exists_fit_of_resolve h
  obtain ⟨op', -, -, heq⟩ := Instruction.fit_eq_ok_iff.mp hfit
  cases heq
  rcases hread with ⟨o, hops, hread⟩ | ⟨first, second, hops, hread⟩
  · rw [Operands.eq_of_ofOne_branch hread, hops]
    exact List.mem_singleton_self o
  · exact absurd hread Operands.ofTwo_ne_branch

namespace Program

/-- Every statement is what the instruction of its line resolves to. -/
theorem exists_line_of_mem_stmts {src : Text} {p : Program} {s : Statement}
    (h : ofSource src = .ok p) (hs : s ∈ p.stmts.toList) :
    ∃ l ∈ allLines src, ∃ t symbols, l.line = s.line ∧ l.instr = some t ∧
      (Instruction.ofToken t).resolve symbols = .ok (s.opcode, s.operands) := by
  rw [ofSource_eq_addLines] at h
  refine @addLines_induction empty p (fun done q => ∀ s ∈ q.stmts.toList,
    ∃ l ∈ done, ∃ t symbols, l.line = s.line ∧ l.instr = some t ∧
      (Instruction.ofToken t).resolve symbols = .ok (s.opcode, s.operands)) ?_ []
    (allLines src) (by simp [empty]) h s hs
  intro done l q q' hq hstep s hs
  have hold : s ∈ q.stmts.toList → ∃ l' ∈ done ++ [l], ∃ t symbols, l'.line = s.line ∧
      l'.instr = some t ∧
      (Instruction.ofToken t).resolve symbols = .ok (s.opcode, s.operands) := by
    intro hs
    obtain ⟨l', hl', hrest⟩ := hq s hs
    exact ⟨l', List.mem_append_left _ hl', hrest⟩
  rcases addLine_cases hstep with ⟨hstmts, -⟩ | ⟨t, op, operands, ht, hresolve, hstmts, -⟩
  · rw [hstmts] at hs
    exact hold hs
  · rw [hstmts, Array.toList_push, List.mem_append, List.mem_singleton] at hs
    rcases hs with hs | rfl
    · exact hold hs
    · exact ⟨l, by simp, t, q'.symbols, rfl, ht, hresolve⟩

theorem standsIn_of_target {src : Text} {p : Program} {s : Statement} {name : Token}
    (h : ofSource src = .ok p) (hs : s ∈ p.stmts.toList)
    (hname : s.operands = .branch (.symbol name)) : name.StandsIn src ∧ name.line = s.line := by
  obtain ⟨l, hl, t, symbols, hline, ht, hresolve⟩ := exists_line_of_mem_stmts h hs
  rw [hname] at hresolve
  rw [← hline]
  exact (SourceLine.HasToken.operand ht (Instruction.mem_operands_of_resolve hresolve)).standsIn hl

end Program

end MightyAsm
