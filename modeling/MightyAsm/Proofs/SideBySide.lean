import MightyAsm.Assemble
import MightyAsm.Proofs.Rewording

/-!
# Two sources read side by side

Two sources whose lines match are read side by side, line by line, and the programs that they
mean are encoded side by side, statement by statement. Both runs do the same: they define
corresponding symbols, resolve to the same opcodes at the same addresses, and stop at
corresponding words if they stop at all.

* `Agree.bind`, `Agree.foldlM`: runs that agree step by step agree;
* `Program.Matches.addLine`: what one line does to two programs that match;
* `Program.ofSource_agree`, `assemble_agree`: sources whose lines match have the same image, or
  are refused for the same reason.
-/

namespace MightyAsm

/-! ## Results that agree -/

/-- Two runs agree: they end in corresponding values, or in corresponding errors. -/
inductive Agree {ε ε' α α' : Type} (E : ε → ε' → Prop) (A : α → α' → Prop) :
    Except ε α → Except ε' α' → Prop
  | ok {a : α} {a' : α'} : A a a' → Agree E A (.ok a) (.ok a')
  | error {e : ε} {e' : ε'} : E e e' → Agree E A (.error e) (.error e')

section Agree

variable {ε ε' α α' β β' : Type} {E : ε → ε' → Prop} {A : α → α' → Prop} {B : β → β' → Prop}

theorem Agree.refl {E : ε → ε → Prop} (hE : ∀ e, E e e) (x : Except ε α) : Agree E Eq x x := by
  cases x with
  | ok a => exact .ok rfl
  | error e => exact .error (hE e)

theorem Agree.bind {x : Except ε α} {x' : Except ε' α'} {f : α → Except ε β}
    {f' : α' → Except ε' β'} (hx : Agree E A x x')
    (hf : ∀ a a', A a a' → Agree E B (f a) (f' a')) : Agree E B (x >>= f) (x' >>= f') := by
  cases hx with
  | ok ha => exact hf _ _ ha
  | error he => exact .error he

theorem Agree.map {x : Except ε α} {x' : Except ε' α'} {f : α → β} {f' : α' → β'}
    (hx : Agree E A x x') (hf : ∀ a a', A a a' → B (f a) (f' a')) :
    Agree E B (f <$> x) (f' <$> x') := by
  cases hx with
  | ok ha => exact .ok (hf _ _ ha)
  | error he => exact .error he

theorem Agree.imp {A' : α → α' → Prop} {x : Except ε α} {x' : Except ε' α'} (hx : Agree E A x x')
    (h : ∀ a a', A a a' → A' a a') : Agree E A' x x' := by
  cases hx with
  | ok ha => exact .ok (h _ _ ha)
  | error he => exact .error he

theorem Agree.foldlM {R : β → β' → Prop} {f : α → β → Except ε α} {f' : α' → β' → Except ε' α'}
    (hf : ∀ a a' b b', A a a' → R b b' → Agree E A (f a b) (f' a' b')) {bs : List β}
    {bs' : List β'} (hbs : List.Forall₂ R bs bs') {a : α} {a' : α'} (ha : A a a') :
    Agree E A (bs.foldlM f a) (bs'.foldlM f' a') := by
  induction hbs generalizing a a' with
  | nil => exact .ok ha
  | @cons b b' bs bs' hb _ ih =>
      rw [List.foldlM_cons, List.foldlM_cons]
      exact (hf a a' b b' ha hb).bind fun c c' hc => ih hc

/-- A check that both runs make before they go on. -/
theorem Agree.check (c : Prop) [Decidable c] {e : ε} {e' : ε'} (he : E e e') {x : Except ε α}
    {x' : Except ε' α'} (hx : Agree E A x x') :
    Agree E A (if c then x else .error e) (if c then x' else .error e') := by
  by_cases hc : c
  · rwa [if_pos hc, if_pos hc]
  · rw [if_neg hc, if_neg hc]
    exact .error he

theorem Agree.exists_of_eq_ok {x : Except ε α} {x' : Except ε' α'} (h : Agree E A x x') {a : α}
    (hx : x = .ok a) : ∃ a', x' = .ok a' ∧ A a a' := by
  cases h with
  | ok ha =>
      cases hx
      exact ⟨_, rfl, ha⟩
  | error he => cases hx

theorem Agree.eq_ok_iff {x : Except ε α} {x' : Except ε' α} (h : Agree E Eq x x') {a : α} :
    x = .ok a ↔ x' = .ok a := by
  cases h with
  | ok ha => rw [ha]; simp
  | error he => simp

end Agree

section Relations

variable (R : Text → Text → Prop) (ρ : Nat → Nat → Prop)

/-! ## Programs -/

/-- The same reason for having no image. -/
inductive RomError.Matches : RomError → RomError → Prop
  | fault {d d' : Diagnostic} : d.Matches R ρ d' → Matches (.fault d) (.fault d')
  | outOfStep {line line' : Nat} : ρ line line' → Matches (.outOfStep line) (.outOfStep line')
  | overflow : Matches .overflow .overflow

/-- Symbols of the same kind and value with corresponding names. -/
structure Symbol.Matches (s s' : Symbol) : Prop where
  name : R s.name s'.name
  named : isSymbolName s.name = true
  value : s.value = s'.value
  kind : s.kind = s'.kind
  line : ρ s.line s'.line

def SymbolTable.Matches (t t' : SymbolTable) : Prop :=
  List.Forall₂ (Symbol.Matches R ρ) t.symbols t'.symbols

/-- The same operands, up to the names of the targets of branches. -/
inductive Operands.Matches : Operands → Operands → Prop
  | same {o : Operands} : (∀ t, o ≠ .branch (.symbol t)) → Matches o o
  | branch {t t' : Token} : t.Matches R ρ t' → isSymbolName t.text = true →
      Matches (.branch (.symbol t)) (.branch (.symbol t'))

/-- Statements with the same opcode and operands at the same address. -/
structure Statement.Matches (s s' : Statement) : Prop where
  line : ρ s.line s'.line
  addr : s.addr = s'.addr
  opcode : s.opcode = s'.opcode
  operands : s.operands.Matches R ρ s'.operands

structure Program.Matches (p p' : Program) : Prop where
  stmts : List.Forall₂ (Statement.Matches R ρ) p.stmts.toList p'.stmts.toList
  symbols : p.symbols.Matches R ρ p'.symbols
  size : p.size = p'.size

end Relations

section Runs

variable {R : Text → Text → Prop} {ρ : Nat → Nat → Prop}

theorem Diagnostic.Matches.atToken {fault fault' : Fault} {t t' : Token}
    (hfault : fault.Matches R ρ fault') (hline : ρ t.line t'.line) :
    (Diagnostic.atToken fault t).Matches R ρ (.atToken fault' t') :=
  ⟨hfault, hline⟩

theorem Token.Matches.malformed {t t' : Token} (h : t.Matches R ρ t') :
    (Diagnostic.malformed t).Matches R ρ (.malformed t') :=
  .atToken (.malformedOperand h.text) h.line

theorem Token.Matches.undefined {t t' : Token} (h : t.Matches R ρ t') :
    (Diagnostic.undefined t).Matches R ρ (.undefined t') :=
  .atToken (.unknownSymbol h.text) h.line

/-! ## Looking up symbols -/

section Tables

variable {symbols symbols' : SymbolTable} {t t' : Token}

theorem SymbolTable.Matches.find? (hR : Rewording R) (h : symbols.Matches R ρ symbols')
    {name name' : Text} (hname : R name name') (hsymbol : isSymbolName name = true) :
    Option.Rel (Symbol.Matches R ρ) (symbols.find? name) (symbols'.find? name') := by
  unfold SymbolTable.find?
  unfold SymbolTable.Matches at h
  generalize symbols.symbols = ss at h ⊢
  generalize symbols'.symbols = ss' at h ⊢
  induction h with
  | nil => exact .none
  | @cons s s' ss ss' hs _ ih =>
      have hsame := hR.name hs.name hname hs.named hsymbol
      by_cases heq : s.name = name
      · rw [List.find?_cons_of_pos (by simpa using heq),
          List.find?_cons_of_pos (by simpa using hsame.mp heq)]
        exact .some hs
      · rw [List.find?_cons_of_neg (by simpa using heq),
          List.find?_cons_of_neg (by simpa using fun h => heq (hsame.mpr h))]
        exact ih

theorem SymbolTable.Matches.value? (hR : Rewording R) (h : symbols.Matches R ρ symbols')
    {name name' : Text} (hname : R name name') (hsymbol : isSymbolName name = true) :
    symbols.value? name = symbols'.value? name' := by
  unfold SymbolTable.value?
  have hfind := h.find? hR hname hsymbol
  generalize symbols.find? name = x at hfind ⊢
  generalize symbols'.find? name' = x' at hfind ⊢
  cases hfind with
  | none => rfl
  | some hs => exact congrArg some hs.value

theorem SymbolTable.Matches.resolve (hR : Rewording R) (h : symbols.Matches R ρ symbols')
    (ht : t.Matches R ρ t') (hsymbol : isSymbolName t.text = true) :
    Agree (Diagnostic.Matches R ρ) Eq (symbols.resolve t) (symbols'.resolve t') := by
  unfold SymbolTable.resolve
  rw [h.value? hR ht.text hsymbol]
  cases symbols'.value? t'.text with
  | none => exact .error ht.undefined
  | some value => exact .ok rfl

/-! ## Instructions -/

theorem Operands.Matches.mode_eq {o o' : Operands} (h : o.Matches R ρ o') : o.mode = o'.mode := by
  cases h <;> rfl

theorem Operands.Matches.size_eq {o o' : Operands} (h : o.Matches R ρ o') : o.size = o'.size := by
  cases h <;> rfl

/-- An operand of either source is read as the same thing. -/
theorem Operands.ofOne_agree (hR : Rewording R) (h : symbols.Matches R ρ symbols')
    (mnemonic : Text) (ht : t.Matches R ρ t') :
    Agree (Diagnostic.Matches R ρ) (Operands.Matches R ρ) (ofOne symbols mnemonic t)
      (ofOne symbols' mnemonic t') := by
  have hop := hR.operand ht.text
  unfold ofOne
  generalize hx : Operand.ofText? t.text = x at hop ⊢
  generalize Operand.ofText? t'.text = x' at hop ⊢
  cases hop with
  | none => exact .error ht.malformed
  | some hop =>
      cases hop with
      | reg r => exact .ok (.same (by simp))
      | imm value => exact .error ht.malformed
      | addr value => exact .error ht.malformed
      | symbol _ =>
          obtain ⟨rfl, hname⟩ := Operand.ofText?_eq_symbol_iff.mp hx
          by_cases hbranch : isBranch mnemonic = true
          · simp only [hbranch, if_true]
            exact .ok (.branch ht hname)
          · simp only [hbranch]
            refine (h.resolve hR ht hname).map ?_
            rintro value _ rfl
            exact .same (by simp)
      | here =>
          exact Agree.check (isBranch mnemonic = true) ht.malformed (.ok (.same (by simp)))

theorem Operands.ofTwo_agree (hR : Rewording R) (h : symbols.Matches R ρ symbols')
    (ht : t.Matches R ρ t') {u u' : Token} (hu : u.Matches R ρ u') :
    Agree (Diagnostic.Matches R ρ) (Operands.Matches R ρ) (ofTwo symbols t u)
      (ofTwo symbols' t' u') := by
  have hfirst := hR.operand ht.text
  have hsecond := hR.operand hu.text
  unfold ofTwo
  generalize Operand.ofText? t.text = x at hfirst ⊢
  generalize Operand.ofText? t'.text = x' at hfirst ⊢
  generalize hy : Operand.ofText? u.text = y at hsecond ⊢
  generalize Operand.ofText? u'.text = y' at hsecond ⊢
  cases hfirst with
  | none => exact .error ht.malformed
  | some hfirst =>
      cases hfirst with
      | reg r =>
          cases hsecond with
          | none => exact .error hu.malformed
          | some hsecond =>
              cases hsecond with
              | reg s => exact .ok (.same (by simp))
              | imm value => exact .ok (.same (by simp))
              | addr value => exact .ok (.same (by simp))
              | symbol _ =>
                  obtain ⟨rfl, hname⟩ := Operand.ofText?_eq_symbol_iff.mp hy
                  refine (h.resolve hR hu hname).map ?_
                  rintro value _ rfl
                  exact .same (by simp)
              | here => exact .error hu.malformed
      | imm value => exact .error ht.malformed
      | addr value => exact .error ht.malformed
      | symbol _ => exact .error ht.malformed
      | here => exact .error ht.malformed

end Tables

section Instructions

variable {i i' : Instruction}

theorem Instruction.Matches.fit (h : i.Matches R ρ i') {o o' : Operands} (ho : o.Matches R ρ o') :
    Agree (Diagnostic.Matches R ρ) (fun r r' => r.1 = r'.1 ∧ r.2.Matches R ρ r'.2)
      (i.fit o) (i'.fit o') := by
  have hunsupported : (Instruction.fit.unsupported i o).Matches R ρ
      (Instruction.fit.unsupported i' o') := by
    unfold Instruction.fit.unsupported
    rw [h.key, ho.mode_eq]
    exact .atToken (.unsupportedMode _ _) h.line
  unfold Instruction.fit
  rw [h.key, ho.mode_eq, ho.size_eq]
  cases opcode? i'.key o'.mode with
  | none => exact .error hunsupported
  | some op =>
      exact Agree.check (op.operandSize = o'.size) hunsupported (.ok ⟨rfl, ho⟩)

theorem Instruction.Matches.fitNone (h : i.Matches R ρ i') :
    Agree (Diagnostic.Matches R ρ) (fun r r' => r.1 = r'.1 ∧ r.2.Matches R ρ r'.2)
      i.fitNone i'.fitNone := by
  have hmissing : (Instruction.fitNone.missing i).Matches R ρ (Instruction.fitNone.missing i') := by
    unfold Instruction.fitNone.missing
    rw [h.key]
    exact .atToken (.missingOperand _) h.line
  unfold Instruction.fitNone
  rw [h.key]
  cases opcode? i'.key .implied with
  | none => exact .error hmissing
  | some op =>
      exact Agree.check (op.operandSize = 0) hmissing (.ok ⟨rfl, .same (by simp)⟩)

theorem Instruction.Matches.resolve (hR : Rewording R) (h : i.Matches R ρ i')
    {symbols symbols' : SymbolTable} (hsymbols : symbols.Matches R ρ symbols') :
    Agree (Diagnostic.Matches R ρ) (fun r r' => r.1 = r'.1 ∧ r.2.Matches R ρ r'.2)
      (i.resolve symbols) (i'.resolve symbols') := by
  have hops := h.operands
  unfold Instruction.resolve
  generalize i.operands = ops at hops ⊢
  generalize i'.operands = ops' at hops ⊢
  cases hops with
  | nil => exact h.fitNone
  | cons hfirst hops =>
      cases hops with
      | nil =>
          rw [h.key]
          exact (Operands.ofOne_agree hR hsymbols _ hfirst).bind fun _ _ ho => h.fit ho
      | cons hsecond hops =>
          cases hops with
          | nil =>
              exact (Operands.ofTwo_agree hR hsymbols hfirst hsecond).bind fun _ _ ho => h.fit ho
          | cons hextra _ =>
              rw [h.key]
              exact .error (.atToken (.tooManyOperands _) hextra.line)

end Instructions

/-! ## Reading -/

namespace Program

variable {p p' : Program}

theorem matches_empty : empty.Matches R ρ empty :=
  ⟨.nil, .nil, rfl⟩

theorem Matches.define (hR : Rewording R) (h : p.Matches R ρ p') {name name' : Token}
    (hname : name.Matches R ρ name') (value : UInt8) (kind : SymbolKind) :
    Agree (Diagnostic.Matches R ρ) (Program.Matches R ρ) (p.define name value kind)
      (p'.define name' value kind) := by
  have hiff := hR.isSymbolName_iff hname.text
  unfold Program.define
  by_cases hsymbol : isSymbolName name.text = true
  · have hfind := h.symbols.find? hR hname.text hsymbol
    simp only [hsymbol, hiff.mp hsymbol, if_true, SymbolTable.insert]
    generalize p.symbols.find? name.text = x at hfind ⊢
    generalize p'.symbols.find? name'.text = x' at hfind ⊢
    cases hfind with
    | none =>
        refine .ok ⟨h.stmts, ?_, h.size⟩
        exact List.rel_append h.symbols (.cons ⟨hname.text, hsymbol, rfl, rfl, hname.line⟩ .nil)
    | some hfirst =>
        refine .error (.atToken ?_ hname.line)
        cases kind with
        | const => exact .duplicateSymbol hname.text hfirst.line
        | label => exact .duplicateLabel hname.text hfirst.line
  · simp only [hsymbol, show isSymbolName name'.text = false by simpa [hsymbol] using hiff]
    exact .error hname.malformed

theorem Matches.addLabel? (hR : Rewording R) (h : p.Matches R ρ p') {label label' : Option Token}
    (hlabel : Option.Rel (Token.Matches R ρ) label label') :
    Agree (Diagnostic.Matches R ρ) (Program.Matches R ρ) (p.addLabel? label)
      (p'.addLabel? label') := by
  cases hlabel with
  | none => exact .ok h
  | @some t t' ht =>
      simp only [Program.addLabel?, addLabel]
      rw [h.size]
      exact Agree.check (p'.size < 256) (.atToken (.labelOutOfRange _ ht.text) ht.line)
        (h.define hR ht _ _)

theorem Matches.addInstruction (hR : Rewording R) (h : p.Matches R ρ p') {line line' : Nat}
    (hline : ρ line line') {i i' : Instruction} (hi : i.Matches R ρ i') :
    Agree (Diagnostic.Matches R ρ) (Program.Matches R ρ) (p.addInstruction line i)
      (p'.addInstruction line' i') := by
  refine (hi.resolve hR h.symbols).bind ?_
  rintro ⟨op, o⟩ ⟨_, o'⟩ ⟨rfl, ho⟩
  refine .ok ⟨?_, h.symbols, congrArg (· + op.size) h.size⟩
  simp only [Array.toList_push]
  exact List.rel_append h.stmts (.cons ⟨hline, h.size, rfl, ho⟩ .nil)

/-- A line does the same to both programs. -/
theorem Matches.addLine (hR : Rewording R) (h : p.Matches R ρ p') {l l' : SourceLine}
    (hl : l.Matches R ρ l') :
    Agree (Diagnostic.Matches R ρ) (Program.Matches R ρ) (p.addLine l) (p'.addLine l') := by
  have hbody := hl.body
  unfold Program.addLine
  generalize l.body = b at hbody ⊢
  generalize l'.body = b' at hbody ⊢
  cases hbody with
  | blank => exact h.addLabel? hR hl.label
  | constant value hname =>
      exact (h.define hR hname value .const).bind fun _ _ hq => hq.addLabel? hR hl.label
  | instruction hi =>
      exact (h.addLabel? hR hl.label).bind fun _ _ hq => hq.addInstruction hR hl.line hi

theorem Matches.addLines (hR : Rewording R) (h : p.Matches R ρ p') {ls ls' : List SourceLine}
    (hls : List.Forall₂ (SourceLine.Matches R ρ) ls ls') :
    Agree (Diagnostic.Matches R ρ) (Program.Matches R ρ) (p.addLines ls) (p'.addLines ls') :=
  Agree.foldlM (fun _ _ _ _ hq hl => hq.addLine hR hl) hls h

/-- Sources whose lines match mean programs that match. -/
theorem ofSource_agree (hR : Rewording R) {src src' : Text}
    (h : List.Forall₂ (SourceLine.Matches R ρ) (sourceLines src) (sourceLines src')) :
    Agree (Diagnostic.Matches R ρ) (Program.Matches R ρ) (ofSource src) (ofSource src') :=
  matches_empty.addLines hR h

end Program

/-! ## Encoding -/

section Encoding

variable {symbols symbols' : SymbolTable}

theorem Token.Matches.encodeWith (hR : Rewording R) (h : symbols.Matches R ρ symbols')
    {t t' : Token} (ht : t.Matches R ρ t') (hsymbol : isSymbolName t.text = true)
    (distance? : UInt8 → Option Int) :
    Agree (RomError.Matches R ρ) Eq ((Target.symbol t).encodeWith symbols distance?)
      ((Target.symbol t').encodeWith symbols' distance?) := by
  simp only [Target.encodeWith]
  rw [h.value? hR ht.text hsymbol]
  cases symbols'.value? t'.text with
  | none => exact .error (.fault ht.undefined)
  | some dest =>
      cases hd : distance? dest with
      | none => simp only [hd]; exact .error .overflow
      | some distance =>
          simp only [hd]
          exact Agree.check (-128 ≤ distance ∧ distance ≤ 127)
            (.fault (.atToken (.branchOutOfRange distance ht.text) ht.line)) (.ok rfl)

theorem Operands.Matches.encode (hR : Rewording R) (h : symbols.Matches R ρ symbols')
    {o o' : Operands} (ho : o.Matches R ρ o') (pc : Nat) :
    Agree (RomError.Matches R ρ) Eq (o.encode symbols pc) (o'.encode symbols' pc) := by
  cases ho with
  | branch ht hsymbol =>
      refine (ht.encodeWith hR h hsymbol (branchDistance? pc)).bind ?_
      rintro b _ rfl
      exact .ok rfl
  | same hsame =>
      cases o with
      | branch target =>
          cases target with
          | here => exact .ok rfl
          | symbol t => exact absurd rfl (hsame t)
      | _ => exact .ok rfl

theorem Statement.Matches.encode (hR : Rewording R) (h : symbols.Matches R ρ symbols')
    {s s' : Statement} (hs : s.Matches R ρ s') (pc : Nat) :
    Agree (RomError.Matches R ρ) Eq (s.encode symbols pc) (s'.encode symbols' pc) := by
  have hstep : RomError.Matches R ρ (.outOfStep s.line) (.outOfStep s'.line) := .outOfStep hs.line
  unfold Statement.encode
  rw [hs.addr, hs.opcode]
  refine Agree.check (s'.addr = pc) hstep ?_
  refine (hs.operands.encode hR h pc).bind ?_
  rintro bytes _ rfl
  exact Agree.check (s'.opcode.size = bytes.length + 1) hstep (.ok rfl)

/-- Programs that match have the same image, or none for the same reason. -/
theorem Program.Matches.rom (hR : Rewording R) {p p' : Program} (h : p.Matches R ρ p') :
    Agree (RomError.Matches R ρ) Eq p.rom p'.rom := by
  unfold Program.rom
  rw [← Array.foldlM_toList, ← Array.foldlM_toList]
  refine Agree.foldlM ?_ h.stmts rfl
  rintro rom _ s s' rfl hs
  refine (hs.encode hR h.symbols rom.size).bind ?_
  rintro bytes _ rfl
  exact .ok rfl

end Encoding

/-- Sources whose lines match have the same image, or are refused for the same reason. -/
theorem assemble_agree (hR : Rewording R) {src src' : Text}
    (h : List.Forall₂ (SourceLine.Matches R ρ) (sourceLines src) (sourceLines src')) :
    Agree (RomError.Matches R ρ) Eq (assemble src) (assemble src') := by
  have hread := Program.ofSource_agree hR h
  unfold assemble
  generalize Program.ofSource src = x at hread ⊢
  generalize Program.ofSource src' = x' at hread ⊢
  cases hread with
  | ok hp => exact hp.rom hR
  | error hd => exact .error (.fault hd)

end Runs

end MightyAsm
