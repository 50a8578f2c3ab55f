import MightyAsm.Proofs.Arguments
import MightyAsm.Proofs.NewNames
import MightyAsm.Proofs.Runs

/-!
# Reports of symbols

A check that prints symbols has one line for each symbol and ends in a line with the size of
the ROM image. No field of such a line has a blank in it, so the lines can be taken apart
again: what is printed determines the symbols, in their order, and the size.

* `readSymbol?_symbolLine`, `readSize?_successLine`: single lines are read back;
* `readReport?_printed`: a whole report is read back;
* `reportsFaithfully`: what a check of a file with symbols prints, and how it ends.
-/

namespace MightyAsm

/-! ## Names of symbols -/

namespace Program

variable {p p' : Program} {l : SourceLine}

/-- All symbols have names that a symbol can have. -/
def WellNamed (p : Program) : Prop := ∀ s ∈ p.symbols.symbols, isSymbolName s.name = true

theorem WellNamed.withSymbol {s : Symbol} (hp : p.WellNamed) (hs : isSymbolName s.name = true) :
    (p.withSymbol s).WellNamed := by
  intro s' hs'
  rcases List.mem_append.mp hs' with hs' | hs'
  · exact hp s' hs'
  · rw [List.mem_singleton.mp hs']
    exact hs

theorem WellNamed.addLabel? {label : Option Token} (hp : p.WellNamed)
    (h : p.addLabel? label = .ok p') : p'.WellNamed := by
  cases label with
  | none =>
      rw [addLabel?_none_eq_ok_iff.mp h]
      exact hp
  | some label =>
      obtain ⟨-, hname, -, rfl⟩ := addLabel?_some_eq_ok_iff.mp h
      exact hp.withSymbol hname

theorem WellNamed.addLine (hp : p.WellNamed) (h : p.addLine l = .ok p') : p'.WellNamed := by
  cases ht : l.instr with
  | none =>
      rw [addLine_of_blank ht] at h
      exact hp.addLabel? h
  | some t =>
      cases hc : ConstDef.read? t.text with
      | some c =>
          obtain ⟨hname, -, h⟩ := (addLine_of_constant_eq_ok_iff ht hc).mp h
          exact (hp.withSymbol hname).addLabel? h
      | none =>
          obtain ⟨q, op, operands, hq, -, rfl⟩ := (addLine_of_instruction_eq_ok_iff ht hc).mp h
          have hlabelled := hp.addLabel? hq
          exact hlabelled

theorem wellNamed_of_ofSource {src : Text} (h : ofSource src = .ok p) : p.WellNamed := by
  refine @addLines_induction empty p (fun _ q => q.WellNamed) ?_ [] (sourceLines src) ?_ h
  · intro done l q q' hq hstep
    exact hq.addLine hstep
  · intro s hs
    cases hs

end Program

/-! ## Fields -/

namespace Text

/-- A text without blanks, as a field of a line is. -/
def Solid (t : Text) : Prop := ∀ c ∈ t, isBlank c = false

instance (t : Text) : Decidable t.Solid :=
  List.decidableBAll (fun c => isBlank c = false) t

theorem Solid.not_mem {t : Text} {c : Char} (h : t.Solid) (hc : isBlank c = true) : c ∉ t := by
  intro hmem
  rw [h c hmem] at hc
  cases hc

theorem Solid.append {s t : Text} (hs : s.Solid) (ht : t.Solid) : Solid (s ++ t) := by
  intro c hc
  rcases List.mem_append.mp hc with hc | hc
  · exact hs c hc
  · exact ht c hc

theorem Solid.cons {c : Char} {t : Text} (hc : isBlank c = false) (ht : t.Solid) :
    Solid (c :: t) :=
  List.forall_mem_cons.mpr ⟨hc, ht⟩

theorem solid_of_isSymbolName {t : Text} (h : isSymbolName t = true) : t.Solid := by
  intro c hc
  exact not_isBlank_of_isIdentChar
    (isIdentChar_of_isIdentifier (isIdentifier_of_isSymbolName h) c hc)

theorem solid_hexOfByte (b : UInt8) : Solid (hexOfByte b) := by
  intro c hc
  exact isBlank_eq_false_of_isOperandChar (isOperandChar_of_hexByte? (hexByte?_hexOfByte b) c hc)

theorem solid_toString (n : Nat) : Solid (toString n).toList := by
  intro c hc
  rw [Nat.toString_eq_repr, Nat.toList_repr] at hc
  have hdigit := Char.isDigit_iff_toNat.mp (Nat.isDigit_of_mem_toDigits (by decide) (by decide) hc)
  apply not_isBlank_of_isIdentChar
  simp only [isIdentChar, isBetween, Bool.or_eq_true, Bool.and_eq_true, decide_eq_true_eq]
  exact Or.inr hdigit

end Text

namespace Cli

/-- The fields of a line, which has blanks before and between them. -/
def fields (line : Text) : List Text := Text.splitOn ' ' (line.dropWhile (· == ' '))

theorem fields_join (n : Nat) {first : Text} {rest : List Text} (hne : first ≠ [])
    (hsolid : ∀ field ∈ first :: rest, field.Solid) :
    fields (List.replicate n ' ' ++ Text.join ' ' (first :: rest)) = first :: rest := by
  have hblank : isBlank ' ' = true := by decide
  have hdrop : (List.replicate n ' ' ++ Text.join ' ' (first :: rest)).dropWhile (· == ' ') =
      Text.join ' ' (first :: rest) := by
    obtain ⟨c, tail, rfl⟩ := List.exists_cons_of_ne_nil hne
    have hc : c ≠ ' ' := by
      rintro rfl
      exact (hsolid _ List.mem_cons_self).not_mem hblank List.mem_cons_self
    obtain ⟨more, hmore⟩ : ∃ more, Text.join ' ' ((c :: tail) :: rest) = c :: more := by
      cases rest with
      | nil => exact ⟨tail, rfl⟩
      | cons second rest => exact ⟨_, rfl⟩
    rw [hmore, List.dropWhile_append_of_pos (by simp),
      List.dropWhile_cons_of_neg (by simpa using hc)]
  rw [fields, hdrop]
  exact Text.splitOn_join (by simp) fun field hfield => (hsolid field hfield).not_mem hblank

/-- A single line that has these fields. -/
structure HasFields (line : String) (parts : List Text) : Prop where
  fields : fields line.toList = parts
  single : '\n' ∉ line.toList

theorem hasFields_statusLine {word text : String} {rest : List Text} (hword : word.toList ≠ [])
    (hne : rest ≠ []) (htext : text.toList = Text.join ' ' rest)
    (hsolid : ∀ field ∈ word.toList :: rest, Text.Solid field) :
    HasFields (statusLine word text) (word.toList :: rest) := by
  have hline : (statusLine word text).toList =
      List.replicate (statusWidth - word.length) ' ' ++ Text.join ' ' (word.toList :: rest) := by
    obtain ⟨second, rest, rfl⟩ := List.exists_cons_of_ne_nil hne
    simp [statusLine, Text.join, htext]
  constructor
  · rw [hline, fields_join _ hword hsolid]
  · rw [hline]
    intro hmem
    rcases List.mem_append.mp hmem with hmem | hmem
    · exact absurd (List.eq_of_mem_replicate hmem) (by decide)
    · rcases Text.eq_or_mem_of_mem_join hmem with heq | ⟨field, hfield, hmem⟩
      · exact absurd heq (by decide)
      · exact (hsolid field hfield).not_mem (by decide) hmem

/-! ## Lines -/

/-- The kind of symbol that a name names. -/
def kindOf? (name : Text) : Option SymbolKind :=
  [SymbolKind.label, SymbolKind.const].find? fun kind => kind.name.toList == name

/-- The symbol that a line is about. -/
def readSymbol? (line : Text) : Option Symbol :=
  match fields line with
  | [kind, name, _, '$' :: value, _, number] => do
      return ⟨name, ← hexByte? value, ← kindOf? kind, Nat.ofDigitChars 10 number.dropLast 0⟩
  | _ => none

/-- The size that the last line of a check gives. -/
def readSize? (line : Text) : Option Nat :=
  match fields line with
  | [_, _, _, _, '(' :: number, _] => some (Nat.ofDigitChars 10 number 0)
  | _ => none

theorem hasFields_symbolLine {s : Symbol} (h : isSymbolName s.name = true) :
    HasFields (symbolLine s) [s.kind.name.toList, s.name, ['='], '$' :: hexOfByte s.value,
      ['(', 'l', 'i', 'n', 'e'], (toString s.line).toList ++ [')']] := by
  have hkind : ∀ kind : SymbolKind, kind.name.toList ≠ [] ∧ Text.Solid kind.name.toList := by
    rintro (_ | _)
    · decide
    · decide
  refine hasFields_statusLine (hkind s.kind).1 (by simp) (by simp [Text.join]) ?_
  simp only [List.forall_mem_cons]
  refine ⟨(hkind s.kind).2, Text.solid_of_isSymbolName h, by decide, ?_, by decide, ?_, by simp⟩
  · exact .cons (by decide) (Text.solid_hexOfByte s.value)
  · exact (Text.solid_toString s.line).append (by decide)

theorem hasFields_successLine (size : Nat) :
    HasFields (successLine size) ["Success".toList, "no".toList, "errors".toList,
      "found!".toList, '(' :: (toString size).toList, "bytes)".toList] := by
  refine hasFields_statusLine (by decide) (by simp) (by simp [Text.join]) ?_
  simp only [List.forall_mem_cons]
  refine ⟨by decide, by decide, by decide, by decide, ?_, by decide, by simp⟩
  exact .cons (by decide) (Text.solid_toString size)

theorem hasFields_noSymbols :
    HasFields (statusLine "Symbols" "none defined")
      ["Symbols".toList, "none".toList, "defined".toList] :=
  hasFields_statusLine (by decide) (by simp) (by decide) (by decide)

theorem ofDigitChars_toString (n : Nat) : Nat.ofDigitChars 10 (toString n).toList 0 = n := by
  rw [Nat.toString_eq_repr, Nat.toList_repr, Nat.ofDigitChars_ten_toDigits]

/-- The line on a symbol gives the symbol back. -/
theorem readSymbol?_symbolLine {s : Symbol} (h : isSymbolName s.name = true) :
    readSymbol? (symbolLine s).toList = some s := by
  have hkind : ∀ kind : SymbolKind, kindOf? kind.name.toList = some kind := by
    rintro (_ | _)
    · decide
    · decide
  rw [readSymbol?, (hasFields_symbolLine h).fields]
  simp only [hexByte?_hexOfByte, hkind, List.dropLast_concat, ofDigitChars_toString]
  rfl

theorem readSize?_successLine (size : Nat) : readSize? (successLine size).toList = some size := by
  rw [readSize?, (hasFields_successLine size).fields]
  exact congrArg some (ofDigitChars_toString size)

/-! ## Reports -/

/-- The symbols that lines are about. -/
def readSymbols? (lines : List Text) : Option (List Symbol) :=
  if lines = [(statusLine "Symbols" "none defined").toList] then some [] else lines.mapM readSymbol?

/-- The symbols and the size in what a check of a file has printed. -/
def readReport? (name : Text) (stdout : String) : Option (List Symbol × Nat) :=
  let lines := Text.splitOn '\n' (stdout.toList.drop ((fileLine "Checking" name).toList.length + 1))
  match lines.reverse with
  | _ :: success :: symbols => do return (← readSymbols? symbols.reverse, ← readSize? success)
  | _ => none

theorem toList_printed_cons (line : String) (lines : List String) :
    (printed (line :: lines)).toList = line.toList ++ '\n' :: (printed lines).toList := by
  simp [printed]

theorem splitOn_printed {lines : List String} (h : ∀ line ∈ lines, '\n' ∉ line.toList) :
    Text.splitOn '\n' (printed lines).toList = lines.map String.toList ++ [[]] := by
  induction lines with
  | nil => rfl
  | cons line lines ih =>
      obtain ⟨hline, hlines⟩ := List.forall_mem_cons.mp h
      rw [toList_printed_cons, Text.splitOn_append_sep hline, ih hlines]
      rfl

theorem mapM_readSymbol? {symbols : List Symbol}
    (h : ∀ s ∈ symbols, isSymbolName s.name = true) :
    ((symbols.map symbolLine).map String.toList).mapM readSymbol? = some symbols := by
  induction symbols with
  | nil => rfl
  | cons s symbols ih =>
      obtain ⟨hs, hsymbols⟩ := List.forall_mem_cons.mp h
      rw [List.map_cons, List.map_cons, List.mapM_cons, readSymbol?_symbolLine hs, ih hsymbols]
      rfl

section Symbols

variable {t : SymbolTable} (h : ∀ s ∈ t.symbols, isSymbolName s.name = true)

include h

theorem single_of_mem_symbolLines : ∀ line ∈ symbolLines t, '\n' ∉ line.toList := by
  intro line hline
  rw [symbolLines] at hline
  split at hline
  · rw [List.mem_singleton.mp hline]
    exact hasFields_noSymbols.single
  · obtain ⟨s, hs, rfl⟩ := List.mem_map.mp hline
    exact (hasFields_symbolLine (h s hs)).single

/-- The lines on symbols are told from the line that there are none. -/
theorem readSymbols?_symbolLines :
    readSymbols? ((symbolLines t).map String.toList) = some t.symbols := by
  rw [symbolLines]
  split
  · rename_i hempty
    rw [List.isEmpty_iff.mp hempty]
    rfl
  · have hread := mapM_readSymbol? h
    rw [readSymbols?, if_neg, hread]
    intro hnone
    have hfirst : readSymbol? (statusLine "Symbols" "none defined").toList = none := by
      rw [readSymbol?, hasFields_noSymbols.fields]
    rw [hnone, List.mapM_cons, hfirst] at hread
    cases hread

/-- A whole report gives back the symbols and the size. -/
theorem readReport?_printed (name : Text) (size : Nat) :
    readReport? name (printed (fileLine "Checking" name :: (symbolLines t ++ [successLine size]))) =
      some (t.symbols, size) := by
  have hlines : ∀ line ∈ symbolLines t ++ [successLine size], '\n' ∉ line.toList := by
    intro line hline
    rcases List.mem_append.mp hline with hline | hline
    · exact single_of_mem_symbolLines h line hline
    · rw [List.mem_singleton.mp hline]
      exact (hasFields_successLine size).single
  rw [readReport?, toList_printed_cons, List.append_cons, List.drop_left' (by simp),
    splitOn_printed hlines]
  simp only [List.map_append, List.map_singleton, List.reverse_append, List.reverse_singleton,
    List.singleton_append, List.reverse_reverse, readSymbols?_symbolLines h,
    readSize?_successLine]
  rfl

end Symbols

/-! ## Checks -/

/-- How checks of a file that print its symbols end, and what they print. -/
structure ReportsFaithfully (args : List Text) (name : Text) : Prop where
  /-- The check ends without an error exactly if the source has a ROM image. -/
  accepted : ∀ buildVar fs src, fs.text? name = some src →
    ((run args buildVar fs).1.status = 0 ↔ ∃ rom, assemble src = .ok rom)
  /-- If it has none, no symbol is printed, and the check ends as assembling the file does. -/
  refused : ∀ buildVar fs src, fs.text? name = some src → (∀ rom, assemble src ≠ .ok rom) →
    (run args buildVar fs).1.stdout = fileLine "Checking" name ++ "\n" ∧
    ∀ args' buildVar' out, Command.ofArgs? args' = some (.assemble name out) →
      (run args' buildVar' fs).1.status = (run args buildVar fs).1.status ∧
      (run args' buildVar' fs).1.message = (run args buildVar fs).1.message
  /-- A fault of the source is the message of the check. -/
  message : ∀ buildVar fs src d, fs.text? name = some src → assemble src = .error (.fault d) →
    (run args buildVar fs).1.message = some d.message
  /-- The symbols in their order and the size of the ROM image can be read from the report. -/
  readable : ∀ buildVar fs src p rom, fs.text? name = some src → Program.ofSource src = .ok p →
    p.rom = .ok rom →
    readReport? name (run args buildVar fs).1.stdout = some (p.symbols.symbols, rom.size)
  /-- Sources with the same report have the same symbols and ROM images of the same size. -/
  determined : ∀ buildVar buildVar' fs fs' src src' p p' rom rom',
    fs.text? name = some src → Program.ofSource src = .ok p → p.rom = .ok rom →
    fs'.text? name = some src' → Program.ofSource src' = .ok p' → p'.rom = .ok rom' →
    (run args buildVar fs).1.stdout = (run args buildVar' fs').1.stdout →
    p.symbols = p'.symbols ∧ rom.size = rom'.size

section Check

variable {args : List Text} {name src : Text} {fs : FileSystem}

theorem run_of_command {command : Command} (h : Command.ofArgs? args = some command)
    (buildVar : Option ByteArray) (fs : FileSystem) :
    run args buildVar fs = (command.script (Environment.buildDirOf buildVar)).runOn fs := by
  rw [run, script, h]

theorem readReport?_run {p : Program} {rom : Array UInt8}
    (h : Command.ofArgs? args = some (.check name true)) (buildVar : Option ByteArray)
    (htext : fs.text? name = some src) (hp : Program.ofSource src = .ok p)
    (hrom : p.rom = .ok rom) :
    (run args buildVar fs).1.status = 0 ∧
      readReport? name (run args buildVar fs).1.stdout = some (p.symbols.symbols, rom.size) := by
  rw [run_of_command h, Command.script, Script.runOn_check_of_rom htext hp hrom]
  exact ⟨rfl, readReport?_printed (Program.wellNamed_of_ofSource hp) name rom.size⟩

/-- Checks and assembling runs of a source without a ROM image end alike. -/
theorem exists_run_of_refused (htext : fs.text? name = some src)
    (hsrc : ∀ rom, assemble src ≠ .ok rom) :
    ∃ status message, status ≠ 0 ∧
      (∀ args buildVar symbols, Command.ofArgs? args = some (.check name symbols) →
        (run args buildVar fs).1 = ⟨status, fileLine "Checking" name ++ "\n", message⟩) ∧
      ∀ args buildVar out, Command.ofArgs? args = some (.assemble name out) →
        (run args buildVar fs).1 = ⟨status, fileLine "Assembling" name ++ "\n", message⟩ := by
  have hno : ∀ src' rom, fs.text? name = some src' → assemble src' ≠ .ok rom := by
    intro src' rom htext'
    rw [htext] at htext'
    cases htext'
    exact hsrc rom
  obtain ⟨status, message, hstatus, -, hrun⟩ := Script.exists_refusal hno
  refine ⟨status, message, hstatus, ?_, ?_⟩
  · intro args buildVar symbols hargs
    rw [run_of_command hargs, Command.script, Script.check, Script.runOn, Script.runFrom, hrun]
    rfl
  · intro args buildVar out hargs
    rw [run_of_command hargs, Command.script, Script.assemble, Script.runOn, Script.runFrom, hrun]
    rfl

/-- A check with symbols is a faithful report on the source. -/
theorem reportsFaithfully (h : Command.ofArgs? args = some (.check name true)) :
    ReportsFaithfully args name := by
  constructor
  · intro buildVar fs src htext
    constructor
    · intro hstatus
      by_contra hno
      obtain ⟨status, message, hfailed, hcheck, -⟩ :=
        exists_run_of_refused htext fun rom hrom => hno ⟨rom, hrom⟩
      rw [hcheck args buildVar true h] at hstatus
      exact hfailed hstatus
    · rintro ⟨rom, hsrc⟩
      obtain ⟨p, hp, hrom⟩ := assemble_eq_ok_iff.mp hsrc
      exact (readReport?_run h buildVar htext hp hrom).1
  · intro buildVar fs src htext hsrc
    obtain ⟨status, message, -, hcheck, hassemble⟩ := exists_run_of_refused htext hsrc
    rw [hcheck args buildVar true h]
    refine ⟨rfl, ?_⟩
    intro args' buildVar' out hargs'
    rw [hassemble args' buildVar' out hargs']
    exact ⟨rfl, rfl⟩
  · intro buildVar fs src d htext hsrc
    rw [run_of_command h, Command.script, Script.check, Script.runOn, Script.runFrom,
      Script.runFrom_readSource htext, Script.build_of_fault hsrc]
    rfl
  · intro buildVar fs src p rom htext hp hrom
    exact (readReport?_run h buildVar htext hp hrom).2
  · intro buildVar buildVar' fs fs' src src' p p' rom rom' htext hp hrom htext' hp' hrom' hsame
    have hread := (readReport?_run h buildVar htext hp hrom).2
    rw [hsame, (readReport?_run h buildVar' htext' hp' hrom').2] at hread
    obtain ⟨hsymbols, hsize⟩ := Prod.mk.inj (Option.some.inj hread)
    exact ⟨congrArg SymbolTable.mk hsymbols.symm, hsize.symm⟩

/-- The report on a source with one label. -/
theorem readReport?_run_labelled :
    readReport? "a.asm".toList (run ["check".toList, "a.asm".toList, "--symbols".toList] none
      (.ofFiles [] [("a.asm".toList, some "top: INC A".toUTF8.data)])).1.stdout =
        some ([⟨"top".toList, 0, .label, 1⟩], 2) :=
  (reportsFaithfully (Command.ofArgs?_check_symbols (by decide) .long).1).readable none _
    "top: INC A".toList
    ⟨#[⟨1, 0, ⟨0xA0, 2, .implied⟩, .reg ⟨0⟩⟩], ⟨[⟨"top".toList, 0, .label, 1⟩]⟩, 2⟩ #[0xA0, 0x00]
    (by decide +kernel) (by decide +kernel) (by decide +kernel)

end Check

end Cli

end MightyAsm
