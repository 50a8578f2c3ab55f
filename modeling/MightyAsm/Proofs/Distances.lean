import MightyAsm.Proofs.Branches
import MightyAsm.Proofs.Image
import MightyAsm.Proofs.Lockstep

/-!
# Distances of branches

A branch is encoded as its distance to the target, counted as an exact integer from the byte
after the opcode. Whether the branch is near enough depends on the two addresses only. The
encoder computes in words of 32 bits, which makes no difference for a near branch wherever
it stands; a branch too far away is recognised as such up to address `2 ^ 31 - 2`.

* `Statement.bytes_of_near`, `Statement.bytes_of_far`: how a branch is encoded or refused;
* `Program.rom_upTo_succ`: the step from one statement to the next;
* `Program.branchesExactly_of_ofSource`: what becomes of each branch of a source;
* `exists_wrappedBranch`: beyond the words of 32 bits a distance wraps around.
-/

namespace MightyAsm

/-! ## One branch -/

/-- The distance of a branch at an address to a destination, as an exact integer. -/
def distanceTo (addr : Nat) (dest : UInt8) : Int := dest.toNat - ((addr : Int) + 1)

/-- The distances that a signed byte holds. -/
def IsNear (distance : Int) : Prop := -128 ≤ distance ∧ distance ≤ 127

/-- A destination is a byte, so a branch that is near enough stands at one of the first
addresses. -/
theorem IsNear.addr_lt {addr : Nat} {dest : UInt8} (h : IsNear (distanceTo addr dest)) :
    addr + 1 < 2 ^ 31 := by
  have hbyte := dest.toNat_lt
  have hlow := h.1
  rw [distanceTo] at hlow
  omega

section Statement

variable {symbols : SymbolTable} {s : Statement} {name : Token} {dest : UInt8}

theorem Statement.bytes_of_here (hs : s.operands = .branch .here) :
    s.bytes symbols = .ok [s.opcode.code, 0xFF] := by
  rw [Statement.bytes, hs]
  rfl

theorem Statement.bytes_of_near (hs : s.operands = .branch (.symbol name))
    (hdest : symbols.value? name.text = some dest) (hnear : IsNear (distanceTo s.addr dest)) :
    ∃ b, signed b = distanceTo s.addr dest ∧ s.bytes symbols = .ok [s.opcode.code, b] := by
  refine ⟨_, signed_eq_iff.mpr ⟨hnear, rfl⟩, ?_⟩
  rw [Statement.bytes_of_symbol hs, map_eq_ok_iff]
  refine ⟨_, Target.encodeWith_symbol_eq_ok_iff.mpr ?_, rfl⟩
  exact ⟨dest, distanceTo s.addr dest, hdest, branchDistance?_eq dest hnear.addr_lt, hnear, rfl⟩

theorem Statement.bytes_of_far (hs : s.operands = .branch (.symbol name))
    (hdest : symbols.value? name.text = some dest) (hfar : ¬ IsNear (distanceTo s.addr dest))
    (haddr : s.addr + 1 < 2 ^ 31) :
    s.bytes symbols =
      .error (.fault (.atToken (.branchOutOfRange name.text (distanceTo s.addr dest)) name)) :=
  Statement.bytes_eq_fault_iff.mpr (.outOfRange hs hdest (branchDistance?_eq dest haddr) hfar)

end Statement

/-! ## The statements of a program -/

namespace Program

variable {p : Program} {before after : List Statement} {s : Statement}

theorem toList_upTo (p : Program) (n : Nat) : (p.upTo n).stmts.toList = p.stmts.toList.take n := by
  simp [upTo]

theorem inStep_upTo (h : InStep 0 p.stmts.toList) (n : Nat) :
    InStep 0 (p.upTo n).stmts.toList := by
  rw [← List.take_append_drop n p.stmts.toList, InStep.append_iff] at h
  rw [toList_upTo]
  exact h.1

theorem exists_bytes_of_rom {rom : Array UInt8} (hstep : InStep 0 p.stmts.toList)
    (h : p.rom = .ok rom) (hs : s ∈ p.stmts.toList) :
    ∃ chunk, s.bytes p.symbols = .ok chunk := by
  obtain ⟨chunks, hchunks, -⟩ := (rom_eq_ok_iff hstep).mp h
  exact exists_forall₂_iff.mp ⟨chunks, hchunks⟩ s hs

/-- Encoding goes from one statement to the next. -/
theorem rom_upTo_succ (hsplit : p.stmts.toList = before ++ s :: after) :
    (p.upTo (before.length + 1)).rom =
      (p.upTo before.length).rom >>= fun front => s.appendTo p.symbols front := by
  have hfront : (p.upTo before.length).stmts.toList = before := by
    rw [toList_upTo, hsplit, List.take_left]
  have hnext : (p.upTo (before.length + 1)).stmts.toList = before ++ [s] := by
    rw [toList_upTo, hsplit, List.append_cons, List.take_left' (by simp)]
  rw [rom, rom, ← Array.foldlM_toList, ← Array.foldlM_toList, hfront, hnext, List.foldlM_append]
  simp only [List.foldlM_cons, List.foldlM_nil, bind_pure]
  rfl

/-- When the encoder comes to a statement with these bytes, the image so far ends at its
address, and the bytes are appended to it. -/
theorem rom_upTo_succ_eq_ok {front : Array UInt8} {chunk : List UInt8}
    (hstep : InStep 0 p.stmts.toList) (hsplit : p.stmts.toList = before ++ s :: after)
    (hfront : (p.upTo before.length).rom = .ok front) (hs : s.bytes p.symbols = .ok chunk) :
    front.size = s.addr ∧ (p.upTo (before.length + 1)).rom = .ok (front ++ chunk.toArray) := by
  have hsize : front.size = s.addr := by
    rw [size_eq_of_rom (inStep_upTo hstep _) hfront, toList_upTo, hsplit, List.take_left]
    rw [hsplit] at hstep
    exact hstep.addr_eq.symm
  refine ⟨hsize, ?_⟩
  have hfit := hstep.size_eq s (by simp [hsplit])
  rw [rom_upTo_succ hsplit, hfront]
  show s.appendTo p.symbols front = _
  rw [Statement.appendTo, Statement.encode_eq_bytes hsize.symm hfit, hs]
  rfl

/-- In an image the bytes of a statement stand at its address. -/
theorem getElem?_rom {rom : Array UInt8} {code b : UInt8} (hstep : InStep 0 p.stmts.toList)
    (hsplit : p.stmts.toList = before ++ s :: after) (hrom : p.rom = .ok rom)
    (hs : s.bytes p.symbols = .ok [code, b]) : rom[s.addr + 1]? = some b := by
  obtain ⟨chunks, hchunks, hflat⟩ := (rom_eq_ok_iff hstep).mp hrom
  rw [hsplit] at hstep hchunks
  rw [hstep.extract_flatten hchunks, ← hflat, Except.ok.injEq] at hs
  have hsecond : ((rom.toList.drop s.addr).take s.opcode.size)[1]? = some b := by
    rw [hs]
    rfl
  rw [List.getElem?_take, List.getElem?_drop, Array.getElem?_toList] at hsecond
  split at hsecond
  · exact hsecond
  · cases hsecond

/-- The encoder emits this byte for the branch after the statements `before`: it appends the
opcode byte and the byte when it comes to the branch, and every image has the byte there. -/
structure Emits (p : Program) (before : List Statement) (s : Statement) (b : UInt8) : Prop where
  step : ∀ front, (p.upTo before.length).rom = .ok front → front.size = s.addr ∧
    (p.upTo (before.length + 1)).rom = .ok (front ++ #[s.opcode.code, b])
  image : ∀ rom, p.rom = .ok rom → rom[s.addr + 1]? = some b

theorem emits_of_bytes {b : UInt8} (hstep : InStep 0 p.stmts.toList)
    (hsplit : p.stmts.toList = before ++ s :: after)
    (hs : s.bytes p.symbols = .ok [s.opcode.code, b]) : p.Emits before s b := by
  constructor
  · intro front hfront
    exact rom_upTo_succ_eq_ok hstep hsplit hfront hs
  · intro rom hrom
    exact getElem?_rom hstep hsplit hrom hs

/-- The encoder does not get past a statement without bytes. -/
theorem rom_upTo_ne_ok {e : RomError} (hstep : InStep 0 p.stmts.toList)
    (hsplit : p.stmts.toList = before ++ s :: after) (hs : s.bytes p.symbols = .error e)
    {n : Nat} (hn : before.length < n) (rom : Array UInt8) : (p.upTo n).rom ≠ .ok rom := by
  intro hrom
  have hmem : s ∈ (p.upTo n).stmts.toList := by
    rw [toList_upTo, hsplit, List.take_append]
    obtain ⟨k, hk⟩ := Nat.exists_eq_add_of_lt hn
    rw [hk, Nat.add_assoc, Nat.add_sub_cancel_left]
    simp
  obtain ⟨chunk, hchunk⟩ := exists_bytes_of_rom (inStep_upTo hstep n) hrom hmem
  have hsame : s.bytes p.symbols = .ok chunk := hchunk
  rw [hs] at hsame
  cases hsame

/-! ## Sources -/

/-- What becomes of the branches of a program. -/
structure BranchesExactly (p : Program) : Prop where
  /-- A branch to itself has the same byte at every address. -/
  here : ∀ before s after, p.stmts.toList = before ++ s :: after → s.operands = .branch .here →
    p.Emits before s 0xFF
  /-- A branch that is near its target has the byte that leads there, at every address. -/
  near : ∀ before s after name dest, p.stmts.toList = before ++ s :: after →
    s.operands = .branch (.symbol name) → p.symbols.value? name.text = some dest →
    IsNear (distanceTo s.addr dest) →
    ∃ b, signed b = distanceTo s.addr dest ∧ (s.addr : Int) + 1 + signed b = dest.toNat ∧
      p.Emits before s b
  /-- The encoder does not get past a branch that is far from its target, and reports its
  distance if it comes to the branch. -/
  far : ∀ before s after name dest, p.stmts.toList = before ++ s :: after →
    s.operands = .branch (.symbol name) → p.symbols.value? name.text = some dest →
    ¬ IsNear (distanceTo s.addr dest) → s.addr + 1 < 2 ^ 31 →
    (∀ n rom, before.length < n → (p.upTo n).rom ≠ .ok rom) ∧ (∀ rom, p.rom ≠ .ok rom) ∧
    ((∀ s' ∈ before, s'.Reaches p.symbols) → p.rom =
      .error (.fault (.atToken (.branchOutOfRange name.text (distanceTo s.addr dest)) name)))

/-- The branches of every source are encoded by their exact distances. -/
theorem branchesExactly_of_ofSource {src : Text} {p : Program} (h : ofSource src = .ok p) :
    p.BranchesExactly := by
  have hstep := (ofSource_laidOut h).inStep
  constructor
  · intro before s after hsplit hs
    exact emits_of_bytes hstep hsplit (Statement.bytes_of_here hs)
  · intro before s after name dest hsplit hs hdest hnear
    obtain ⟨b, hb, hbytes⟩ := Statement.bytes_of_near hs hdest hnear
    refine ⟨b, hb, ?_, emits_of_bytes hstep hsplit hbytes⟩
    rw [hb, distanceTo]
    omega
  · intro before s after name dest hsplit hs hdest hfar haddr
    have hbytes := Statement.bytes_of_far hs hdest hfar haddr
    refine ⟨fun n rom hn => rom_upTo_ne_ok hstep hsplit hbytes hn rom, ?_, ?_⟩
    · intro rom hrom
      have hmem : s ∈ p.stmts.toList := by simp [hsplit]
      obtain ⟨chunk, hchunk⟩ := exists_bytes_of_rom hstep hrom hmem
      rw [hbytes] at hchunk
      cases hchunk
    · intro hbefore
      refine (rom_eq_fault_iff hstep).mpr ⟨before, s, after, hsplit, hbefore, ?_⟩
      exact Statement.bytes_eq_fault_iff.mp hbytes

/-- The branch of a loop over one instruction of two bytes leads three bytes back. -/
theorem emits_loop : ∃ p before s b, ofSource "top: INC A\nBRA top".toList = .ok p ∧
    p.stmts.toList = before ++ [s] ∧ s.addr = 2 ∧ signed b = -3 ∧ p.Emits before s b := by
  obtain ⟨p, before, s, name, hp, hsplit, haddr, hs, hdest⟩ : ∃ p before s name,
      ofSource "top: INC A\nBRA top".toList = .ok p ∧ p.stmts.toList = before ++ [s] ∧
      s.addr = 2 ∧ s.operands = .branch (.symbol name) ∧ p.symbols.value? name.text = some 0 :=
    ⟨_, [_],
      ⟨2, 2, .ofMode 0x20 .relative, .branch (.symbol ⟨"top".toList, ⟨15, 3⟩, 2⟩)⟩, _,
      rfl, rfl, rfl, rfl, rfl⟩
  have hdistance : distanceTo s.addr 0 = -3 := by
    rw [haddr]
    rfl
  have hnear : IsNear (distanceTo s.addr 0) := by
    rw [hdistance]
    exact ⟨by decide, by decide⟩
  obtain ⟨b, hb, -, hemits⟩ :=
    (branchesExactly_of_ofSource hp).near before s [] name 0 hsplit hs hdest hnear
  exact ⟨p, before, s, b, hp, hsplit, haddr, hb.trans hdistance, hemits⟩

end Program

/-! ## Beyond the words -/

/-- Instructions of three bytes, and then a branch to address 0. -/
def longLoop (n : Nat) : List Command :=
  List.replicate n (.binary .or default default) ++ [.branchTo .bra (valueName 0)]

/-- The source of a long loop, after the constants for all bytes. -/
def longLoopSource (n : Nat) : Text :=
  Text.join '\n' ((disassembly (longLoop n)).map EntryBody.text)

theorem printable_longLoop (n : Nat) :
    ∀ c ∈ longLoop n, c.Printable ∧ c.addressSymbol? = none := by
  intro c hc
  rcases List.mem_append.mp hc with hc | hc
  · rw [List.eq_of_mem_replicate hc]
    exact ⟨by simp [Command.Printable, Command.operands], rfl⟩
  · rw [List.mem_singleton.mp hc]
    exact ⟨by simp [Command.Printable, Command.operands, isSymbolName_valueName], rfl⟩

theorem commandSize_of_map_eq_replicate {cs : List PlacedCommand} {n : Nat} {c : Command}
    (h : cs.map (·.command) = List.replicate n c) : commandSize cs = n * c.size := by
  have hsizes : cs.map (fun x => x.command.size) = List.replicate n c.size := by
    rw [← List.map_replicate, ← h, List.map_map]
    rfl
  rw [commandSize, hsizes, List.sum_replicate_nat]

/-- The branch of a long loop stands after all other instructions, none of which is a branch. -/
theorem exists_ofSource_longLoopSource (n : Nat) :
    ∃ p before s name, Program.ofSource (longLoopSource n) = .ok p ∧
      p.stmts.toList = before ++ [s] ∧ s.addr = n * 3 ∧ s.operands = .branch (.symbol name) ∧
      p.symbols.value? name.text = some 0 ∧
      ∀ s' ∈ before, ∀ name', s'.operands ≠ .branch (.symbol name') := by
  obtain ⟨es, hbodies, hlabels, hreads⟩ :=
    exists_listing_of_printable (by simp [disassembly, allBytes])
      (printable_disassembly fun c hc => (printable_longLoop n c hc).1)
  have hes := admitted_of_disassembly hbodies hlabels fun c hc => (printable_longLoop n c hc).2
  obtain ⟨p, hp, hrep⟩ := Program.exists_ofSource_of_listing hreads hes
  have hlaid := Program.ofSource_laidOut hp
  have hcommands : es.commands.map (·.command) = longLoop n := by
    rw [Listing.commands, Listing.map_commands_locate, hbodies, commands_disassembly]
  obtain ⟨front, last, hcs, hfront, hlast⟩ := List.map_eq_append_iff.mp hcommands
  obtain ⟨c, rfl, hc⟩ := List.map_eq_singleton_iff.mp hlast
  have hstmts := hrep.stmts
  rw [hcs] at hstmts
  obtain ⟨before, rest, hsplit, hbefore, hrest⟩ := forall₂_append_left hstmts
  obtain ⟨s, ⟨-, -, -, hden⟩, rfl⟩ := forall₂_singleton_left.mp hrest
  rw [hc] at hden
  obtain ⟨name, hname, hoperands⟩ := hden
  refine ⟨p, before, s, name, hp, hsplit, ?_, hoperands, ?_, ?_⟩
  · have hstep := hlaid.inStep
    have hfit := hstep.size_eq s (by simp [hsplit])
    have hsize : p.size = n * 3 + 2 := by
      rw [hrep.size_eq, ← Listing.commandSize_commands, hcs, commandSize_append,
        commandSize_of_map_eq_replicate hfront]
      simp only [commandSize, List.map_cons, List.map_nil, List.sum_singleton, hc]
      rfl
    rw [hlaid.size, hsplit, totalSize_append, totalSize_cons, totalSize_nil, hfit, hoperands,
      Operands.size] at hsize
    rw [hsplit] at hstep
    rw [hstep.addr_eq]
    omega
  · rw [hname]
    exact namesBytes_of_disassembly hrep hes hbodies hlabels 0
  · intro s' hs' name' hbranch
    obtain ⟨c', hc', -, -, -, hden⟩ := exists_mem_of_forall₂ hbefore hs'
    have hcommand : c'.command ∈ front.map (·.command) := List.mem_map_of_mem hc'
    rw [hfront] at hcommand
    rw [List.eq_of_mem_replicate hcommand, hbranch] at hden
    cases hden

/-- Not every branch is encoded by its exact distance: at address `2 ^ 32 - 1` the distance to
address 0 is computed as 0. And no branch is encoded at all, near or far, if another one is
refused. -/
theorem exists_wrappedBranch :
    (∃ p s name, Program.ofSource "BRA gone\nhere: BRA here".toList = .ok p ∧
      s ∈ p.stmts.toList ∧ s.operands = .branch (.symbol name) ∧ s.addr = 2 ∧
      p.symbols.value? name.text = some 2 ∧ IsNear (distanceTo s.addr 2) ∧
      ∀ rom, p.rom ≠ .ok rom) ∧
    ∃ p s name rom, Program.ofSource (longLoopSource 1431655765) = .ok p ∧
      s ∈ p.stmts.toList ∧ s.operands = .branch (.symbol name) ∧ s.addr = 2 ^ 32 - 1 ∧
      p.symbols.value? name.text = some 0 ∧ distanceTo s.addr 0 = -2 ^ 32 ∧
      ¬ IsNear (distanceTo s.addr 0) ∧ p.rom = .ok rom := by
  constructor
  · obtain ⟨p, s, name, hp, hmem, hs, haddr, hdest⟩ : ∃ p s name,
        Program.ofSource "BRA gone\nhere: BRA here".toList = .ok p ∧
        s ∈ p.stmts.toList ∧ s.operands = .branch (.symbol name) ∧ s.addr = 2 ∧
        p.symbols.value? name.text = some 2 :=
      ⟨_, ⟨2, 2, .ofMode 0x20 .relative, .branch (.symbol ⟨"here".toList, ⟨19, 4⟩, 2⟩)⟩, _,
        rfl, by decide, rfl, rfl, rfl⟩
    refine ⟨p, s, name, hp, hmem, hs, haddr, hdest, ?_, ?_⟩
    · rw [haddr]
      exact ⟨by decide, by decide⟩
    · have hfault : assemble "BRA gone\nhere: BRA here".toList =
          .error (.fault (.undefined ⟨"gone".toList, ⟨4, 4⟩, 1⟩)) := by decide +kernel
      intro rom hrom
      rw [assemble, hp] at hfault
      cases hrom.symm.trans hfault
  · obtain ⟨p, before, s, name, hp, hsplit, haddr, hs, hdest, hbefore⟩ :=
      exists_ofSource_longLoopSource 1431655765
    have hdistance : branchDistance? s.addr 0 = some 0 := by
      rw [haddr]
      decide
    have hexact : distanceTo s.addr 0 = -2 ^ 32 := by
      rw [haddr]
      decide
    have hreaches : ∀ s' ∈ p.stmts.toList, ∃ chunk, s'.bytes p.symbols = .ok chunk := by
      intro s' hs'
      rw [Statement.exists_bytes_iff]
      intro name' hname'
      rw [hsplit, List.mem_append, List.mem_singleton] at hs'
      rcases hs' with hs' | rfl
      · exact absurd hname' (hbefore s' hs' name')
      · rw [hs] at hname'
        cases hname'
        exact ⟨0, 0, hdest, hdistance, by decide, by decide⟩
    obtain ⟨chunks, hchunks⟩ := exists_forall₂_iff.mpr hreaches
    have hrom := (Program.rom_eq_ok_iff (Program.ofSource_laidOut hp).inStep).mpr
      ⟨chunks, hchunks, List.toList_toArray.symm⟩
    refine ⟨p, s, name, _, hp, by simp [hsplit], hs, haddr, hdest, hexact, ?_, hrom⟩
    rw [hexact]
    rintro ⟨hlow, -⟩
    exact absurd hlow (by decide)

end MightyAsm
