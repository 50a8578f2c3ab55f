import MightyAsm.Program.Rom
import MightyAsm.Proofs.Lists
import MightyAsm.Proofs.Resolution

/-!
# Statements in step with their image

Statements are in step from an address on if each one stands where the ones before it end
and its opcode has room for just its operands. The image of such statements is the
concatenation of what each one encodes to at its own address, and the checks that the
encoder makes on the way never fail.

* `Target.encode_symbol_eq_ok_iff`: a branch is encoded exactly if a byte leads to its target;
* `InStep.append_iff`: statements in step can be cut anywhere;
* `foldlM_appendTo`: the image as a concatenation, errors included;
* `InStep.extract_flatten`: each statement is found again in the image at its address.
-/

namespace MightyAsm

/-! ## Encoding one statement -/

/-- The bytes of a statement at its own address. -/
def Statement.bytes (symbols : SymbolTable) (s : Statement) : Except RomError (List UInt8) :=
  (s.opcode.code :: ·) <$> s.operands.encode symbols s.addr

theorem Operands.length_encode {symbols : SymbolTable} {pc : Nat} {operands : Operands}
    {bytes : List UInt8} (h : operands.encode symbols pc = .ok bytes) :
    bytes.length = operands.size := by
  cases operands with
  | branch target =>
      obtain ⟨b, -, hb⟩ := bind_eq_ok_iff.mp h
      cases hb
      rfl
  | _ => cases h; rfl

theorem Target.encodeWith_ne_outOfStep {symbols : SymbolTable} {distance? : UInt8 → Option Int}
    {target : Target} {line : Nat} :
    target.encodeWith symbols distance? ≠ .error (.outOfStep line) := by
  cases target with
  | here => simp [Target.encodeWith]
  | symbol name =>
      simp only [Target.encodeWith]
      cases symbols.value? name.text with
      | none => simp
      | some dest =>
          dsimp only
          cases distance? dest with
          | none => simp
          | some distance =>
              by_cases hrange : -128 ≤ distance ∧ distance ≤ 127
              · simp [hrange]
              · simp [hrange]

theorem Operands.encode_ne_outOfStep {symbols : SymbolTable} {pc : Nat} {operands : Operands}
    {line : Nat} : operands.encode symbols pc ≠ .error (.outOfStep line) := by
  cases operands with
  | branch target =>
      simp only [Operands.encode]
      have htarget : ∀ line, target.encode symbols pc ≠ .error (.outOfStep line) :=
        fun _ => Target.encodeWith_ne_outOfStep
      cases henc : target.encode symbols pc with
      | error e =>
          intro h
          cases h
          exact htarget line henc
      | ok b => intro h; cases h
  | _ => intro h; cases h

theorem Statement.encode_of_addr_ne {symbols : SymbolTable} {pc : Nat} {s : Statement}
    (h : s.addr ≠ pc) : s.encode symbols pc = .error (.outOfStep s.line) := by
  simp [Statement.encode, h, bind, Except.bind, throw, throwThe, MonadExceptOf.throw]

theorem Statement.encode_of_addr_eq {symbols : SymbolTable} {pc : Nat} {s : Statement}
    (h : s.addr = pc) :
    s.encode symbols pc = s.operands.encode symbols pc >>= fun bytes =>
      if s.opcode.size = bytes.length + 1 then .ok (s.opcode.code :: bytes)
      else .error (.outOfStep s.line) := by
  rw [Statement.encode, if_pos h]
  refine congrArg _ (funext fun bytes => ?_)
  by_cases hsize : s.opcode.size = bytes.length + 1
  · rw [if_pos hsize, if_pos hsize]
    rfl
  · rw [if_neg hsize, if_neg hsize]
    rfl

/-- At its own address, with an opcode that has room for the operands, a statement passes
both checks of the encoder. -/
theorem Statement.encode_eq_bytes {symbols : SymbolTable} {pc : Nat} {s : Statement}
    (haddr : s.addr = pc) (hsize : s.opcode.size = 1 + s.operands.size) :
    s.encode symbols pc = s.bytes symbols := by
  rw [encode_of_addr_eq haddr, Statement.bytes, haddr]
  cases henc : s.operands.encode symbols pc with
  | error e => rfl
  | ok bytes =>
      have hlen := Operands.length_encode henc
      exact if_pos (by omega)

/-! ## Branches -/

theorem branchDistance?_eq {pc : Nat} (dest : UInt8) (h : pc + 1 < 2 ^ 31) :
    branchDistance? pc dest = some (dest.toNat - ((pc : Int) + 1)) := by
  have hdest := dest.toNat_lt
  have hmod : Int.bmod (pc : Int) 0x100000000 = pc := by
    apply Int.bmod_eq_of_le <;> omega
  have hnext : isWord ((pc : Int) + 1) = true := by
    simp only [isWord, Bool.and_eq_true, decide_eq_true_eq]
    omega
  have hdistance : isWord (dest.toNat - ((pc : Int) + 1)) = true := by
    simp only [isWord, Bool.and_eq_true, decide_eq_true_eq]
    omega
  simp only [branchDistance?, hmod, hnext, hdistance, Bool.and_self, if_true]

theorem Target.encodeWith_symbol_eq_ok_iff {symbols : SymbolTable}
    {distance? : UInt8 → Option Int} {name : Token} {b : UInt8} :
    (Target.symbol name).encodeWith symbols distance? = .ok b ↔
      ∃ dest distance, symbols.value? name.text = some dest ∧ distance? dest = some distance ∧
        (-128 ≤ distance ∧ distance ≤ 127) ∧ b = (Int8.ofInt distance).toUInt8 := by
  simp only [Target.encodeWith]
  cases symbols.value? name.text with
  | none => simp
  | some dest =>
      cases hd : distance? dest with
      | none => simp [hd]
      | some distance =>
          by_cases hrange : -128 ≤ distance ∧ distance ≤ 127
          · simp [hrange, hd, eq_comm]
          · simp [hrange, hd]

/-- The value of a byte in two's complement. -/
def signed (b : UInt8) : Int := b.toInt8.toInt

theorem signed_eq_iff {b : UInt8} {n : Int} :
    signed b = n ↔ (-128 ≤ n ∧ n ≤ 127) ∧ b = (Int8.ofInt n).toUInt8 := by
  constructor
  · rintro rfl
    refine ⟨⟨?_, ?_⟩, ?_⟩
    · exact b.toInt8.le_toInt
    · have := b.toInt8.toInt_lt
      simp only [signed]
      omega
    · simp [signed]
  · rintro ⟨⟨hlow, hhigh⟩, rfl⟩
    rw [signed, Int8.toInt8_toUInt8, Int8.toInt_ofInt_of_le hlow (by omega)]

/-- As long as addresses fit in a word, the byte of a branch leads to its destination. -/
theorem Target.encode_symbol_eq_ok_iff {symbols : SymbolTable} {pc : Nat} {name : Token}
    {b : UInt8} (h : pc + 1 < 2 ^ 31) :
    (Target.symbol name).encode symbols pc = .ok b ↔
      ∃ dest, symbols.value? name.text = some dest ∧ (pc : Int) + 1 + signed b = dest.toNat := by
  rw [Target.encode, Target.encodeWith_symbol_eq_ok_iff]
  constructor
  · rintro ⟨dest, distance, hdest, hdistance, hrange, hb⟩
    rw [branchDistance?_eq dest h] at hdistance
    cases hdistance
    refine ⟨dest, hdest, ?_⟩
    have hsigned := signed_eq_iff.mpr ⟨hrange, hb⟩
    omega
  · rintro ⟨dest, hdest, hsum⟩
    have hsigned : signed b = dest.toNat - ((pc : Int) + 1) := by omega
    obtain ⟨hrange, hb⟩ := signed_eq_iff.mp hsigned
    exact ⟨dest, _, hdest, branchDistance?_eq dest h, hrange, hb⟩

/-! ## Statements in step -/

/-- Statements that follow each other from an address on, each with an opcode that has room
for just its operands. -/
def InStep : Nat → List Statement → Prop
  | _, [] => True
  | pc, s :: ss =>
      s.addr = pc ∧ s.opcode.size = 1 + s.operands.size ∧ InStep (pc + s.opcode.size) ss

def totalSize (ss : List Statement) : Nat := (ss.map (·.opcode.size)).sum

@[simp] theorem totalSize_nil : totalSize [] = 0 := rfl

@[simp] theorem totalSize_cons (s : Statement) (ss : List Statement) :
    totalSize (s :: ss) = s.opcode.size + totalSize ss := rfl

@[simp] theorem totalSize_append (ss ss' : List Statement) :
    totalSize (ss ++ ss') = totalSize ss + totalSize ss' := by
  simp [totalSize]

theorem InStep.append_iff {pc : Nat} {ss ss' : List Statement} :
    InStep pc (ss ++ ss') ↔ InStep pc ss ∧ InStep (pc + totalSize ss) ss' := by
  induction ss generalizing pc with
  | nil => simp [InStep]
  | cons s ss ih => simp [InStep, ih, and_assoc, Nat.add_assoc]

theorem InStep.addr_eq {before after : List Statement} {s : Statement}
    (h : InStep 0 (before ++ s :: after)) : s.addr = totalSize before := by
  have hs := (InStep.append_iff.mp h).2.1
  simpa using hs

theorem InStep.size_eq {pc : Nat} {ss : List Statement} (h : InStep pc ss) :
    ∀ s ∈ ss, s.opcode.size = 1 + s.operands.size := by
  induction ss generalizing pc with
  | nil => simp
  | cons s ss ih =>
      intro s' hs'
      rcases List.mem_cons.mp hs' with rfl | hs'
      · exact h.2.1
      · exact ih h.2.2 s' hs'

theorem InStep.le_addr {pc : Nat} {ss : List Statement} (h : InStep pc ss) :
    ∀ s ∈ ss, pc ≤ s.addr := by
  induction ss generalizing pc with
  | nil => simp
  | cons s ss ih =>
      intro s' hs'
      rcases List.mem_cons.mp hs' with rfl | hs'
      · exact Nat.le_of_eq h.1.symm
      · have hle := ih h.2.2 s' hs'
        omega

theorem InStep.pairwise_addr {pc : Nat} {ss : List Statement} (h : InStep pc ss) :
    ss.Pairwise (fun s s' => s.addr < s'.addr) := by
  induction ss generalizing pc with
  | nil => exact List.Pairwise.nil
  | cons s ss ih =>
      obtain ⟨haddr, hsize, hrest⟩ := h
      refine List.Pairwise.cons ?_ (ih hrest)
      intro s' hs'
      have hle := hrest.le_addr s' hs'
      omega

/-! ## The image -/

theorem mapM_eq_ok_iff {ε α β : Type} {f : α → Except ε β} {xs : List α} {ys : List β} :
    xs.mapM f = .ok ys ↔ List.Forall₂ (fun x y => f x = .ok y) xs ys := by
  induction xs generalizing ys with
  | nil => simp [pure, Except.pure, eq_comm]
  | cons x xs ih =>
      rw [List.mapM_cons, bind_eq_ok_iff]
      constructor
      · rintro ⟨y, hy, hrest⟩
        obtain ⟨ys', hys', heq⟩ := bind_eq_ok_iff.mp hrest
        cases heq
        exact List.Forall₂.cons hy (ih.mp hys')
      · rintro (_ | ⟨hy, hys⟩)
        exact ⟨_, hy, bind_eq_ok_iff.mpr ⟨_, ih.mpr hys, rfl⟩⟩

theorem mapM_eq_error_iff {ε α β : Type} {f : α → Except ε β} {xs : List α} {e : ε} :
    xs.mapM f = .error e ↔ ∃ before x after, xs = before ++ x :: after ∧
      (∀ x' ∈ before, ∃ y, f x' = .ok y) ∧ f x = .error e := by
  induction xs with
  | nil => simp [pure, Except.pure]
  | cons x xs ih =>
      rw [List.mapM_cons, bind_eq_error_iff]
      constructor
      · rintro (hx | ⟨y, hy, hrest⟩)
        · exact ⟨[], x, xs, rfl, by simp, hx⟩
        · have hxs : xs.mapM f = .error e := by
            rcases bind_eq_error_iff.mp hrest with hxs | ⟨ys, -, hys⟩
            · exact hxs
            · cases hys
          obtain ⟨before, x', after, rfl, hbefore, hx'⟩ := ih.mp hxs
          exact ⟨x :: before, x', after, rfl, List.forall_mem_cons.mpr ⟨⟨y, hy⟩, hbefore⟩, hx'⟩
      · rintro ⟨_ | ⟨x₀, before⟩, x', after, heq, hbefore, hx'⟩
        · cases heq
          exact Or.inl hx'
        · cases heq
          obtain ⟨⟨y, hy⟩, hbefore⟩ := List.forall_mem_cons.mp hbefore
          refine Or.inr ⟨y, hy, bind_eq_error_iff.mpr (Or.inl ?_)⟩
          exact ih.mpr ⟨before, x', after, rfl, hbefore, hx'⟩

theorem exists_of_mapM_eq_error {ε α β : Type} {f : α → Except ε β} {xs : List α} {e : ε}
    (h : xs.mapM f = .error e) : ∃ x ∈ xs, f x = .error e := by
  obtain ⟨before, x, after, rfl, -, hx⟩ := mapM_eq_error_iff.mp h
  exact ⟨x, by simp, hx⟩

/-- The image of statements in step is the concatenation of what each one encodes to at its
own address; an error is the error of the first one that has no encoding. -/
theorem foldlM_appendTo {symbols : SymbolTable} {ss : List Statement} {rom : Array UInt8}
    (h : InStep rom.size ss) :
    ss.foldlM (fun rom s => s.appendTo symbols rom) rom =
      (fun chunks => rom ++ chunks.flatten.toArray) <$> ss.mapM (Statement.bytes symbols) := by
  induction ss generalizing rom with
  | nil => simp [pure, Except.pure, Functor.map, Except.map]
  | cons s ss ih =>
      obtain ⟨haddr, hsize, hrest⟩ := h
      rw [List.foldlM_cons, List.mapM_cons, Statement.appendTo,
        Statement.encode_eq_bytes haddr hsize]
      cases hbytes : s.bytes symbols with
      | error e => rfl
      | ok chunk =>
          obtain ⟨bytes, henc, rfl⟩ := map_eq_ok_iff.mp hbytes
          have hlen := Operands.length_encode henc
          have hstep : InStep (rom ++ (s.opcode.code :: bytes).toArray).size ss := by
            have hpc : (rom ++ (s.opcode.code :: bytes).toArray).size =
                rom.size + s.opcode.size := by
              simp only [Array.size_append, List.size_toArray, List.length_cons]
              omega
            rw [hpc]
            exact hrest
          have hih := ih hstep
          simp only [bind, Except.bind, pure, Except.pure] at hih ⊢
          rw [hih]
          cases ss.mapM (Statement.bytes symbols) with
          | error e => rfl
          | ok chunks => simp [Functor.map, Except.map]

theorem Statement.length_of_bytes {symbols : SymbolTable} {s : Statement} {chunk : List UInt8}
    (hsize : s.opcode.size = 1 + s.operands.size) (h : s.bytes symbols = .ok chunk) :
    chunk.length = s.opcode.size := by
  obtain ⟨bytes, henc, rfl⟩ := map_eq_ok_iff.mp h
  have hlen := Operands.length_encode henc
  rw [List.length_cons]
  omega

theorem length_flatten_chunks {symbols : SymbolTable} {ss : List Statement}
    {chunks : List (List UInt8)} (hsize : ∀ s ∈ ss, s.opcode.size = 1 + s.operands.size)
    (h : List.Forall₂ (fun s chunk => s.bytes symbols = .ok chunk) ss chunks) :
    chunks.flatten.length = totalSize ss := by
  induction h with
  | nil => rfl
  | @cons s chunk ss chunks hs _ ih =>
      have hchunk := Statement.length_of_bytes (hsize s List.mem_cons_self) hs
      have hrest := ih (fun s' hs' => hsize s' (List.mem_cons_of_mem s hs'))
      simp only [List.flatten_cons, List.length_append, totalSize_cons]
      omega

/-- Each statement in step is found in the image at its address. -/
theorem InStep.extract_flatten {symbols : SymbolTable} {before after : List Statement}
    {s : Statement} {chunks : List (List UInt8)} (hstep : InStep 0 (before ++ s :: after))
    (h : List.Forall₂ (fun s chunk => s.bytes symbols = .ok chunk) (before ++ s :: after)
      chunks) :
    s.bytes symbols = .ok ((chunks.flatten.drop s.addr).take s.opcode.size) := by
  have hsizes := hstep.size_eq
  obtain ⟨us, vs, rfl, hus, hvs⟩ := forall₂_append_left h
  cases hvs with
  | @cons _ chunk _ vs hs _ =>
      have hfront : us.flatten.length = s.addr := by
        rw [hstep.addr_eq]
        exact length_flatten_chunks (fun s' hs' => hsizes s' (List.mem_append_left _ hs')) hus
      have hchunk : chunk.length = s.opcode.size :=
        Statement.length_of_bytes (hsizes s (by simp)) hs
      rw [List.flatten_append, List.drop_left' hfront, List.flatten_cons, List.take_left' hchunk]
      exact hs

theorem Program.rom_eq_map {p : Program} (h : InStep 0 p.stmts.toList) :
    p.rom = (fun chunks => chunks.flatten.toArray) <$>
      p.stmts.toList.mapM (Statement.bytes p.symbols) := by
  have himage : p.stmts.toList.foldlM (fun rom s => s.appendTo p.symbols rom) #[] =
      (fun chunks => #[] ++ chunks.flatten.toArray) <$>
        p.stmts.toList.mapM (Statement.bytes p.symbols) := foldlM_appendTo h
  rw [Program.rom, ← Array.foldlM_toList, himage]
  simp

theorem Program.rom_eq_ok_iff {p : Program} {rom : Array UInt8} (h : InStep 0 p.stmts.toList) :
    p.rom = .ok rom ↔ ∃ chunks,
      List.Forall₂ (fun s chunk => s.bytes p.symbols = .ok chunk) p.stmts.toList chunks ∧
      rom.toList = chunks.flatten := by
  rw [Program.rom_eq_map h, map_eq_ok_iff]
  constructor
  · rintro ⟨chunks, hchunks, rfl⟩
    exact ⟨chunks, mapM_eq_ok_iff.mp hchunks, rfl⟩
  · rintro ⟨chunks, hchunks, hrom⟩
    exact ⟨chunks, mapM_eq_ok_iff.mpr hchunks, by rw [← hrom]⟩

end MightyAsm
