import MightyAsm.Proofs.Faults

/-!
# The first fault of a source

A source is refused for the first of its lines that cannot be read, whatever lines follow.
Only if all lines are read are the branches looked at, and then the first one that does not
reach its target is reported.

* `Program.ofSource_join_append_eq_error`: a line that is refused is refused in any longer source;
* `Program.branchDistance?_of_ofSource`: in a source below `2 ^ 32` bytes distances are exact;
* `Program.failsFast`: where the fault of a source is, in either case.
-/

namespace MightyAsm

namespace Program

variable {src : Text} {p : Program} {d : Diagnostic}

/-! ## Lines that are refused -/

theorem line_of_blames {before after : List SourceLine} {l : SourceLine}
    {names : List DefinedName} {fault : Fault} {t : Token}
    (hsplit : allLines src = before ++ l :: after) (h : l.Blames names fault t) :
    t.line = before.length + 1 := by
  have hl : l ∈ allLines src := by simp [hsplit]
  rw [(h.hasToken.standsIn hl).2, line_of_allLines_eq hsplit]

theorem ofSource_join_append_eq_error {before after : List SourceLine} {l : SourceLine}
    {q : Program} (hsplit : allLines src = before ++ l :: after)
    (hq : empty.addLines before = .ok q) (hl : q.addLine l = .error d) (more : List Text) :
    ofSource (Text.join '\n' ((src.splitOn '\n').take (before.length + 1) ++ more)) = .error d := by
  have hne : (src.splitOn '\n').take (before.length + 1) ≠ [] := by
    simp [Text.splitOn_ne_nil]
  have hlines : (allLines src).take (before.length + 1) = before ++ [l] := by
    rw [hsplit, List.append_cons, List.take_left' (by simp)]
  -- The first lines are cut and numbered as before, whatever follows them.
  obtain ⟨rest, hrest⟩ := exists_allLines_join_append hne more
  rw [allLines_join_take (Nat.succ_ne_zero _), hlines, ← List.append_cons] at hrest
  rw [ofSource_eq_addLines, hrest]
  exact addLines_eq_error_iff.mpr ⟨before, l, rest, q, rfl, hq, hl⟩

/-- All first lines of a source that is read are read. -/
theorem exists_ofSource_join_take (h : ofSource src = .ok p) (k : Nat) :
    ∃ q, ofSource (Text.join '\n' ((src.splitOn '\n').take k)) = .ok q := by
  rw [ofSource_eq_addLines, ← List.take_append_drop k (allLines src), addLines_append] at h
  obtain ⟨q, hq, -⟩ := bind_eq_ok_iff.mp h
  exact ⟨q, (ofSource_join_take src k).trans hq⟩

/-! ## Branches -/

theorem pairwise_line_of_ofSource (h : ofSource src = .ok p) :
    p.stmts.toList.Pairwise fun s s' => s.line < s'.line := by
  rw [← List.pairwise_map]
  refine List.Pairwise.sublist (ofSource_laidOut h).lines ?_
  rw [List.pairwise_map]
  exact sourceLines_pairwise_line src

theorem branchDistance?_of_ofSource (h : ofSource src = .ok p) (hsize : src.byteSize < 2 ^ 32)
    {s : Statement} (hs : s ∈ p.stmts.toList) (dest : UInt8) :
    branchDistance? s.addr dest = some (dest.toNat - ((s.addr : Int) + 1)) := by
  obtain ⟨es, hreads, -, hrep⟩ := exists_listing_of_ofSource h
  have hlaid := ofSource_laidOut h
  have hbytes := Listing.two_mul_size_le hreads
  have htotal : Listing.size es = totalSize p.stmts.toList := hrep.size_eq.symm.trans hlaid.size
  obtain ⟨before, after, hsplit⟩ := List.append_of_mem hs
  have hstep := hlaid.inStep
  have hopcode := hstep.size_eq s hs
  rw [hsplit] at hstep
  rw [hsplit, totalSize_append, totalSize_cons, ← hstep.addr_eq] at htotal
  exact branchDistance?_eq dest (by omega)

theorem line_of_branchFault (h : ofSource src = .ok p) {s : Statement}
    (hs : s ∈ p.stmts.toList) (hd : s.BranchFault p.symbols d) : d.line = s.line := by
  cases hd with
  | unknown hname _ => exact (standsIn_of_target h hs hname).2
  | outOfRange hname _ _ _ => exact (standsIn_of_target h hs hname).2

/-! ## Sources -/

/-- Where the fault of a source is. -/
structure FailsFast (src : Text) : Prop where
  /-- The line that the diagnostic of reading names is refused: the lines before it are read,
  and the diagnostic is the same whatever lines follow. -/
  reading : ∀ d, ofSource src = .error d →
    1 ≤ d.line ∧ d.line ≤ (src.splitOn '\n').length ∧
    (∃ p, ofSource (Text.join '\n' ((src.splitOn '\n').take (d.line - 1))) = .ok p) ∧
    ∀ more, ofSource (Text.join '\n' ((src.splitOn '\n').take d.line ++ more)) = .error d
  /-- Encoding reports the first branch in the order of the lines that is at fault. -/
  encoding : ∀ p d, ofSource src = .ok p → p.rom = .error (.fault d) →
    ∃ before s after, p.stmts.toList = before ++ s :: after ∧
      s.BranchFault p.symbols d ∧ d.line = s.line ∧
      (∀ s' ∈ before, s'.line < s.line ∧ s'.Reaches p.symbols) ∧ ∀ s' ∈ after, s.line < s'.line
  /-- The distances of branches are those of addresses. -/
  distance : ∀ p, ofSource src = .ok p → src.byteSize < 2 ^ 32 → ∀ s ∈ p.stmts.toList, ∀ dest,
    branchDistance? s.addr dest = some (dest.toNat - ((s.addr : Int) + 1))
  /-- A fault is either one of reading, or one of encoding and then no line is refused. -/
  precedence : ∀ d, assemble src = .error (.fault d) → ofSource src = .error d ∨
    ((∀ k, ∃ q, ofSource (Text.join '\n' ((src.splitOn '\n').take k)) = .ok q) ∧
      ∃ p, ofSource src = .ok p ∧ p.rom = .error (.fault d))

/-- Every source is refused at its first fault. -/
theorem failsFast (src : Text) : FailsFast src := by
  constructor
  · intro d h
    obtain ⟨before, l, after, q, fault, t, hsplit, hq, hl, rfl, hblames⟩ :=
      exists_blames_of_ofSource h
    have hline : (Diagnostic.atToken fault t).line = before.length + 1 :=
      line_of_blames hsplit hblames
    rw [hline, Nat.add_sub_cancel]
    refine ⟨Nat.le_add_left 1 _, ?_, ⟨q, ?_⟩, ofSource_join_append_eq_error hsplit hq hl⟩
    · rw [← length_allLines, hsplit, List.length_append, List.length_cons]
      omega
    · rw [ofSource_join_take, hsplit, List.take_left]
      exact hq
  · intro p d h hrom
    obtain ⟨before, s, after, hsplit, hbefore, hd⟩ :=
      (rom_eq_fault_iff (ofSource_laidOut h).inStep).mp hrom
    have hlines := pairwise_line_of_ofSource h
    rw [hsplit] at hlines
    obtain ⟨-, hafter, hlt⟩ := List.pairwise_append.mp hlines
    refine ⟨before, s, after, hsplit, hd, line_of_branchFault h (by simp [hsplit]) hd, ?_,
      (List.pairwise_cons.mp hafter).1⟩
    intro s' hs'
    exact ⟨hlt s' hs' s List.mem_cons_self, hbefore s' hs'⟩
  · intro p h hsize s hs dest
    exact branchDistance?_of_ofSource h hsize hs dest
  · intro d h
    rcases assemble_eq_fault_iff.mp h with h | ⟨p, hp, hrom⟩
    · exact Or.inl h
    · exact Or.inr ⟨exists_ofSource_join_take hp, p, hp, hrom⟩

/-- A constant that is defined too late, and a branch to a name that is never defined. -/
theorem failsFast_missing_names :
    (∃ d, ofSource "INC A\nLD B, KEY\nKEY EQU $1F".toList = .error d ∧ d.line = 2 ∧
      ∀ more, ofSource (Text.join '\n' (["INC A".toList, "LD B, KEY".toList] ++ more)) =
        .error d) ∧
    ∃ p d, ofSource "BRA end\nBNE far\nend: BEQ far".toList = .ok p ∧
      p.rom = .error (.fault d) ∧ d.line = 2 ∧ ∃ before s after,
        p.stmts.toList = before ++ s :: after ∧ s.BranchFault p.symbols d ∧
        ∀ s' ∈ before, s'.Reaches p.symbols := by
  constructor
  · exact ⟨_, rfl, rfl, ((failsFast "INC A\nLD B, KEY\nKEY EQU $1F".toList).reading _ rfl).2.2.2⟩
  · have hfault : assemble "BRA end\nBNE far\nend: BEQ far".toList =
        .error (.fault (.undefined ⟨"far".toList, ⟨12, 3⟩, 2⟩)) := by decide +kernel
    have hfast := failsFast "BRA end\nBNE far\nend: BEQ far".toList
    rcases hfast.precedence _ hfault with hread | ⟨-, p, hp, hrom⟩
    · cases hread
    · obtain ⟨before, s, after, hsplit, hd, -, hbefore, -⟩ := hfast.encoding p _ hp hrom
      exact ⟨p, _, hp, hrom, rfl, before, s, after, hsplit, hd, fun s' hs' => (hbefore s' hs').2⟩

end Program

end MightyAsm
