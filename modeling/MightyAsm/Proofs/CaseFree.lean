import MightyAsm.Proofs.ConstForms
import MightyAsm.Proofs.Literals

/-!
# Where letter case does not matter

The letters of mnemonics, registers and digits may be written in either case, and so may those
of the keyword of a definition. `CaseFree` says which bytes of a source these are. They are never
the bytes of a name, so a source with other letter case there has the same names, and its lines
are read as before.

* `Operand.ofText?_of_upper`, `ConstDef.exists_read?_recased`: operands and definitions in other
  letter case;
* `Span.disjoint_of_isChain`: what stands in order has no byte in common;
* `CaseFree.exists_span`: a free byte of a line is in one of the free spans of that line;
* `SourceLine.label_not_free`, `Instruction.operand_not_free`: names have no free bytes;
* `forall₂_alike_allLines`: the lines of a source in other letter case.
-/

namespace MightyAsm

/-! ## Reading in either letter case -/

theorem isIdentifier_upper (t : Text) : isIdentifier t.upper = isIdentifier t := by
  cases t with
  | nil => rfl
  | cons c t =>
      have hchar : isIdentChar ∘ Char.toUpper = isIdentChar := funext isIdentChar_toUpper
      simp [Text.upper, isIdentifier, isIdentStart_toUpper, hchar]

theorem isSymbolName_of_upper {t u : Text} (h : u.upper = t.upper) :
    isSymbolName u = isSymbolName t := by
  have hreg : Register.ofText? u = Register.ofText? t := by
    ext r
    rw [Register.ofText?_eq_some_iff, Register.ofText?_eq_some_iff, h]
  rw [isSymbolName, isSymbolName, ← isIdentifier_upper u, h, isIdentifier_upper, hreg]

theorem upper_eq_cons {mark : Char} (hupper : mark.toUpper = mark) (hlower : mark.toLower = mark)
    {t u : Text} (h : u.upper = Text.upper (mark :: t)) :
    ∃ v : Text, u = mark :: v ∧ v.upper = t.upper := by
  cases u with
  | nil => cases h
  | cons d v =>
      obtain ⟨hd, hv⟩ := List.cons.inj h
      rw [hupper, toUpper_eq_iff hupper hlower] at hd
      exact ⟨v, by rw [hd], hv⟩

theorem Operand.WrittenAs.of_upper {o : Operand} {t u : Text} (ht : o.WrittenAs t)
    (h : u.upper = t.upper) (hname : isSymbolName t = true → u = t) : o.WrittenAs u := by
  cases o with
  | reg r => exact h.trans ht
  | imm value =>
      obtain ⟨digits, rfl, hdigits⟩ := ht
      obtain ⟨v, rfl, hv⟩ := upper_eq_cons rfl rfl h
      obtain ⟨w, rfl, hw⟩ := upper_eq_cons rfl rfl hv
      exact ⟨w, rfl, by rw [← hexByte?_upper, hw, hexByte?_upper, hdigits]⟩
  | addr value =>
      obtain ⟨digits, rfl, hdigits⟩ := ht
      obtain ⟨w, rfl, hw⟩ := upper_eq_cons rfl rfl h
      exact ⟨w, rfl, by rw [← hexByte?_upper, hw, hexByte?_upper, hdigits]⟩
  | symbol name =>
      obtain ⟨rfl, hsymbol⟩ := ht
      exact ⟨hname hsymbol, hsymbol⟩
  | here =>
      obtain ⟨w, rfl, hw⟩ := upper_eq_cons rfl rfl (ht ▸ h)
      rw [List.map_eq_nil_iff.mp hw]
      rfl

/-- An operand in other letter case is read as the same operand, unless it is a name. -/
theorem Operand.ofText?_of_upper {t u : Text} (h : u.upper = t.upper)
    (hname : isSymbolName t = true → u = t) : Operand.ofText? u = Operand.ofText? t := by
  ext o
  rw [Operand.ofText?_eq_some_iff, Operand.ofText?_eq_some_iff]
  constructor
  · intro ho
    refine ho.of_upper h.symm ?_
    intro hu
    rw [isSymbolName_of_upper h] at hu
    exact (hname hu).symm
  · intro ho
    exact ho.of_upper h hname

theorem foldCase_toUpper (c : Char) : foldCase c.toUpper = foldCase c :=
  apply_toUpper (by decide) c

theorem map_foldCase_upper (t : Text) : t.upper.map foldCase = t.map foldCase := by
  rw [Text.upper, List.map_map]
  apply List.map_congr_left
  intro c _
  exact foldCase_toUpper c

section Definitions

variable {free : Nat → Prop} {offs : Nat} {t u : Text}

theorem Gap.exists_recased (g : Gap) (h : g.val.Recased free offs u) : ∃ g' : Gap, g'.val = u := by
  refine ⟨⟨u, ?_, h.forall_mem isBlank_toUpper g.property.2⟩, rfl⟩
  intro hnil
  exact g.property.1 (h.eq_nil_iff.mp hnil)

/-- Each part of a definition stays what it is in other letter case. -/
theorem ConstForm.exists_recased (f : ConstForm) (h : f.text.Recased free offs u) :
    ∃ g : ConstForm, g.text = u ∧ f.name.Recased free offs g.name ∧ g.value = f.value := by
  -- The parts stand one after the other, so the other text is made of parts in the same order.
  obtain ⟨name, rest, rfl, hname, h⟩ := h.exists_of_append
  obtain ⟨gap, rest, rfl, hgap, h⟩ := h.exists_of_append
  obtain ⟨keyword, rest, rfl, hkeyword, h⟩ := h.exists_of_append
  obtain ⟨gap', rest, rfl, hgap', h⟩ := h.exists_of_append
  obtain ⟨digits, rfl, hdigits⟩ := upper_eq_cons rfl rfl h.upper_eq
  have hident : isIdentifier name = true := by
    rw [← isIdentifier_upper, hname.upper_eq, isIdentifier_upper, f.isIdentifier_name]
  have hfolds : keyword.map foldCase = f.keyword.map foldCase := by
    rw [← map_foldCase_upper, hkeyword.upper_eq, map_foldCase_upper]
  have hbyte : hexByte? digits = hexByte? f.digits := by
    rw [← hexByte?_upper, hdigits, hexByte?_upper]
  rw [f.hexByte?_digits] at hbyte
  obtain ⟨hhex, hvalue⟩ := hexByte?_eq_some_iff.mp hbyte
  rw [UInt8.toNat_ofNat', Nat.mod_eq_of_lt f.value_lt] at hvalue
  obtain ⟨gap, rfl⟩ := f.gap.exists_recased hgap
  obtain ⟨gap', rfl⟩ := f.gap'.exists_recased hgap'
  exact ⟨⟨name, gap, keyword, gap', digits, hident, hfolds ▸ f.folds, hhex⟩, rfl, hname, hvalue⟩

/-- A definition in other letter case gives the same value to its name. -/
theorem ConstDef.exists_read?_recased (h : t.Recased free offs u) {c : ConstDef}
    (hc : ConstDef.read? t = some c) :
    ∃ name, ConstDef.read? u = some ⟨name, c.value⟩ ∧ c.name.Recased free offs name := by
  obtain ⟨f, rfl, hname, hvalue⟩ := ConstDef.read?_eq_some_iff.mp hc
  obtain ⟨g, rfl, hg, hgvalue⟩ := f.exists_recased h
  refine ⟨g.name, ConstDef.read?_eq_some_iff.mpr ⟨g, rfl, rfl, hgvalue.trans hvalue⟩, ?_⟩
  rw [← hname]
  exact hg

theorem ConstDef.read?_eq_none_of_recased (h : t.Recased free offs u)
    (ht : ConstDef.read? t = none) : ConstDef.read? u = none := by
  cases hu : ConstDef.read? u with
  | none => rfl
  | some c =>
      obtain ⟨name, hread, -⟩ := ConstDef.exists_read?_recased h.symm hu
      rw [ht] at hread
      cases hread

end Definitions

/-! ## Bytes of spans -/

/-- A byte is one of those that a span covers. -/
def Span.Has (s : Span) (b : Nat) : Prop := s.offs ≤ b ∧ b < s.stop

instance (s : Span) : DecidablePred s.Has := fun _ => inferInstanceAs (Decidable (_ ∧ _))

theorem Fragment.Within.has {f g : Fragment} (h : f.Within g) {b : Nat} (hb : f.span.Has b) :
    g.span.Has b := by
  have hcut := h.cutFrom 0
  exact ⟨Nat.le_trans hcut.start_le hb.1, Nat.lt_of_lt_of_le hb.2 hcut.stop_le⟩

/-- Items whose spans stand in order have no byte in common. -/
theorem Span.disjoint_of_isChain {α : Type} {span : α → Span} {xs : List α}
    (h : xs.IsChain fun x y => (span x).stop < (span y).offs) {x y : α} (hx : x ∈ xs)
    (hy : y ∈ xs) (hne : x ≠ y) {b : Nat} (hb : (span x).Has b) : ¬ (span y).Has b := by
  -- Each span ends before the next begins, and so before all later ones begin.
  have htrans : IsTrans α fun x y => (span x).stop < (span y).offs := by
    constructor
    intro x y z hxy hyz
    have hle : (span y).offs ≤ (span y).stop := Nat.le_add_right _ _
    omega
  have hpairs : xs.Pairwise fun x y => ∀ b, (span x).Has b → ¬ (span y).Has b := by
    refine (List.isChain_iff_pairwise.mp h).imp ?_
    intro x y hlt b hxb hyb
    have hlow := hyb.1
    have hhigh := hxb.2
    omega
  have hsymm : Std.Symm fun x y => ∀ b, (span x).Has b → ¬ (span y).Has b :=
    ⟨fun x y hxy b hyb hxb => hxy b hxb hyb⟩
  exact hpairs.forall hx hy hne b hb

/-! ## Free bytes -/

/-- An operand with no name in it: a register, an immediate byte or an address. -/
def Token.isLiteral (op : Token) : Bool :=
  match Operand.ofText? op.text with
  | some (.reg _) | some (.imm _) | some (.addr _) => true
  | _ => false

/-- The spans of a line where letter case does not matter. For an instruction these are the
mnemonic and the operands that are registers or literals; for the definition of a constant, what
follows the name, which is the keyword and the value. -/
def SourceLine.caseFree (l : SourceLine) : List Span :=
  match l.instr with
  | none => []
  | some t =>
      let i := Instruction.ofToken t
      match ConstDef.read? t.text with
      | some _ => i.operands.map (·.span)
      | none => i.mnemonic.span :: (i.operands.filter (·.isLiteral)).map (·.span)

/-- A byte of a source where letter case does not matter. -/
def CaseFree (src : Text) (b : Nat) : Prop :=
  ∃ l ∈ sourceLines src, ∃ s ∈ l.caseFree, s.Has b

instance (src : Text) : DecidablePred (CaseFree src) :=
  fun b => inferInstanceAs (Decidable (∃ l ∈ sourceLines src, ∃ s ∈ l.caseFree, s.Has b))

/-- The text `src'` is `src` with the case of letters changed inside mnemonics, registers, the
digits of literals and the keywords of definitions, and nowhere else. -/
def CaseVariant (src src' : Text) : Prop := src.Recased (CaseFree src) 0 src'

instance (src src' : Text) : Decidable (CaseVariant src src') :=
  inferInstanceAs (Decidable (src.Recased (CaseFree src) 0 src'))

theorem eq_of_has {line offs : Nat} {ts : List Text} {x y : Fragment × Nat}
    (hx : x ∈ lineFragments line offs ts) (hy : y ∈ lineFragments line offs ts) {b : Nat}
    (hxb : x.1.span.Has b) (hyb : y.1.span.Has b) :
    x = y := by
  have hchain : (lineFragments line offs ts).IsChain
      fun x y => x.1.span.stop < y.1.span.offs := by
    have hfragments := (Fragment.isChain_layOut '\n' offs ts).imp fun _ _ h => h.2
    rw [← List.zipIdx_map_fst line (Fragment.layOut _ _ _), List.isChain_map] at hfragments
    exact hfragments
  by_contra hne
  exact Span.disjoint_of_isChain hchain hx hy hne hxb hyb

/-- Whatever is free of a line is within its instruction part. -/
theorem SourceLine.exists_of_caseFree {l : SourceLine} {s : Span} (h : s ∈ l.caseFree) :
    ∃ (t : Token) (f : Fragment), l.instr = some t ∧ f.Within t.fragment ∧ s = f.span := by
  unfold caseFree at h
  cases ht : l.instr with
  | none => simp [ht] at h
  | some t =>
      have hop : ∀ op ∈ (Instruction.ofToken t).operands,
          ∃ f : Fragment, f.Within t.fragment ∧ op.span = f.span := by
        intro op hop
        obtain ⟨f, hf, rfl⟩ := Instruction.exists_of_mem_operands hop
        exact ⟨f, hf, rfl⟩
      cases hc : ConstDef.read? t.text with
      | some c =>
          simp only [ht, hc, List.mem_map] at h
          obtain ⟨op, hmem, rfl⟩ := h
          obtain ⟨f, hf, hspan⟩ := hop op hmem
          exact ⟨t, f, rfl, hf, hspan⟩
      | none =>
          simp only [ht, hc, List.mem_cons, List.mem_map, List.mem_filter] at h
          rcases h with rfl | ⟨op, ⟨hmem, -⟩, rfl⟩
          · exact ⟨t, _, rfl, Fragment.takeWhile_within _ _, rfl⟩
          · obtain ⟨f, hf, hspan⟩ := hop op hmem
            exact ⟨t, f, rfl, hf, hspan⟩

/-- A free byte of a line is in one of the free spans of that line. -/
theorem CaseFree.exists_span {src : Text} {b : Nat} (h : CaseFree src b) {x : Fragment × Nat}
    (hx : x ∈ lineFragments 1 0 (src.splitOn '\n')) (hb : x.1.span.Has b) :
    ∃ s ∈ (SourceLine.ofFragment x.2 x.1).caseFree, s.Has b := by
  obtain ⟨l, hl, s, hs, hsb⟩ := h
  have hl := (sourceLines_sublist src).subset hl
  rw [allLines_eq_linesFrom, linesFrom_eq] at hl
  obtain ⟨y, hy, rfl⟩ := List.mem_map.mp hl
  obtain ⟨t, f, ht, hf, rfl⟩ := SourceLine.exists_of_caseFree hs
  have hyb := (SourceLine.instr_ofFragment_within ht).has (hf.has hsb)
  cases eq_of_has hx hy hb hyb
  exact ⟨f.span, hs, hsb⟩

/-! ## Names -/

/-- The label ends before the instruction part begins. -/
theorem SourceLine.label_not_free {line : Nat} {f : Fragment} {label : Token} {s : Span} {b : Nat}
    (hlabel : (ofFragment line f).label = some label) (hb : label.span.Has b)
    (hs : s ∈ (ofFragment line f).caseFree) : ¬ s.Has b := by
  intro hsb
  obtain ⟨k, hk⟩ := exists_colonAt (show (ofFragment line f).label ≠ none by simp [hlabel])
  obtain ⟨t, g, ht, hg, rfl⟩ := exists_of_caseFree hs
  have hstop := (colon_between hk line).1 label hlabel
  have hstart := (colon_between hk line).2 t ht
  have hinstr : t.span.offs ≤ b := (hg.has hsb).1
  have hlast := hb.2
  omega

section Instructions

variable {src : Text} {l : SourceLine} {t : Token} {b : Nat}

/-- The name of a constant is the first word of its definition. -/
theorem Instruction.name_not_free {c : ConstDef} (ht : t.StandsIn src)
    (hc : ConstDef.read? t.text = some c) (hl : l.instr = some t)
    (hb : (Fragment.mk c.name t.span.offs).span.Has b) : ∀ s ∈ l.caseFree, ¬ s.Has b := by
  intro s hs hsb
  simp only [SourceLine.caseFree, hl, hc, List.mem_map] at hs
  obtain ⟨op, hop, rfl⟩ := hs
  have hword : (ofToken t).mnemonic.span = (Fragment.mk c.name t.span.offs).span := by
    rw [← (ConstDef.word_of_read? hc).1]
    rfl
  have hstop := (ordered_ofToken ht).mnemonic_stop op hop
  rw [hword] at hstop
  have hlast := hb.2
  have hfirst := hsb.1
  omega

/-- An operand that names a symbol has neither the mnemonic nor a literal in it. -/
theorem Instruction.operand_not_free {op : Token} (ht : t.StandsIn src)
    (hc : ConstDef.read? t.text = none) (hl : l.instr = some t) (hop : op ∈ (ofToken t).operands)
    (hname : isSymbolName op.text = true) (hb : op.span.Has b) : ∀ s ∈ l.caseFree, ¬ s.Has b := by
  intro s hs hsb
  have hordered := ordered_ofToken ht
  simp only [SourceLine.caseFree, hl, hc, List.mem_cons, List.mem_map, List.mem_filter] at hs
  rcases hs with rfl | ⟨other, ⟨hother, hliteral⟩, rfl⟩
  · have hstop := hordered.mnemonic_stop op hop
    have hlast := hsb.2
    have hfirst := hb.1
    omega
  · have hchain : (ofToken t).operands.IsChain fun x y => x.span.stop < y.span.offs :=
      hordered.comma_between.imp fun x y ⟨k, hstop, hstart, _⟩ => Nat.lt_of_le_of_lt hstop hstart
    have hne : op ≠ other := by
      rintro rfl
      rw [Token.isLiteral, Operand.ofText?_eq_symbol_iff.mpr ⟨rfl, hname⟩] at hliteral
      cases hliteral
    exact Span.disjoint_of_isChain hchain hop hother hne hb hsb

end Instructions

/-! ## Lines in other letter case -/

/-- An operand in other letter case that is read as the same. -/
structure Token.Alike (t u : Token) : Prop where
  span : u.span = t.span
  line : u.line = t.line
  upper : u.text.upper = t.text.upper
  operand : Operand.ofText? u.text = Operand.ofText? t.text

structure Instruction.Alike (i j : Instruction) : Prop where
  span : j.text.span = i.text.span
  line : j.text.line = i.text.line
  key : j.key = i.key
  operands : List.Forall₂ Token.Alike i.operands j.operands

inductive SourceLine.Body.Alike : SourceLine.Body → SourceLine.Body → Prop
  | same (b : SourceLine.Body) : Alike b b
  | instruction {i j : Instruction} : i.Alike j → Alike (.instruction i) (.instruction j)

/-- Lines with the same names, and the same instruction up to letter case. -/
structure SourceLine.Alike (l l' : SourceLine) : Prop where
  line : l'.line = l.line
  label : l'.label = l.label
  body : l.body.Alike l'.body

theorem Token.eq_of {t u : Token} (htext : u.text = t.text) (hspan : u.span = t.span)
    (hline : u.line = t.line) : u = t := by
  cases t
  cases u
  cases htext
  cases hspan
  cases hline
  rfl

/-- A token without free bytes is unchanged. -/
theorem Token.Recased.eq_self {free : Nat → Prop} {t u : Token} (h : t.Recased free u)
    (hspan : t.fragment.span = t.span) (hfree : ∀ b, t.span.Has b → ¬ free b) : u = t := by
  obtain ⟨huspan, huline, hutext⟩ := h
  refine Token.eq_of ?_ huspan huline
  apply hutext.eq_self
  intro b hlow hhigh
  apply hfree b
  rw [← hspan]
  exact ⟨hlow, hhigh⟩

section Lines

variable {src : Text} {x : Fragment × Nat} {g : Fragment} {t u : Token}

/-- Only the free spans of its own line can reach into a token. -/
theorem eq_self_of_not_free (hx : x ∈ lineFragments 1 0 (src.splitOn '\n'))
    (h : t.Recased (CaseFree src) u) (hspan : t.fragment.span = t.span)
    (hwithin : t.fragment.Within x.1)
    (hfree : ∀ b, t.span.Has b →
      ∀ s ∈ (SourceLine.ofFragment x.2 x.1).caseFree, ¬ s.Has b) : u = t := by
  refine h.eq_self hspan ?_
  intro b hb hcase
  have hxb : x.1.span.Has b := hwithin.has (hspan.symm ▸ hb)
  obtain ⟨s, hs, hsb⟩ := hcase.exists_span hx hxb
  exact hfree b hb s hs hsb

theorem mem_allLines_of_mem_lineFragments (hx : x ∈ lineFragments 1 0 (src.splitOn '\n')) :
    SourceLine.ofFragment x.2 x.1 ∈ allLines src := by
  rw [allLines_eq_linesFrom, linesFrom_eq]
  exact List.mem_map_of_mem hx

theorem SourceLine.label_eq_of_recased (hx : x ∈ lineFragments 1 0 (src.splitOn '\n'))
    (h : x.1.Recased (CaseFree src) g) :
    (ofFragment x.2 g).label = (ofFragment x.2 x.1).label := by
  have hrel := (recased_ofFragment h x.2).1
  generalize hlabel : (ofFragment x.2 x.1).label = label at hrel ⊢
  generalize (ofFragment x.2 g).label = label' at hrel ⊢
  cases hrel with
  | none => rfl
  | some ht =>
      have hstands := (standsIn_of_part (mem_allLines_of_mem_lineFragments hx) (Or.inl hlabel)).1
      have hwithin := (cutFrom_of_part (Or.inl hlabel)).within
      rw [eq_self_of_not_free hx ht hstands.span_fragment hwithin]
      intro b hb s hs
      exact label_not_free hlabel hb hs

theorem Instruction.alike_ofToken (hx : x ∈ lineFragments 1 0 (src.splitOn '\n'))
    (ht : (SourceLine.ofFragment x.2 x.1).instr = some t) (hc : ConstDef.read? t.text = none)
    (h : t.Recased (CaseFree src) u) : (ofToken t).Alike (ofToken u) := by
  have hstands := (standsIn_of_part (mem_allLines_of_mem_lineFragments hx) (Or.inr ht)).1
  have hwithin := (SourceLine.cutFrom_of_part (Or.inr ht)).within
  obtain ⟨hmnemonic, hoperands⟩ := recased_ofToken h
  refine ⟨h.1, h.2.1, hmnemonic.2.2.upper_eq, ?_⟩
  refine forall₂_imp_mem hoperands ?_
  intro op hop op' _ hrecased
  have hupper := hrecased.2.2.upper_eq
  refine ⟨hrecased.1, hrecased.2.1, hupper, Operand.ofText?_of_upper hupper ?_⟩
  intro hname
  obtain ⟨f, hf, rfl⟩ := exists_of_mem_operands hop
  rw [eq_self_of_not_free hx hrecased rfl (hf.trans hwithin)]
  intro b hb
  exact operand_not_free hstands hc ht hop hname hb

theorem SourceLine.body_alike (hx : x ∈ lineFragments 1 0 (src.splitOn '\n'))
    (h : x.1.Recased (CaseFree src) g) :
    (ofFragment x.2 x.1).body.Alike (ofFragment x.2 g).body := by
  have hrel := (recased_ofFragment h x.2).2
  unfold body
  generalize hinstr : (ofFragment x.2 x.1).instr = instr at hrel ⊢
  generalize (ofFragment x.2 g).instr = instr' at hrel ⊢
  cases hrel with
  | none => exact .same _
  | @some t u ht =>
      have hstands := (standsIn_of_part (mem_allLines_of_mem_lineFragments hx) (Or.inr hinstr)).1
      have hwithin := (cutFrom_of_part (Or.inr hinstr)).within
      cases hc : ConstDef.read? t.text with
      | some c =>
          obtain ⟨name, hread, hname⟩ := ConstDef.exists_read?_recased ht.2.2 hc
          have hrecased : (Fragment.mk c.name t.span.offs).Recased (CaseFree src)
              ⟨name, t.span.offs⟩ := ⟨rfl, hname⟩
          have hsame := eq_self_of_not_free hx (hrecased.token x.2) rfl
            ((ConstDef.name_within hc).trans hwithin)
            fun b hb => Instruction.name_not_free hstands hc hinstr hb
          simp only [hc, hread, ht.1, line_ofFragment, hsame]
          exact .same _
      | none =>
          simp only [hc, ConstDef.read?_eq_none_of_recased ht.2.2 hc]
          exact .instruction (Instruction.alike_ofToken hx hinstr hc ht)

end Lines

/-- The lines of a source in other letter case are those of the source, up to letter case where
it does not matter. -/
theorem forall₂_alike_allLines {src src' : Text} (h : CaseVariant src src') :
    List.Forall₂ SourceLine.Alike (allLines src) (allLines src') := by
  have hsource : (Fragment.mk src 0).Recased (CaseFree src) ⟨src', 0⟩ := ⟨rfl, h⟩
  have hlines := forall₂_zipIdx (hsource.splitOn (show '\n'.toUpper = '\n' from rfl) rfl) 1
  rw [allLines_eq_linesFrom, allLines_eq_linesFrom, linesFrom_eq, linesFrom_eq,
    List.forall₂_map_left_iff, List.forall₂_map_right_iff]
  refine forall₂_imp_mem hlines ?_
  intro x hx y _ hxy
  obtain ⟨hrecased, hnumber⟩ := hxy
  rw [hnumber]
  refine ⟨?_, SourceLine.label_eq_of_recased hx hrecased, SourceLine.body_alike hx hrecased⟩
  rw [SourceLine.line_ofFragment, SourceLine.line_ofFragment]

end MightyAsm
