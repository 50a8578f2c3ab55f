import MightyAsm.Proofs.Lists
import MightyAsm.Proofs.Places
import MightyAsm.Proofs.Spacing

/-!
# Texts that differ in letter case

Changing the case of letters moves nothing: a character has the same number of bytes in either
case, and blanks, marks and the characters of identifiers are told apart without regard to it.
So a text with other letter case is cut into pieces at the same places, piece by piece with
other letter case.

* `forall_char`, `apply_toUpper`: properties of characters, checked for the first 128 and proved
  for the others;
* `Text.Recased`: a text with the letter case changed at some of the bytes where that is allowed;
* `Text.Recased.exists_of_append`, `Text.Recased.eq_self`: its parts, and the parts that are
  unchanged;
* `Fragment.Recased.splitOn`, `Fragment.Recased.trim`: cutting a text in either form;
* `SourceLine.recased_ofFragment`, `Instruction.recased_ofToken`: lines and instructions.
-/

namespace MightyAsm

/-! ## Characters -/

theorem forall_char {P : Char → Prop} (hlow : ∀ n : Fin 128, P (Char.ofNat n.val))
    (hhigh : ∀ c : Char, 128 ≤ c.toNat → P c) (c : Char) : P c := by
  by_cases hc : c.toNat < 128
  · have hn := hlow ⟨c.toNat, hc⟩
    simpa only [Char.ofNat_toNat] using hn
  · exact hhigh c (by omega)

theorem toUpper_of_le {c : Char} (h : 128 ≤ c.toNat) : c.toUpper = c := by
  unfold Char.toUpper
  split
  · rename_i hc
    have hz : c.toNat ≤ 122 := UInt32.le_iff_toNat_le.mp hc.2
    omega
  · rfl

theorem toLower_of_le {c : Char} (h : 128 ≤ c.toNat) : c.toLower = c := by
  unfold Char.toLower
  split
  · rename_i hc
    have hz : c.toNat ≤ 90 := UInt32.le_iff_toNat_le.mp hc.2
    omega
  · rfl

/-- What does not tell `a` to `z` from `A` to `Z` does not depend on letter case. -/
theorem apply_toUpper {α : Type} {f : Char → α}
    (h : ∀ n : Fin 128, f (Char.ofNat n.val).toUpper = f (Char.ofNat n.val)) (c : Char) :
    f c.toUpper = f c := by
  refine forall_char (P := fun c => f c.toUpper = f c) h ?_ c
  intro c hc
  rw [toUpper_of_le hc]

theorem isBlank_toUpper (c : Char) : isBlank c.toUpper = isBlank c :=
  apply_toUpper (by decide) c

theorem isIdentStart_toUpper (c : Char) : isIdentStart c.toUpper = isIdentStart c :=
  apply_toUpper (by decide) c

theorem isIdentChar_toUpper (c : Char) : isIdentChar c.toUpper = isIdentChar c :=
  apply_toUpper (by decide) c

theorem utf8Size_toUpper (c : Char) : c.toUpper.utf8Size = c.utf8Size :=
  apply_toUpper (by decide) c

/-- A character that is no letter is the upper case of itself only. -/
theorem toUpper_eq_iff {mark : Char} (hupper : mark.toUpper = mark) (hlower : mark.toLower = mark)
    (c : Char) : c.toUpper = mark ↔ c = mark := by
  have hback : c.toUpper = c ∨ c.toUpper.toLower = c :=
    forall_char (P := fun c => c.toUpper = c ∨ c.toUpper.toLower = c) (by decide)
      (fun _ hc => .inl (toUpper_of_le hc)) c
  constructor
  · intro h
    rcases hback with hsame | hlow
    · rw [← hsame, h]
    · rw [← hlow, h, hlower]
  · intro h
    rw [h, hupper]

theorem bne_toUpper {mark : Char} (hupper : mark.toUpper = mark) (hlower : mark.toLower = mark)
    (c : Char) : (c.toUpper != mark) = (c != mark) := by
  rw [Bool.eq_iff_iff, bne_iff_ne, bne_iff_ne, Ne, Ne, toUpper_eq_iff hupper hlower]

/-! ## Texts -/

namespace Text

/-- The text `u` is the text `t`, which begins at byte `offs`, with the case of letters changed
at some of the bytes that are free for it. -/
def Recased (free : Nat → Prop) : Nat → Text → Text → Prop
  | _, [], [] => True
  | offs, c :: t, d :: u =>
      d.toUpper = c.toUpper ∧ (d ≠ c → free offs) ∧ Recased free (offs + c.utf8Size) t u
  | _, _, _ => False

instance decidableRecased (free : Nat → Prop) [DecidablePred free] :
    (offs : Nat) → (t u : Text) → Decidable (Recased free offs t u)
  | _, [], [] => .isTrue trivial
  | _, [], _ :: _ => .isFalse id
  | _, _ :: _, [] => .isFalse id
  | offs, c :: t, _ :: u =>
      have := decidableRecased free (offs + c.utf8Size) t u
      inferInstanceAs (Decidable (_ ∧ _ ∧ _))

namespace Recased

variable {free : Nat → Prop} {offs : Nat} {t u : Text}

theorem upper_eq (h : Recased free offs t u) : u.upper = t.upper := by
  fun_induction Recased free offs t u with
  | case1 => rfl
  | case2 offs c t d u ih =>
      obtain ⟨hc, -, hrest⟩ := h
      simp only [upper, List.map_cons, hc, List.cons.injEq, true_and]
      exact ih hrest
  | case3 => exact h.elim

theorem byteSize_eq (h : Recased free offs t u) : u.byteSize = t.byteSize := by
  fun_induction Recased free offs t u with
  | case1 => rfl
  | case2 offs c t d u ih =>
      obtain ⟨hc, -, hrest⟩ := h
      rw [byteSize_cons, byteSize_cons, ih hrest, ← utf8Size_toUpper d, hc, utf8Size_toUpper]
  | case3 => exact h.elim

theorem symm (h : Recased free offs t u) : Recased free offs u t := by
  fun_induction Recased free offs t u with
  | case1 => trivial
  | case2 offs c t d u ih =>
      obtain ⟨hc, hfree, hrest⟩ := h
      refine ⟨hc.symm, fun hne => hfree hne.symm, ?_⟩
      rw [← utf8Size_toUpper d, hc, utf8Size_toUpper]
      exact ih hrest
  | case3 => exact h.elim

theorem exists_of_append {s t v : Text} (h : Recased free offs (s ++ t) v) :
    ∃ s' t', v = s' ++ t' ∧ Recased free offs s s' ∧ Recased free (offs + s.byteSize) t t' := by
  induction s generalizing offs v with
  | nil => exact ⟨[], v, rfl, trivial, h⟩
  | cons c s ih =>
      cases v with
      | nil => exact h.elim
      | cons d v =>
          obtain ⟨hc, hfree, hrest⟩ := h
          obtain ⟨s', t', rfl, hs, ht⟩ := ih hrest
          rw [Nat.add_assoc] at ht
          exact ⟨d :: s', t', rfl, ⟨hc, hfree, hs⟩, ht⟩

/-- A part without free bytes is unchanged. -/
theorem eq_self (h : Recased free offs t u)
    (hfree : ∀ b, offs ≤ b → b < offs + t.byteSize → ¬ free b) : u = t := by
  induction t generalizing offs u with
  | nil =>
      cases u with
      | nil => rfl
      | cons d u => exact h.elim
  | cons c t ih =>
      cases u with
      | nil => exact h.elim
      | cons d u =>
          obtain ⟨-, hc, hrest⟩ := h
          have hpos := c.utf8Size_pos
          rw [byteSize_cons] at hfree
          have hd : d = c := by
            by_contra hne
            exact hfree offs (Nat.le_refl offs) (by omega) (hc hne)
          have hu : u = t := by
            apply ih hrest
            intro b hlow hhigh
            exact hfree b (by omega) (by omega)
          rw [hd, hu]

/-! ## Classes of characters -/

variable {p : Char → Bool} (hp : ∀ c, p c.toUpper = p c)
include hp

theorem forall_mem (h : Recased free offs t u) {b : Bool} (ht : ∀ c ∈ t, p c = b) :
    ∀ d ∈ u, p d = b := by
  intro d hd
  have hmem : d.toUpper ∈ t.upper := h.upper_eq ▸ List.mem_map_of_mem hd
  obtain ⟨c, hc, hcd⟩ := List.mem_map.mp hmem
  rw [← hp d, ← hcd, hp c, ht c hc]

/-- Whether the first character is of a class does not depend on letter case. -/
theorem head? (h : Recased free offs t u) {b : Bool} (ht : ∀ c ∈ t.head?, p c = b) :
    ∀ d ∈ u.head?, p d = b := by
  cases t with
  | nil =>
      cases u with
      | nil => simp
      | cons d u => exact h.elim
  | cons c t =>
      cases u with
      | nil => simp
      | cons d u =>
          intro d' hd
          cases hd
          rw [← hp d, h.1, hp c, ht c rfl]

/-- A text in another letter case is cut where the class of its characters changes. -/
theorem span (h : Recased free offs t u) :
    Recased free offs (t.takeWhile p) (u.takeWhile p) ∧
      Recased free (offs + byteSize (t.takeWhile p)) (t.dropWhile p) (u.dropWhile p) := by
  rw [← List.takeWhile_append_dropWhile (p := p) (l := t)] at h
  obtain ⟨front, rest, rfl, hfront, hrest⟩ := h.exists_of_append
  have hall := hfront.forall_mem hp fun c hc => List.mem_takeWhile_imp hc
  have hstop := hrest.head? hp (b := false) fun c hc => by
    have hnot := List.head?_dropWhile_not p t
    rw [hc] at hnot
    exact hnot
  obtain ⟨htake, hdrop⟩ := span_append hall hstop
  rw [htake, hdrop]
  exact ⟨hfront, hrest⟩

end Recased

variable {free : Nat → Prop} {offs : Nat} {t u : Text}

theorem Recased.eq_nil_iff (h : Recased free offs t u) : u = [] ↔ t = [] := by
  cases t with
  | nil =>
      cases u with
      | nil => simp
      | cons d u => exact h.elim
  | cons c t =>
      cases u with
      | nil => exact h.elim
      | cons d u => simp

theorem Recased.trimEnd (h : Recased free offs t u) : Recased free offs t.trimEnd u.trimEnd := by
  fun_induction Recased free offs t u with
  | case1 => trivial
  | case2 offs c t d u ih =>
      obtain ⟨hc, hfree, hrest⟩ := h
      have hblank : isBlank d = isBlank c := by
        rw [← isBlank_toUpper d, hc, isBlank_toUpper]
      have hempty : (Text.trimEnd u).isEmpty = (Text.trimEnd t).isEmpty := by
        rw [Bool.eq_iff_iff, List.isEmpty_iff, List.isEmpty_iff, (ih hrest).eq_nil_iff]
      rw [trimEnd_cons, trimEnd_cons, hempty, hblank]
      split
      · trivial
      · exact ⟨hc, hfree, ih hrest⟩
  | case3 => exact h.elim

theorem Recased.not_mem {mark : Char} (hupper : mark.toUpper = mark)
    (hlower : mark.toLower = mark) (h : Recased free offs t u) (ht : mark ∉ t) : mark ∉ u := by
  have htmark : ∀ c ∈ t, (c != mark) = true := by
    intro c hc
    rw [bne_iff_ne]
    rintro rfl
    exact ht hc
  have hall := h.forall_mem (p := (· != mark)) (bne_toUpper hupper hlower) htmark
  intro hmem
  have hne := hall mark hmem
  simp at hne

end Text

/-! ## Fragments and tokens -/

/-- The same place, with other letter case. -/
def Fragment.Recased (free : Nat → Prop) (f g : Fragment) : Prop :=
  g.offs = f.offs ∧ f.text.Recased free f.offs g.text

/-- The same place and line, with other letter case. -/
def Token.Recased (free : Nat → Prop) (t u : Token) : Prop :=
  u.span = t.span ∧ u.line = t.line ∧ t.text.Recased free t.span.offs u.text

variable {free : Nat → Prop}

namespace Fragment.Recased

variable {f g : Fragment}

theorem span_eq (h : f.Recased free g) : g.span = f.span := by
  rw [Fragment.span, Fragment.span, h.1, h.2.byteSize_eq]

theorem token (h : f.Recased free g) (line : Nat) : (f.token line).Recased free (g.token line) :=
  ⟨h.span_eq, rfl, h.2⟩

theorem takeWhile {p : Char → Bool} (hp : ∀ c, p c.toUpper = p c) (h : f.Recased free g) :
    (f.takeWhile p).Recased free (g.takeWhile p) :=
  ⟨h.1, (h.2.span hp).1⟩

theorem dropWhile {p : Char → Bool} (hp : ∀ c, p c.toUpper = p c) (h : f.Recased free g) :
    (f.dropWhile p).Recased free (g.dropWhile p) := by
  obtain ⟨htake, hdrop⟩ := h.2.span hp
  refine ⟨?_, hdrop⟩
  rw [Fragment.dropWhile, Fragment.dropWhile, h.1, htake.byteSize_eq]

theorem trim (h : f.Recased free g) : f.trim.Recased free g.trim := by
  have hend : (Fragment.mk f.text.trimEnd f.offs).Recased free ⟨g.text.trimEnd, g.offs⟩ :=
    ⟨h.1, h.2.trimEnd⟩
  exact hend.dropWhile isBlank_toUpper

theorem trimmedToken? (h : f.Recased free g) (line : Nat) :
    Option.Rel (Token.Recased free) (f.trimmedToken? line) (g.trimmedToken? line) := by
  have hnil := h.trim.2.eq_nil_iff
  unfold Fragment.trimmedToken?
  split
  · rename_i hf
    rw [hnil.mpr hf]
    exact .none
  · rename_i hf
    split
    · rename_i hg
      exact absurd (hnil.mp hg) hf
    · exact .some (h.trim.token line)

theorem cut? {sep : Char} (hupper : sep.toUpper = sep) (hlower : sep.toLower = sep)
    (h : f.Recased free g) :
    Option.Rel (fun x y => x.1.Recased free y.1 ∧ x.2.Recased free y.2) (f.cut? sep)
      (g.cut? sep) := by
  have hleft := h.takeWhile (p := (· != sep)) (bne_toUpper hupper hlower)
  have hrest := (h.2.span (p := (· != sep)) (bne_toUpper hupper hlower)).2
  unfold Fragment.cut?
  cases hf : f.text.dropWhile (· != sep) with
  | nil =>
      cases hg : g.text.dropWhile (· != sep) with
      | nil => exact .none
      | cons d w =>
          rw [hf, hg] at hrest
          exact hrest.elim
  | cons c v =>
      cases hg : g.text.dropWhile (· != sep) with
      | nil =>
          rw [hf, hg] at hrest
          exact hrest.elim
      | cons d w =>
          rw [hf, hg, (Text.dropWhile_ne_eq_cons hf).1] at hrest
          refine .some ⟨hleft, ?_, hrest.2.2⟩
          simp only [hleft.1, hleft.2.byteSize_eq]

end Fragment.Recased

/-! ## Splitting -/

section Splitting

variable {sep : Char} (hupper : sep.toUpper = sep) (hlower : sep.toLower = sep)
include hupper hlower

/-- The separators stay where they are, so the parts between them correspond. -/
theorem Text.Recased.exists_of_join {ps : List Text} (hne : ps ≠ []) (hps : ∀ p ∈ ps, sep ∉ p)
    {offs : Nat} {u : Text} (h : Recased free offs (join sep ps) u) :
    ∃ qs, u = join sep qs ∧ qs ≠ [] ∧ (∀ q ∈ qs, sep ∉ q) ∧
      List.Forall₂ (Fragment.Recased free) (Fragment.layOut sep.utf8Size offs ps)
        (Fragment.layOut sep.utf8Size offs qs) := by
  induction ps generalizing offs u with
  | nil => exact absurd rfl hne
  | cons p ps ih =>
      obtain ⟨hp, hps⟩ := List.forall_mem_cons.mp hps
      cases ps with
      | nil =>
          refine ⟨[u], rfl, by simp, ?_, .cons ⟨rfl, h⟩ .nil⟩
          simpa using h.not_mem hupper hlower hp
      | cons p' ps =>
          obtain ⟨q, rest, rfl, hq, hrest⟩ := h.exists_of_append
          cases rest with
          | nil => exact hrest.elim
          | cons d rest =>
              -- A separator is no letter, so it is the same in both texts.
              obtain ⟨hd, -, hrest⟩ := hrest
              rw [hupper, toUpper_eq_iff hupper hlower] at hd
              obtain ⟨qs, rfl, hqne, hqs, hparts⟩ := ih (by simp) hps hrest
              refine ⟨q :: qs, ?_, by simp, ?_, .cons ⟨rfl, hq⟩ ?_⟩
              · cases qs with
                | nil => exact absurd rfl hqne
                | cons q' qs => rw [hd, join]
              · exact List.forall_mem_cons.mpr ⟨hq.not_mem hupper hlower hp, hqs⟩
              · rw [hq.byteSize_eq]
                exact hparts

theorem Fragment.Recased.splitOn {f g : Fragment} (h : f.Recased free g) :
    List.Forall₂ (Fragment.Recased free) (f.splitOn sep) (g.splitOn sep) := by
  obtain ⟨hoffs, htext⟩ := h
  rw [← Text.join_splitOn sep f.text] at htext
  obtain ⟨qs, hg, hne, hqs, hparts⟩ := htext.exists_of_join hupper hlower
    (Text.splitOn_ne_nil sep f.text) fun p hp => Text.not_mem_of_mem_splitOn hp
  rw [Fragment.splitOn, Fragment.splitOn, hoffs, hg, Text.splitOn_join hne hqs]
  exact hparts

end Splitting

/-! ## Lines and instructions -/

theorem SourceLine.recased_ofFragment {f g : Fragment} (h : f.Recased free g) (line : Nat) :
    Option.Rel (Token.Recased free) (ofFragment line f).label (ofFragment line g).label ∧
      Option.Rel (Token.Recased free) (ofFragment line f).instr (ofFragment line g).instr := by
  have hcode := h.takeWhile (p := (· != ';')) (bne_toUpper rfl rfl)
  have hcut := hcode.cut? (show ':'.toUpper = ':' from rfl) rfl
  unfold ofFragment
  dsimp only
  generalize (f.takeWhile (· != ';')).cut? ':' = x at hcut ⊢
  generalize (g.takeWhile (· != ';')).cut? ':' = y at hcut ⊢
  cases hcut with
  | none => exact ⟨.none, hcode.trimmedToken? line⟩
  | some hparts => exact ⟨hparts.1.trimmedToken? line, hparts.2.trimmedToken? line⟩

theorem Token.Recased.fragment {t u : Token} (h : t.Recased free u) :
    t.fragment.Recased free u.fragment :=
  ⟨congrArg Span.offs h.1, h.2.2⟩

theorem Instruction.recased_ofToken {t u : Token} (h : t.Recased free u) :
    (ofToken t).mnemonic.Recased free (ofToken u).mnemonic ∧
      List.Forall₂ (Token.Recased free) (ofToken t).operands (ofToken u).operands := by
  have hp : ∀ c : Char, (!isBlank c.toUpper) = !isBlank c := fun c => by rw [isBlank_toUpper]
  have hrest := (h.fragment.dropWhile (p := fun c => !isBlank c) hp).trim
  have hnil := hrest.2.eq_nil_iff
  have hparts : List.Forall₂ (Token.Recased free)
      (((t.fragment.dropWhile fun c => !isBlank c).trim.splitOn ',').map
        fun op => op.trim.token t.line)
      (((u.fragment.dropWhile fun c => !isBlank c).trim.splitOn ',').map
        fun op => op.trim.token u.line) := by
    rw [List.forall₂_map_left_iff, List.forall₂_map_right_iff, h.2.1]
    exact (hrest.splitOn rfl rfl).imp fun f g hfg => hfg.trim.token t.line
  refine ⟨?_, ?_⟩
  · rw [ofToken, ofToken, h.2.1]
    exact (h.fragment.takeWhile (p := fun c => !isBlank c) hp).token t.line
  · simp only [ofToken]
    split
    · rename_i ht
      rw [hnil.mpr ht]
      exact .nil
    · rename_i ht
      split
      · rename_i hu
        exact absurd (hnil.mp hu) ht
      · exact hparts

end MightyAsm
