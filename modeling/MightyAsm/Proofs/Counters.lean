import MightyAsm.Proofs.FailFast

/-!
# Counters stay small

Reading a source keeps three counters: the address of the next statement, the number of the
line and the offset of the line. Every accepted instruction has at least two bytes of text for
each byte of its encoding, and the text up to the end of any line is a source in its own right.
So after each line the address is at most half of the bytes that have been read, and neither
the number nor the offset of a line outgrows the source by more than one.

* `consumed`: the bytes that have been read after some lines;
* `Program.two_mul_size_le_consumed`: the bound on the address after each line;
* `end_eq_consumed`, `line_le_of_mem`: the places and the numbers of the lines;
* `countersBounded`: the bounds together, and that no counter wraps around.
-/

namespace MightyAsm

/-! ## Bytes that have been read -/

theorem Text.byteSize_join_le_append (sep : Char) (ps qs : List Text) :
    (Text.join sep ps).byteSize ≤ (Text.join sep (ps ++ qs)).byteSize := by
  by_cases hps : ps = []
  · rw [hps]
    exact Nat.zero_le _
  · by_cases hqs : qs = []
    · rw [hqs, List.append_nil]
    · rw [Text.join_append hps hqs, Text.byteSize_append]
      omega

/-- The bytes of the first `k` lines of a source, with the line feeds between them. -/
def consumed (src : Text) (k : Nat) : Nat :=
  (Text.join '\n' ((src.splitOn '\n').take k)).byteSize

theorem consumed_le (src : Text) (k : Nat) : consumed src k ≤ src.byteSize := by
  have hle := Text.byteSize_join_le_append '\n' ((src.splitOn '\n').take k)
    ((src.splitOn '\n').drop k)
  rwa [List.take_append_drop, Text.join_splitOn] at hle

/-! ## The address of the next statement -/

theorem Program.two_mul_size_le {src : Text} {p : Program} (h : ofSource src = .ok p) :
    2 * p.size ≤ src.byteSize := by
  obtain ⟨es, hreads, -, hrep⟩ := exists_listing_of_ofSource h
  rw [hrep.size_eq]
  exact Listing.two_mul_size_le hreads

/-- A place among the lines that say something is a place among all lines. -/
theorem exists_allLines_of_sourceLines_eq {src : Text} {done rest : List SourceLine}
    {l : SourceLine} (h : sourceLines src = done ++ l :: rest) :
    ∃ before after, allLines src = before ++ l :: after ∧
      (before ++ [l]).filter (fun l => !l.isBlankLine) = done ++ [l] := by
  obtain ⟨ls, ls', hall, rfl, hls'⟩ := List.filter_eq_append_iff.mp h
  obtain ⟨skipped, after, rfl, hskipped, hl, -⟩ := List.filter_eq_cons_iff.mp hls'
  refine ⟨ls ++ skipped, after, by rw [hall, List.append_assoc], ?_⟩
  rw [List.filter_append, List.filter_append, List.filter_eq_nil_iff.mpr hskipped,
    List.append_nil, List.filter_singleton, hl, cond_true]

/-- After each line, the address of the next statement is at most half of the bytes read. -/
theorem Program.two_mul_size_le_consumed {src : Text} {done rest : List SourceLine}
    {l : SourceLine} {q : Program} (hsplit : sourceLines src = done ++ l :: rest)
    (h : empty.addLines (done ++ [l]) = .ok q) : 2 * q.size ≤ consumed src l.line := by
  obtain ⟨before, after, hall, hfilter⟩ := exists_allLines_of_sourceLines_eq hsplit
  have htake : (allLines src).take l.line = before ++ [l] := by
    rw [line_of_allLines_eq hall, hall, List.append_cons, List.take_left' (by simp)]
  -- What has been read up to here is a source that means the same program.
  have hprefix : ofSource (Text.join '\n' ((src.splitOn '\n').take l.line)) = .ok q := by
    rw [ofSource_join_take, htake, ← addLines_filter, hfilter, h]
  exact two_mul_size_le hprefix

/-! ## Places and numbers of lines -/

/-- A line ends where the bytes that have been read with it end. -/
theorem end_eq_consumed {src : Text} {x : Fragment × Nat}
    (h : x ∈ lineFragments 1 0 (src.splitOn '\n')) :
    x.1.offs + x.1.text.byteSize = consumed src x.2 := by
  obtain ⟨before, t, after, hsplit, rfl⟩ := exists_of_mem_lineFragments h
  have htake : (src.splitOn '\n').take (1 + before.length) = before ++ [t] := by
    rw [hsplit, List.append_cons, List.take_left' (by simp [Nat.add_comm])]
  rw [consumed, htake, Text.join_append_cons]
  simp [Text.begun]

theorem line_le_of_mem {src : Text} {x : Fragment × Nat}
    (h : x ∈ lineFragments 1 0 (src.splitOn '\n')) : x.2 ≤ src.byteSize + 1 := by
  obtain ⟨before, t, after, hsplit, rfl⟩ := exists_of_mem_lineFragments h
  have hlength := Text.length_splitOn '\n' src
  have hcount : src.count '\n' ≤ src.length := List.count_le_length
  have hsize := Text.length_le_byteSize src
  rw [hsplit, List.length_append, List.length_cons] at hlength
  show 1 + before.length ≤ src.byteSize + 1
  omega

/-! ## All counters -/

/-- The counters that are kept while a source is read are bounded by its size. -/
structure CountersBounded (src : Text) : Prop where
  /-- A program takes at most half of the bytes of its source. -/
  size_le : ∀ p, Program.ofSource src = .ok p → 2 * p.size ≤ src.byteSize
  /-- After each line, the address of the next statement is at most half of the bytes read. -/
  step_le : ∀ done l rest q, sourceLines src = done ++ l :: rest →
    Program.empty.addLines (done ++ [l]) = .ok q → 2 * q.size ≤ consumed src l.line
  consumed_le : ∀ k, consumed src k ≤ src.byteSize
  /-- The bytes that are read with a line are those before its end. -/
  end_eq : ∀ x ∈ ((Fragment.mk src 0).splitOn '\n').zipIdx 1,
    x.1.offs + x.1.text.byteSize = consumed src x.2
  /-- The offset that is kept after each line, one byte beyond its end. -/
  offs_le : ∀ x ∈ ((Fragment.mk src 0).splitOn '\n').zipIdx 1,
    x.1.offs + x.1.text.byteSize + 1 ≤ src.byteSize + 1
  line_le : ∀ x ∈ ((Fragment.mk src 0).splitOn '\n').zipIdx 1, x.2 ≤ src.byteSize + 1
  /-- If the size of the source is below the half of a word, no counter wraps around. -/
  fits : ∀ w, src.byteSize < 2 ^ w →
    (∀ done l rest q, sourceLines src = done ++ l :: rest →
      Program.empty.addLines (done ++ [l]) = .ok q → q.size < 2 ^ (w + 1)) ∧
    ∀ x ∈ ((Fragment.mk src 0).splitOn '\n').zipIdx 1,
      x.2 < 2 ^ (w + 1) ∧ x.1.offs + x.1.text.byteSize + 1 < 2 ^ (w + 1)

theorem countersBounded (src : Text) : CountersBounded src := by
  have hoffs : ∀ x ∈ ((Fragment.mk src 0).splitOn '\n').zipIdx 1,
      x.1.offs + x.1.text.byteSize ≤ src.byteSize := by
    intro x hx
    rw [end_eq_consumed hx]
    exact consumed_le src x.2
  refine
    { size_le := fun _ => Program.two_mul_size_le
      step_le := fun _ _ _ _ => Program.two_mul_size_le_consumed
      consumed_le := consumed_le src
      end_eq := fun _ => end_eq_consumed
      offs_le := fun x hx => Nat.succ_le_succ (hoffs x hx)
      line_le := fun _ => line_le_of_mem
      fits := ?_ }
  intro w hw
  have hdouble : 2 ^ (w + 1) = 2 * 2 ^ w := Nat.pow_succ'
  constructor
  · intro done l rest q hsplit h
    have hstep := Program.two_mul_size_le_consumed hsplit h
    have hconsumed := consumed_le src l.line
    omega
  · intro x hx
    have hline : x.2 ≤ src.byteSize + 1 := line_le_of_mem hx
    have hend := hoffs x hx
    omega

/-- The bound cannot be improved. -/
example : ∃ p, Program.ofSource "OR A,B".toList = .ok p ∧
    2 * p.size = Text.byteSize "OR A,B".toList :=
  ⟨_, rfl, by decide⟩

end MightyAsm
