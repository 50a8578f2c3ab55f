import MightyAsm.Text.Basic

/-!
# Spans

A span is a range of bytes of a source. It says where a token stands, and a diagnostic
where its offending text stands.
-/

namespace MightyAsm

/-- A range of bytes of a source: where it begins and how many bytes it has. -/
structure Span where
  offs : Nat := 0
  len : Nat := 0
deriving DecidableEq, Repr, Inhabited

namespace Span

/-- The offset of the first byte after a span. -/
def stop (s : Span) : Nat :=
  s.offs + s.len

/-- The text that a span covers in a source. -/
def extract (s : Span) (src : Text) : Text :=
  (src.dropBytes s.offs).takeBytes s.len

theorem extract_append (before t after : Text) :
    extract ⟨before.byteSize, t.byteSize⟩ (before ++ (t ++ after)) = t := by
  rw [extract, Text.dropBytes_append, Text.takeBytes_append]

end Span

end MightyAsm
