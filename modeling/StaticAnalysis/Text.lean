import StaticAnalysis.Text.Extender
import StaticAnalysis.Text.Unprinted

/-!
Diagnostic text. Every value that can appear in a log line or in an error message has a second
text beside its display: one that names constructors and quotes strings, so that a string `1` and
an integer `1` do not read the same.
-/

namespace StaticAnalysis

/-- Types whose values have a diagnostic text. -/
class Describe (α : Type) where
  /-- The diagnostic text of a value. -/
  describe : α → String

export Describe (describe)

namespace Text

/-- Whether one of the ranges, each from a first to a last number, holds a number. -/
def inRanges (ranges : List (Nat × Nat)) (n : Nat) : Bool :=
  ranges.any fun r => r.1 ≤ n && n ≤ r.2

/-- Whether a character can be seen in a text as it is: it has a picture, and it does not melt into
the character before it. -/
def isPlain (c : Char) : Bool :=
  let n := c.toNat
  (0x20 ≤ n && n ≤ 0x7e) || !(inRanges unprintedRanges n || inRanges extenderRanges n)

/-- A character as it stands inside double quotes; one that cannot be seen is given by its number. -/
def escape (c : Char) : String :=
  match c with
  | '"' => "\\\""
  | '\\' => "\\\\"
  | '\n' => "\\n"
  | '\r' => "\\r"
  | '\t' => "\\t"
  | '\x00' => "\\0"
  | _ =>
    if isPlain c then c.toString
    else "\\u\x7b" ++ String.ofList (Nat.toDigits 16 c.toNat) ++ "\x7d"

/-- A string in double quotes, with every character escaped as needed. -/
def quote (s : String) : String :=
  "\"" ++ String.join (s.toList.map escape) ++ "\""

/-- Texts separated by a comma and a blank. -/
def commaSeparated (texts : List String) : String :=
  ", ".intercalate texts

/-- Texts in braces, separated by commas. -/
def braced (texts : List String) : String :=
  "\x7b" ++ commaSeparated texts ++ "\x7d"

end Text

instance : Describe Bool := ⟨toString⟩

instance : Describe Int := ⟨toString⟩

instance : Describe String := ⟨Text.quote⟩

instance {α β : Type} [Describe α] [Describe β] : Describe (α × β) :=
  ⟨fun p => "(" ++ describe p.1 ++ ", " ++ describe p.2 ++ ")"⟩

instance {α : Type} [Describe α] : Describe (List α) :=
  ⟨fun xs => "[" ++ Text.commaSeparated (xs.map describe) ++ "]"⟩

end StaticAnalysis
