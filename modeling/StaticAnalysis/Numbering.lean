/-!
Numberings: sources of fresh 32-bit numbers, counting up and starting over at zero after the
largest.
-/

namespace StaticAnalysis

/-- A source of numbers. -/
structure Numbering where
  /-- The number that is handed out next. -/
  upcoming : UInt32 := 0
  deriving DecidableEq

/-- Hands out a number. -/
def Numbering.take (s : Numbering) : UInt32 × Numbering := (s.upcoming, ⟨s.upcoming + 1⟩)

/-- The name of a program point. -/
structure NodeId where
  /-- The number behind the name. -/
  number : UInt32
  deriving DecidableEq

namespace NodeId

instance : ToString NodeId := ⟨fun id => "n" ++ toString id.number⟩

/-- Hands out a list of names. -/
def mint : Nat → Numbering → List NodeId
  | 0, _ => []
  | count + 1, s => ⟨s.take.1⟩ :: mint count s.take.2

end NodeId

end StaticAnalysis
