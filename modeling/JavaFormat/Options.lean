/-!
# Formatting options

Widths are positive by construction, so no later stage has to check them.
-/

namespace JavaFormat

/-- Where a comment goes when it shares a line with both neighbours. -/
inductive TieBreak where
  | trailing
  | leading
deriving DecidableEq, Repr

/-- The word for a policy. -/
def TieBreak.name : TieBreak → String
  | .trailing => "trailing"
  | .leading => "leading"

/-- The policy that a word stands for. -/
def TieBreak.ofName? (s : String) : Option TieBreak :=
  if s = "trailing" then some .trailing
  else if s = "leading" then some .leading
  else none

/-- What the user can choose. -/
structure Options where
  /-- The width that lines are to keep to. -/
  printWidth : Nat := 80
  /-- The spaces of one level of indentation. -/
  tabWidth : Nat := 2
  /-- The policy for comments between two nodes on one line. -/
  tieBreak : TieBreak := .trailing
  printWidth_pos : 0 < printWidth := by decide
  tabWidth_pos : 0 < tabWidth := by decide

/-- The options that hold where nothing is set. -/
instance : Inhabited Options := ⟨{}⟩

/-- Reading a policy's word gives the policy back. -/
theorem TieBreak.ofName?_name (p : TieBreak) : ofName? p.name = some p := by
  cases p <;> decide

end JavaFormat
