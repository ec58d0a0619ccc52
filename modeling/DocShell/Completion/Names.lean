import DocShell.Text.Ascii

namespace DocShell.Completion.Names

open DocShell.Text.Ascii
open DocShell.Text.Bytes

/-- The order of two names: the one that was typed in full comes first, then the shorter one in
bytes, then the smaller one. -/
def precedes (typed a b : String) : Bool :=
  let full (name : String) : Bool := typed != "" && sameLetters name.toList typed.toList
  let size (name : String) : Nat := byteLength name.toList
  if full a != full b then full a
  else if size a != size b then size a < size b
  else a ≤ b

def matching (typed : String) (names : List String) : List String :=
  (names.filter fun name => startsWith name.toList typed.toList).mergeSort (precedes typed)

theorem mem_matching {typed name : String} {names : List String} :
    name ∈ matching typed names ↔
      name ∈ names ∧ startsWith name.toList typed.toList = true := by
  simp [matching, List.mem_mergeSort]

end DocShell.Completion.Names
