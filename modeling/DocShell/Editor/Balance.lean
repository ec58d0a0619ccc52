import DocShell.Text.Blank

namespace DocShell.Editor

open DocShell.Text.Blank

/-- Whether all is closed at the end of a text, from where `depth` brackets and, if there is a
`quote`, a string are open. Only its own quote closes a string. A bracket may be closed that was
never opened; to wait for more input would not mend that. The depth has 32 bits. -/
def closes (quote : Option Char) (depth : Int32) : List Char → Bool
  | [] => quote.isNone && depth ≤ 0
  | c :: cs =>
      match quote with
      | some opening => closes (if c = opening then none else quote) depth cs
      | none =>
          if c = '"' ∨ c = '\'' then closes (some c) depth cs
          else if c = '[' ∨ c = '(' then closes none (depth + 1) cs
          else if c = ']' ∨ c = ')' then closes none (depth - 1) cs
          else closes none depth cs

def isComplete (line : List Char) : Bool :=
  let text := trim line
  text.isEmpty || closes none 0 text

end DocShell.Editor
