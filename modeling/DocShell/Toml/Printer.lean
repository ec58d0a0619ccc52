import DocShell.Json.Printer
import DocShell.Toml.Token

namespace DocShell.Toml

open DocShell.Json

/-- The length of the longest run of a character, and of the run at the front. -/
def longestRun (c : Char) : List Char → Nat × Nat
  | [] => (0, 0)
  | d :: cs =>
      let (longest, front) := longestRun c cs
      if d = c then (max longest (front + 1), front + 1) else (longest, 0)

def needsCode (c : Char) : Bool := isControl c && c != '\n'

def codeOf (c : Char) : List Char :=
  let digit (value : Nat) : Char := (hexDigit (value % 16)).toUpper
  ['\\', 'u', '0', '0', digit (c.toNat / 16), digit c.toNat]

/-- The characters of a string between its quotes, with the escapes that it needs. Of a run of
quotes, `maxRun` stand for themselves, and line breaks do so in a string over many lines. -/
def escaped (multiline : Bool) (maxRun : Nat) (run : Nat) : List Char → List Char
  | [] => []
  | c :: cs =>
      if c = '"' then
        if run < maxRun then c :: escaped multiline maxRun (run + 1) cs
        else '\\' :: c :: escaped multiline maxRun 0 cs
      else
        let written :=
          match c with
          | '\x08' => ['\\', 'b']
          | '\t' => ['\\', 't']
          | '\n' => if multiline then [c] else ['\\', 'n']
          | '\x0c' => ['\\', 'f']
          | '\r' => ['\\', 'r']
          | '\\' => ['\\', '\\']
          | c => if needsCode c then codeOf c else [c]
        written ++ escaped multiline maxRun 0 cs

def basic (cs : List Char) : List Char := '"' :: escaped false 0 0 cs ++ ['"']

def literal (cs : List Char) : List Char := '\'' :: cs ++ ['\'']

/-- The line break after the opening quotes, which is there if the text has one itself. -/
def opening (cs : List Char) : List Char := if cs.contains '\n' then ['\n'] else []

def multilineBasic (cs : List Char) : List Char :=
  "\"\"\"".toList ++ opening cs ++ escaped true 2 0 cs ++ "\"\"\"".toList

def multilineLiteral (cs : List Char) : List Char :=
  "'''".toList ++ opening cs ++ cs ++ "'''".toList

def quote (text : String) : List Char :=
  let cs := text.toList
  let codes := cs.any needsCode
  let newline := cs.contains '\n'
  let escapes := cs.contains '\\'
  let quotes := (longestRun '"' cs).1
  let apostrophes := (longestRun '\'' cs).1
  if !codes && !escapes && quotes == 0 && !newline then basic cs
  else if !codes && apostrophes == 0 && !newline then literal cs
  else if !codes && !escapes && quotes ≤ 2 then multilineBasic cs
  else if !codes && apostrophes ≤ 2 then multilineLiteral cs
  else if newline then multilineBasic cs
  else basic cs

end DocShell.Toml
