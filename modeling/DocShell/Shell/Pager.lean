import DocShell.Text.Blank

namespace DocShell.Shell

open DocShell.Text.Blank

structure Pager where
  program : String
  arguments : List String
deriving DecidableEq, Repr

/-- The pager that a setting names, its words being the program and its arguments. -/
def Pager.ofSetting (setting : Option String) : Pager :=
  match words ((setting.getD "").toList) with
  | [] => ⟨"less", []⟩
  | program :: arguments => ⟨String.ofList program, arguments.map String.ofList⟩

end DocShell.Shell
