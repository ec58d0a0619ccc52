namespace DocShell.Toml

/-- Numbers with a fraction and points in time are kept as they are written. A `void` stands for a
number without a value, because it is out of range or has the wrong digits. A document may hold one,
but it cannot be read. -/
inductive Value where
  | string (value : String)
  | integer (value : Int)
  | float (written : String)
  | boolean (value : Bool)
  | datetime (written : String)
  | void
  | array (items : List Value)
  | table (entries : List (String × Value))
deriving Repr

mutual

/-- Whether a value can be read to its end, which takes that no void is in it. -/
def Value.isReadable : Value → Bool
  | .void => false
  | .array items => itemsReadable items
  | .table entries => entriesReadable entries
  | _ => true

def itemsReadable : List Value → Bool
  | [] => true
  | item :: items => item.isReadable && itemsReadable items

def entriesReadable : List (String × Value) → Bool
  | [] => true
  | (_, value) :: entries => value.isReadable && entriesReadable entries

end

end DocShell.Toml
