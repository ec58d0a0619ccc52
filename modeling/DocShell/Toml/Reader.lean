import DocShell.Toml.Document
import DocShell.Toml.Scalar

namespace DocShell.Toml

/-- What is still open: an array with its items so far, the last first; an inline table with its
entries so far; or the statement itself. The last two have the key whose value is being read, its
last part first. -/
inductive Frame where
  | array (items : List Value)
  | inline (entries : Entries) (key : List String)
  | statement (key : List String)

inductive Place where
  | statement
  | table
  | element
  | inline (entries : Entries) (frames : List Frame)

/-- What has been read of a statement, and with it what may follow. -/
inductive State where
  | start
  | openHeader
  | closeHeader (key : List String)
  | part (place : Place) (key : List String)
  | afterPart (place : Place) (key : List String)
  | afterKey (entries : Entries) (key : List String) (frames : List Frame)
  | value (frames : List Frame)
  | itemOrClose (items : List Value) (frames : List Frame)
  | entryOrClose (entries : Entries) (frames : List Frame)
  | scalar (written : List Char) (frames : List Frame)
  | scalarGap (written gap : List Char) (frames : List Frame)
  | after (value : Value) (frames : List Frame)
  | done

/-- No more than this many arrays and inline tables are open at a time, and no key has more parts
than this. -/
def maxDepth : Nat := 80

def isBareChar (c : Char) : Bool := c.isAlphanum || c == '_' || c == '-'

/-- A part of a key: a string on one line, or characters that need no quotes. -/
def keyPart? : Token → Option String
  | .string value false => some (String.ofList value)
  | .atom source => if source.all isBareChar then some (String.ofList source) else none
  | _ => none

def begin? (frames : List Frame) : Token → Option State
  | .string value _ => some (.after (.string (String.ofList value)) frames)
  | .atom source => some (.scalar source frames)
  | .openBracket => if frames.length ≤ maxDepth then some (.itemOrClose [] frames) else none
  | .openBrace => if frames.length ≤ maxDepth then some (.entryOrClose [] frames) else none
  | _ => none

/-- The state behind a value that belongs to the innermost of what is open. -/
def close? (value : Value) (frames : List Frame) (token : Token) (document : Document) :
    Option (State × Document) :=
  match frames, token with
  | _, .blank _ => some (.after value frames, document)
  | .statement (name :: path) :: _, .newline =>
      (document.assign path.reverse name value).map fun document => (.start, document)
  | .array items :: rest, .comma => some (.itemOrClose (value :: items) rest, document)
  | .array items :: rest, .closeBracket =>
      some (.after (.array (value :: items).reverse) rest, document)
  | .array _ :: _, .newline => some (.after value frames, document)
  | .inline entries (name :: path) :: rest, .comma => do
      let entries ← Entries.assign path.reverse name value .defined entries
      return (.entryOrClose entries rest, document)
  | .inline entries (name :: path) :: rest, .closeBrace => do
      let entries ← Entries.assign path.reverse name value .defined entries
      return (.after (.table (entriesToValues entries)) rest, document)
  | .inline _ _ :: _, .newline => some (.after value frames, document)
  | _, _ => none

def closePart? (place : Place) (key : List String) (token : Token) (document : Document) :
    Option (State × Document) :=
  match place, key, token with
  | place, key, .blank _ => some (.afterPart place key, document)
  | place, key, .dot => some (.part place key, document)
  | .statement, key, .equals => some (.value [.statement key], document)
  | .inline entries frames, key, .equals => some (.value (.inline entries key :: frames), document)
  | .inline entries frames, key, .newline => some (.afterKey entries key frames, document)
  | .table, name :: path, .closeBracket =>
      (document.openTable path.reverse name).map fun document => (.done, document)
  | .element, key, .closeBracket => some (.closeHeader key, document)
  | _, _, _ => none

def readPart? (place : Place) (key : List String) (token : Token) (document : Document) :
    Option (State × Document) :=
  match token with
  | .blank _ => some (.part place key, document)
  | token =>
      if key.length < maxDepth then
        (keyPart? token).map fun name => (.afterPart place (name :: key), document)
      else none

def step? (state : State × Document) (token : Token) : Option (State × Document) :=
  let document := state.2
  let keep (state : State) : Option (State × Document) := some (state, document)
  match state.1, token with
  | .start, .newline | .start, .blank _ => keep .start
  | .start, .openBracket => keep .openHeader
  | .start, token => readPart? .statement [] token document
  | .openHeader, .openBracket => keep (.part .element [])
  | .openHeader, token => readPart? .table [] token document
  | .closeHeader (name :: path), .closeBracket =>
      (document.openElement path.reverse name).map fun document => (.done, document)
  | .closeHeader _, _ => none
  | .part place key, token => readPart? place key token document
  | .afterPart place key, token => closePart? place key token document
  | .afterKey entries key frames, .blank _ | .afterKey entries key frames, .newline =>
      keep (.afterKey entries key frames)
  | .afterKey entries key frames, .equals => keep (.value (.inline entries key :: frames))
  | .afterKey _ _ _, _ => none
  | .value frames, .blank _ => keep (.value frames)
  | .value (.inline entries key :: frames), .newline =>
      keep (.value (.inline entries key :: frames))
  | .value frames, token => (begin? frames token).bind keep
  | .itemOrClose items frames, .blank _ | .itemOrClose items frames, .newline =>
      keep (.itemOrClose items frames)
  | .itemOrClose items frames, .closeBracket => keep (.after (.array items.reverse) frames)
  | .itemOrClose items frames, token => (begin? (.array items :: frames) token).bind keep
  | .entryOrClose entries frames, .blank _ | .entryOrClose entries frames, .newline =>
      keep (.entryOrClose entries frames)
  | .entryOrClose entries frames, .closeBrace =>
      keep (.after (.table (entriesToValues entries)) frames)
  | .entryOrClose entries frames, token => readPart? (.inline entries frames) [] token document
  | .scalar written frames, .dot => keep (.scalar (written ++ ['.']) frames)
  | .scalar written frames, .atom source => keep (.scalar (written ++ source) frames)
  | .scalar written frames, .blank gap => keep (.scalarGap written gap frames)
  | .scalar written frames, token => do close? (← Value.ofScalar? written) frames token document
  | .scalarGap written gap frames, .atom source => keep (.scalar (written ++ gap ++ source) frames)
  | .scalarGap written _ frames, token => do
      close? (← Value.ofScalar? written) frames token document
  | .after value frames, token => close? value frames token document
  | .done, .newline => keep .start
  | .done, .blank _ => keep .done
  | .done, _ => none

def ofTokens? (tokens : List Token) : Option (List (String × Value)) :=
  match (tokens ++ [Token.newline]).foldlM step? (.start, Document.empty) with
  | some (.start, document) => some (entriesToValues document.root)
  | _ => none

/-- The entries of the table that a text denotes. A mark of the byte order in front is no part of
it. -/
def ofText? (text : String) : Option (List (String × Value)) :=
  let cs :=
    match text.toList with
    | '\ufeff' :: cs => cs
    | cs => cs
  (tokens? cs).bind ofTokens?

end DocShell.Toml
