import Recoding.Document.Toml.Quoted
import Recoding.Document.Toml.Scalar
import Recoding.Document.Toml.Table

/-!
# Reading TOML

A document is a sequence of lines: headers, fields of the table that was opened last,
blank lines and comments. Only arrays and long texts may run over several lines.
-/

namespace Recoding.Document.Toml

/-! ## Blanks and comments -/

def isBlank (c : Char) : Bool := c == ' ' || c == '\t'

def skipBlanks (s : List Char) : List Char := s.dropWhile isBlank

def skipComment : List Char → List Char
  | '#' :: rest => rest.dropWhile isPrintable
  | rest => rest

/-- Leaves out blanks, comments and ends of lines. -/
def skipLines (inComment : Bool) : List Char → List Char
  | [] => []
  | '\n' :: rest => skipLines false rest
  | '\r' :: '\n' :: rest => skipLines false rest
  | c :: rest =>
    if inComment then (if isPrintable c then skipLines true rest else c :: rest)
    else if isBlank c then skipLines false rest
    else if c = '#' then skipLines true rest
    else c :: rest

/-- What follows the end of a line, if only blanks and a comment stand before it. -/
def lineEnd? (s : List Char) : Option (List Char) :=
  match skipComment (skipBlanks s) with
  | [] => some []
  | '\n' :: rest => some rest
  | '\r' :: '\n' :: rest => some rest
  | _ => none

/-! ## Keys -/

def isBareKey (c : Char) : Bool := c.isAlphanum || c == '_' || c == '-'

def name? : List Char → Option (String × List Char)
  | '"' :: rest => (basicText rest).map fun (text, rest) => (String.ofList text, rest)
  | '\x27' :: rest => (literalText rest).map fun (text, rest) => (String.ofList text, rest)
  | s =>
    let run := s.takeWhile isBareKey
    if run.isEmpty then none else some (String.ofList run, s.dropWhile isBareKey)

/-- A key of at most so many parts, with dots between them and blanks around them. -/
def key? : Nat → List Char → Option (List String × List Char)
  | 0, _ => none
  | limit + 1, s => do
    let (name, rest) ← name? (skipBlanks s)
    match skipBlanks rest with
    | '.' :: rest =>
      let (names, rest) ← key? limit rest
      return (name :: names, rest)
    | rest => return ([name], rest)

/-- Keys have fewer parts than this, and values are nested less deeply. -/
def depthLimit : Nat := 80

/-! ## Values -/

def isWordChar (c : Char) : Bool :=
  c.isAlphanum || c == '+' || c == '-' || c == '_' || c == '.' || c == ':'

/-- A value without quotes. One blank may separate a date from a time. -/
def plain? (s : List Char) : Option (Value × List Char) :=
  let word := s.takeWhile isWordChar
  let rest := s.dropWhile isWordChar
  match rest with
  | ' ' :: after =>
    let time := after.takeWhile isWordChar
    if isDate word && isZonedTime time then
      some (.timestamp (String.ofList (word ++ ' ' :: time)), after.dropWhile isWordChar)
    else (scalar? word).map (·, rest)
  | rest => (scalar? word).map (·, rest)

mutual

/-- A value in which values are nested at most `depth` times. `fuel` bounds the number of
steps and is twice the length of the text. -/
def value? : Nat → Nat → List Char → Option (Value × List Char)
  | 0, _, _ => none
  | _ + 1, 0, '[' :: _ => none
  | _ + 1, 0, '{' :: _ => none
  | fuel + 1, depth + 1, '[' :: rest => do
    let (items, rest) ← items? fuel depth rest
    return (.array items, rest)
  | fuel + 1, depth + 1, '{' :: rest =>
    match skipBlanks rest with
    | '}' :: rest => some (.object [], rest)
    | rest => do
      let (fields, rest) ← fields? fuel depth [] rest
      return (.object (fieldsToValues fields), rest)
  | _ + 1, _, s =>
    match s with
    | '"' :: _ => (quoted s).map fun (text, rest) => (.text (String.ofList text), rest)
    | '\x27' :: _ => (quoted s).map fun (text, rest) => (.text (String.ofList text), rest)
    | s => plain? s

/-- The items of an array; a comma may follow the last one. -/
def items? : Nat → Nat → List Char → Option (List Value × List Char)
  | 0, _, _ => none
  | fuel + 1, depth, s =>
    match skipLines false s with
    | ']' :: rest => some ([], rest)
    | s => do
      let (v, rest) ← value? fuel depth s
      match skipLines false rest with
      | ',' :: rest =>
        let (items, rest) ← items? fuel depth rest
        return (v :: items, rest)
      | ']' :: rest => return ([v], rest)
      | _ => none

/-- The fields of a table in braces, added to the ones before. -/
def fields? : Nat → Nat → Fields → List Char → Option (Fields × List Char)
  | 0, _, _, _ => none
  | fuel + 1, depth, fields, s => do
    let (path, rest) ← key? (depthLimit - 1) s
    match rest with
    | '=' :: rest =>
      let (v, rest) ← value? fuel depth (skipBlanks rest)
      let fields ← fields.insert? path v
      match skipBlanks rest with
      | ',' :: rest => fields? fuel depth fields rest
      | '}' :: rest => return (fields, rest)
      | _ => none
    | _ => none

end

/-! ## Documents -/

/-- The tables read so far and the path of the one that was opened last. -/
structure Sheet where
  fields : Fields
  current : List String
deriving Repr

namespace Sheet

/-- Adds a field to the table that was opened last. -/
def insert? (d : Sheet) (path : List String) (v : Value) : Option Sheet := do
  let fields ← d.fields.alterAt? .ancestor (fun _ inner => inner.insert? path v) d.current .header
  return { d with fields }

def line? (d : Sheet) : List Char → Option (Sheet × List Char)
  | '[' :: '[' :: rest => do
    let (path, rest) ← key? (depthLimit - 1) rest
    match rest with
    | ']' :: ']' :: rest => return (⟨← d.fields.openElement? path, path⟩, ← lineEnd? rest)
    | _ => none
  | '[' :: rest => do
    let (path, rest) ← key? (depthLimit - 1) rest
    match rest with
    | ']' :: rest => return (⟨← d.fields.openTable? path, path⟩, ← lineEnd? rest)
    | _ => none
  | s => do
    let (path, rest) ← key? (depthLimit - 1) s
    match rest with
    | '=' :: rest =>
      let rest := skipBlanks rest
      let (v, rest) ← value? (2 * rest.length + 2) (depthLimit - 1) rest
      return (← d.insert? path v, ← lineEnd? rest)
    | _ => none

def lines? : Nat → Sheet → List Char → Option Sheet
  | _, d, [] => some d
  | 0, _, _ :: _ => none
  | limit + 1, d, s =>
    match lineEnd? s with
    | some rest => lines? limit d rest
    | none => do
      let (d, rest) ← d.line? (skipBlanks s)
      lines? limit d rest

end Sheet

def skipMark : List Char → List Char
  | '\uFEFF' :: rest => rest
  | s => s

/-- The value that a text stands for: an object with the fields of the whole document. -/
def read? (s : String) : Option Value := do
  let text := skipMark s.toList
  let sheet ← Sheet.lines? text.length ⟨[], []⟩ text
  return .object (fieldsToValues sheet.fields)

end Recoding.Document.Toml
