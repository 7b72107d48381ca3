/-!
# TOML texts in quotes

Basic texts know escapes, literal texts do not, and both have a form in three quotes that
may run over several lines. A reader takes the characters after the opening quotes and
returns the text with the characters after the closing ones.
-/

namespace Recoding.Document.Toml

abbrev Quoted := Option (List Char × List Char)

/-- Whether a character may stand in a text by itself. -/
def isPrintable (c : Char) : Bool := c == '\t' || (0x20 ≤ c.toNat && c.toNat != 0x7F)

def hexValue? (digits : List Char) : Option Nat :=
  digits.foldlM (fun n c =>
    if c.isDigit then some (16 * n + (c.toNat - '0'.toNat))
    else if 'a' ≤ c ∧ c ≤ 'f' then some (16 * n + (c.toNat - 'a'.toNat + 10))
    else if 'A' ≤ c ∧ c ≤ 'F' then some (16 * n + (c.toNat - 'A'.toNat + 10))
    else none) 0

/-- The character of a numeric escape; surrogates are no characters. -/
def scalarOf? (digits : List Char) : Option Char := do
  let n ← hexValue? digits
  if n < 0xD800 ∨ (0xDFFF < n ∧ n ≤ 0x10FFFF) then some (Char.ofNat n) else none

def escaped? : Char → Option Char
  | 'b' => some '\x08'
  | 't' => some '\t'
  | 'n' => some '\n'
  | 'f' => some '\x0c'
  | 'r' => some '\r'
  | '"' => some '"'
  | '\\' => some '\\'
  | _ => none

/-- Puts a character in front of a text. -/
def Quoted.cons (c : Char) (q : Quoted) : Quoted := q.map fun (text, rest) => (c :: text, rest)

def basicText : List Char → Quoted
  | '"' :: rest => some ([], rest)
  | '\\' :: 'u' :: a :: b :: c :: d :: rest =>
    match scalarOf? [a, b, c, d] with
    | some x => (basicText rest).cons x
    | none => none
  | '\\' :: 'U' :: a :: b :: c :: d :: e :: f :: g :: h :: rest =>
    match scalarOf? [a, b, c, d, e, f, g, h] with
    | some x => (basicText rest).cons x
    | none => none
  | '\\' :: c :: rest =>
    match escaped? c with
    | some x => (basicText rest).cons x
    | none => none
  | c :: rest => if isPrintable c then (basicText rest).cons c else none
  | [] => none

def literalText : List Char → Quoted
  | [] => none
  | c :: rest =>
    if c = '\x27' then some ([], rest)
    else if isPrintable c then (literalText rest).cons c else none

/-- Where the reader of a long basic text stands. -/
inductive LongMode where
  | text
  /-- After a backslash and perhaps blanks, before the end of a line. -/
  | lineEnd
  /-- Before the first character that is neither blank nor the end of a line. -/
  | margin
deriving DecidableEq, Repr

/-- A basic text in three quotes. Up to two more quotes may stand before the closing
ones. A backslash at the end of a line removes all blanks up to the next character. -/
def longBasicText : LongMode → List Char → Quoted
  | _, [] => none
  | .lineEnd, '\n' :: rest => longBasicText .margin rest
  | .lineEnd, '\r' :: '\n' :: rest => longBasicText .margin rest
  | .lineEnd, c :: rest => if c = ' ' ∨ c = '\t' then longBasicText .lineEnd rest else none
  | .margin, ' ' :: rest => longBasicText .margin rest
  | .margin, '\t' :: rest => longBasicText .margin rest
  | .margin, '\n' :: rest => longBasicText .margin rest
  | .margin, '\r' :: '\n' :: rest => longBasicText .margin rest
  | _, '"' :: '"' :: '"' :: '"' :: '"' :: rest => some (['"', '"'], rest)
  | _, '"' :: '"' :: '"' :: '"' :: rest => some (['"'], rest)
  | _, '"' :: '"' :: '"' :: rest => some ([], rest)
  | _, '"' :: rest => (longBasicText .text rest).cons '"'
  | _, '\r' :: '\n' :: rest => (longBasicText .text rest).cons '\n'
  | _, '\n' :: rest => (longBasicText .text rest).cons '\n'
  | _, '\\' :: 'u' :: a :: b :: c :: d :: rest =>
    match scalarOf? [a, b, c, d] with
    | some x => (longBasicText .text rest).cons x
    | none => none
  | _, '\\' :: 'U' :: a :: b :: c :: d :: e :: f :: g :: h :: rest =>
    match scalarOf? [a, b, c, d, e, f, g, h] with
    | some x => (longBasicText .text rest).cons x
    | none => none
  | _, '\\' :: c :: rest =>
    if c = '\n' then longBasicText .margin rest
    else if c = ' ' ∨ c = '\t' ∨ c = '\r' then longBasicText .lineEnd (c :: rest)
    else match escaped? c with
      | some x => (longBasicText .text rest).cons x
      | none => none
  | _, c :: rest => if isPrintable c then (longBasicText .text rest).cons c else none

/-- A literal text in three quotes, with up to two more quotes before the closing ones. -/
def longLiteralText : List Char → Quoted
  | [] => none
  | '\x27' :: '\x27' :: '\x27' :: '\x27' :: '\x27' :: rest => some (['\x27', '\x27'], rest)
  | '\x27' :: '\x27' :: '\x27' :: '\x27' :: rest => some (['\x27'], rest)
  | '\x27' :: '\x27' :: '\x27' :: rest => some ([], rest)
  | '\r' :: '\n' :: rest => (longLiteralText rest).cons '\n'
  | c :: rest =>
    if c = '\n' ∨ isPrintable c then (longLiteralText rest).cons c else none

/-- Leaves out the end of a line right after the opening quotes. -/
def skipFirstNewline : List Char → List Char
  | '\n' :: rest => rest
  | '\r' :: '\n' :: rest => rest
  | rest => rest

/-- Reads a text of any kind, opening quotes included. -/
def quoted : List Char → Quoted
  | '"' :: '"' :: '"' :: rest => longBasicText .text (skipFirstNewline rest)
  | '"' :: rest => basicText rest
  | '\x27' :: '\x27' :: '\x27' :: rest => longLiteralText (skipFirstNewline rest)
  | '\x27' :: rest => literalText rest
  | _ => none

end Recoding.Document.Toml
