import Recoding.Document.Json.Numeral

/-!
# JSON tokens

The text is read character by character. The only characters with a meaning of their own
between tokens are blanks, punctuation and quotes; all others belong to words.
-/

namespace Recoding.Document.Json

inductive Token where
  | openArray
  | closeArray
  | openObject
  | closeObject
  | comma
  | colon
  /-- A number or a literal. -/
  | scalar (v : Value)
  /-- A text, unless an escape in it stands for half a character only. -/
  | text (s : Option String)
deriving Inhabited, Repr

/-- The part of a text that has been read. -/
structure OpenText where
  /-- The characters read, in reverse. -/
  chars : List Char
  /-- The first half of a surrogate pair that waits for the second one. -/
  half : Option Nat
  /-- Whether no half was left alone so far. -/
  whole : Bool
deriving Repr

namespace OpenText

def empty : OpenText := ⟨[], none, true⟩

/-- Appends a character; a half that was waiting stays alone. -/
def push (p : OpenText) (c : Char) : OpenText := ⟨c :: p.chars, none, p.whole && p.half.isNone⟩

/-- Appends a 16-bit unit, which may be half of a surrogate pair. -/
def pushUnit (p : OpenText) (unit : Nat) : OpenText :=
  if 0xD800 ≤ unit ∧ unit ≤ 0xDBFF then ⟨p.chars, some unit, p.whole && p.half.isNone⟩
  else if 0xDC00 ≤ unit ∧ unit ≤ 0xDFFF then
    match p.half with
    | some high =>
      ⟨Char.ofNat (0x10000 + (high - 0xD800) * 0x400 + (unit - 0xDC00)) :: p.chars, none, p.whole⟩
    | none => ⟨p.chars, none, false⟩
  else p.push (Char.ofNat unit)

def token (p : OpenText) : Token :=
  .text (if p.whole && p.half.isNone then some (String.ofList p.chars.reverse) else none)

end OpenText

inductive Mode where
  | between
  /-- Inside a word, with its characters in reverse. -/
  | word (chars : List Char)
  | text (read : OpenText)
  /-- After a backslash. -/
  | escape (read : OpenText)
  /-- Inside a numeric escape, with the number of digits and their value. -/
  | unit (read : OpenText) (digits value : Nat)
deriving Repr

/-- The tokens read, in reverse, and where the reader stands. -/
structure Lexer where
  tokens : List Token
  mode : Mode
deriving Repr

namespace Lexer

def initial : Lexer := ⟨[], .between⟩

def isBlank (c : Char) : Bool := c == ' ' || c == '\n' || c == '\r' || c == '\t'

def punctuation? : Char → Option Token
  | '[' => some .openArray
  | ']' => some .closeArray
  | '{' => some .openObject
  | '}' => some .closeObject
  | ',' => some .comma
  | ':' => some .colon
  | _ => none

def word? (chars : List Char) : Option Token :=
  if chars = ['n', 'u', 'l', 'l'] then some (.scalar .null)
  else if chars = ['t', 'r', 'u', 'e'] then some (.scalar (.bool true))
  else if chars = ['f', 'a', 'l', 's', 'e'] then some (.scalar (.bool false))
  else (Numeral.ofWord? chars).map fun n => .scalar n.value

def escaped? : Char → Option Char
  | '"' => some '"'
  | '\\' => some '\\'
  | '/' => some '/'
  | 'b' => some '\x08'
  | 'f' => some '\x0c'
  | 'n' => some '\n'
  | 'r' => some '\r'
  | 't' => some '\t'
  | _ => none

def hexDigit? (c : Char) : Option Nat :=
  if c.isDigit then some (c.toNat - '0'.toNat)
  else if 'a' ≤ c ∧ c ≤ 'f' then some (c.toNat - 'a'.toNat + 10)
  else if 'A' ≤ c ∧ c ≤ 'F' then some (c.toNat - 'A'.toNat + 10)
  else none

def begin (tokens : List Token) (c : Char) : Lexer :=
  if isBlank c then ⟨tokens, .between⟩
  else match punctuation? c with
    | some token => ⟨token :: tokens, .between⟩
    | none => if c = '"' then ⟨tokens, .text .empty⟩ else ⟨tokens, .word [c]⟩

def step (l : Lexer) (c : Char) : Option Lexer :=
  match l.mode with
  | .between => some (begin l.tokens c)
  | .word chars =>
    if isBlank c || (punctuation? c).isSome || c == '"' then do
      let token ← word? chars.reverse
      return begin (token :: l.tokens) c
    else some { l with mode := .word (c :: chars) }
  | .text read =>
    if c = '"' then some ⟨read.token :: l.tokens, .between⟩
    else if c = '\\' then some { l with mode := .escape read }
    else if c.toNat < 0x20 then none
    else some { l with mode := .text (read.push c) }
  | .escape read =>
    if c = 'u' then some { l with mode := .unit read 0 0 }
    else (escaped? c).map fun c => { l with mode := .text (read.push c) }
  | .unit read digits value => do
    let value := 16 * value + (← hexDigit? c)
    return { l with mode :=
      if digits = 3 then .text (read.pushUnit value) else .unit read (digits + 1) value }

def finish (l : Lexer) : Option (List Token) :=
  match l.mode with
  | .between => some l.tokens.reverse
  | .word chars => (word? chars.reverse).map fun token => (token :: l.tokens).reverse
  | _ => none

end Lexer

def tokens? (s : String) : Option (List Token) :=
  s.toList.foldlM Lexer.step Lexer.initial >>= Lexer.finish

end Recoding.Document.Json
