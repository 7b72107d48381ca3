import Recoding.Decimal.Text
import Recoding.Document.Value

/-!
# Writing JSON

One item or field on each line, indented by two blanks for each level. Empty arrays and
objects stay on one line.
-/

namespace Recoding.Document.Json

/-- Numbers keep their point, and very large or small ones have an exponent. -/
def numberStyle : Decimal.Style := ⟨true, some (-4, 16), .even⟩

/-- The text of a double; JSON has none for NaN and the infinities. -/
def doubleText (x : Float) : String :=
  if x.isFinite then Decimal.text numberStyle x else "null"

/-- The last two hexadecimal digits of a control character. -/
def hexPair (n : Nat) : String := String.ofList [Nat.digitChar (n / 16), Nat.digitChar (n % 16)]

def escape (c : Char) : String :=
  match c with
  | '"' => "\\\""
  | '\\' => "\\\\"
  | '\x08' => "\\b"
  | '\x0c' => "\\f"
  | '\n' => "\\n"
  | '\r' => "\\r"
  | '\t' => "\\t"
  | c => if c.toNat < 0x20 then "\\u00" ++ hexPair c.toNat else c.toString

def quote (s : String) : String := "\"" ++ String.join (s.toList.map escape) ++ "\""

def lineStart (level : Nat) : String := "\n" ++ String.ofList (List.replicate (2 * level) ' ')

/-- Lines between brackets, unless there are none. -/
def enclose (opening closing : String) (level : Nat) (lines : List String) : String :=
  if lines.isEmpty then opening ++ closing
  else
    opening ++ String.intercalate "," (lines.map (lineStart (level + 1) ++ ·)) ++
      lineStart level ++ closing

mutual

/-- The text of a value whose last line stands at the given level. -/
def render (level : Nat) : Value → String
  | .null => "null"
  | .bool b => if b then "true" else "false"
  | .integer n => toString n
  | .double x => doubleText x
  | .text s => quote s
  | .timestamp s => quote s
  | .array items => enclose "[" "]" level (renderItems (level + 1) items)
  | .object fields => enclose "\x7b" "\x7d" level (renderFields (level + 1) fields)
  | .unreadable => "null"

def renderItems (level : Nat) : List Value → List String
  | [] => []
  | v :: rest => render level v :: renderItems level rest

def renderFields (level : Nat) : List (String × Value) → List String
  | [] => []
  | (name, v) :: rest =>
    (quote name ++ ": " ++ render level v) :: renderFields level rest

end

def print (v : Value) : String := render 0 v

end Recoding.Document.Json
