import Recoding.Document.Json.Token

/-!
# Reading JSON

A stack holds the arrays and objects that are still open. Every token either adds to the
innermost one or closes it, so a text is read in one pass.
-/

namespace Recoding.Document.Json

/-- An array or object that is still open, with its contents in reverse. A field is
without a name if its name cannot be read. -/
inductive Frame where
  | array (items : List Value)
  | object (fields : List (Option String × Value)) (name : Option String)
deriving Inhabited, Repr

/-- What the next token may be. -/
inductive Expects where
  | value
  /-- A value, or the end of an array that has just been opened. -/
  | firstItem
  | name
  /-- A name, or the end of an object that has just been opened. -/
  | firstName
  | colon
  | separator
  | nothing
deriving DecidableEq, Repr

/-- The state of reading. -/
structure Reader where
  stack : List Frame
  expects : Expects
  result : Option Value
deriving Repr

namespace Reader

def initial : Reader := ⟨[], .value, none⟩

/-- Arrays and objects nested as deep as this cannot be read. -/
def depthLimit : Nat := 128

def accept (stack : List Frame) (v : Value) : Reader :=
  match stack with
  | [] => ⟨[], .nothing, some v⟩
  | .array items :: rest => ⟨.array (v :: items) :: rest, .separator, none⟩
  | .object fields name :: rest =>
    ⟨.object ((name, v) :: fields) none :: rest, .separator, none⟩

def close (frame : Frame) (rest : List Frame) : Value :=
  if depthLimit ≤ rest.length + 1 then .unreadable
  else match frame with
    | .array items => .array items.reverse
    | .object fields _ =>
      match fields.reverse.mapM fun (name, v) => name.map (·, v) with
      | some fields => .object fields
      | none => .unreadable

def takesValue (r : Reader) : Bool := r.expects == .value || r.expects == .firstItem

def step (r : Reader) (token : Token) : Option Reader :=
  match token with
  | .scalar v => if r.takesValue then some (accept r.stack v) else none
  | .openArray =>
    if r.takesValue then some ⟨.array [] :: r.stack, .firstItem, none⟩ else none
  | .openObject =>
    if r.takesValue then some ⟨.object [] none :: r.stack, .firstName, none⟩ else none
  | .text s =>
    if r.takesValue then some (accept r.stack ((s.map Value.text).getD .unreadable))
    else match r.stack with
      | .object fields _ :: rest =>
        if r.expects == .name || r.expects == .firstName then
          some ⟨.object fields s :: rest, .colon, none⟩
        else none
      | _ => none
  | .colon => if r.expects == .colon then some { r with expects := .value } else none
  | .comma =>
    if r.expects == .separator then
      match r.stack with
      | .array _ :: _ => some { r with expects := .value }
      | .object .. :: _ => some { r with expects := .name }
      | [] => none
    else none
  | .closeArray =>
    match r.stack with
    | .array items :: rest =>
      if r.expects == .separator || r.expects == .firstItem then
        some (accept rest (close (.array items) rest))
      else none
    | _ => none
  | .closeObject =>
    match r.stack with
    | .object fields name :: rest =>
      if r.expects == .separator || r.expects == .firstName then
        some (accept rest (close (.object fields name) rest))
      else none
    | _ => none

end Reader

def read? (s : String) : Option Value := do
  let tokens ← tokens? s
  let reader ← tokens.foldlM Reader.step Reader.initial
  reader.result

end Recoding.Document.Json
