import Recoding.Binary64.Exact
import Recoding.Document.Value

/-!
# Records in documents

A record is written as an object, or as an array with its fields in a fixed order. Fields
that nobody asks for do no harm, but a field of a record may not be given twice. Records
of several kinds carry a tag that says which kind they are.
-/

namespace Recoding.Document

/-- What formats disagree on. -/
structure Rules where
  /-- Whether an array may be longer than the record that is read from it. -/
  ignoresSurplus : Bool
  /-- Whether a value may stand beside a word that needs none. -/
  isEmpty : Value → Bool

namespace Rules

/-- Nothing may follow what is read. -/
def json : Rules where
  ignoresSurplus := false
  isEmpty
    | .null => true
    | _ => false

/-- What is not read is left alone. -/
def toml : Rules where
  ignoresSurplus := true
  isEmpty
    | .array items => items.isEmpty
    | .object fields => fields.isEmpty
    | _ => false

/-- The rules within a tagged record, whatever the format. -/
def tagged : Rules where
  ignoresSurplus := false
  isEmpty
    | .null => true
    | .object fields => fields.isEmpty
    | _ => false

/-! ## Records -/

/-- The first `n` items of an array, `none` for those that are missing. -/
def slots? (r : Rules) (n : Nat) (items : List Value) : Option (List (Option Value)) :=
  if n < items.length && !r.ignoresSurplus then none
  else some ((List.range n).map fun i => items[i]?)

/-- The value of a field that may be missing but not repeated. -/
def field? (fields : List (String × Value)) (name : String) : Option (Option Value) :=
  match Value.fieldValues name fields with
  | [] => some none
  | [v] => some (some v)
  | _ => none

/-- The values of the named fields in order, `none` for those that are missing. -/
def record? (r : Rules) (names : List String) : Value → Option (List (Option Value))
  | .object fields => names.mapM (field? fields)
  | .array items => r.slots? names.length items
  | .timestamp _ => some (names.map fun _ => none)
  | _ => none

/-- Splits a tagged record into its tag and its contents, all of which must be readable.
The tag is a field of its own, or the first item. -/
def split? (v : Value) : Option (String × Value) :=
  if !v.isReadable then none
  else match v with
    | .object fields =>
      match Value.fieldValues "type" fields with
      | [.text tag] => some (tag, .object (fields.filter (·.1 != "type")))
      | _ => none
    | .array (.text tag :: items) => some (tag, .array items)
    | _ => none

/-- One of several words, written as a text or as the only name of an object. -/
def word? (r : Rules) : Value → Option String
  | .text s => some s
  | .object [(s, v)] => if r.isEmpty v then some s else none
  | _ => none

def choice? {α : Type} (r : Rules) (spell : α → String) (choices : List α) (v : Value) :
    Option α := do
  let word ← r.word? v
  choices.find? fun choice => spell choice == word

end Rules

namespace Value

/-! ## Contents -/

/-- A natural number below a limit. -/
def count? (limit : Nat) : Value → Option Nat
  | .integer n => if 0 ≤ n ∧ n < limit then some n.toNat else none
  | _ => none

def word64? : Value → Option Nat := count? (2 ^ 64)

def word32? : Value → Option Nat := count? (2 ^ 32)

def double? : Value → Option Float
  | .double x => some x
  | .integer n => some (if n < 0 then -Binary64.ofCount n.natAbs else Binary64.ofCount n.natAbs)
  | _ => none

def bool? : Value → Option Bool
  | .bool b => some b
  | _ => none

def text? : Value → Option String
  | .text s => some s
  | _ => none

def list? {α : Type} (item? : Value → Option α) : Value → Option (List α)
  | .array items => items.mapM item?
  | _ => none

/-- Something that may be null instead. -/
def nullable? {α : Type} (content? : Value → Option α) : Value → Option (Option α)
  | .null => some none
  | v => (content? v).map some

/-- A field that has a standard value where it is missing. -/
def orStandard {α : Type} (standard : α) (content? : Value → Option α) :
    Option Value → Option α
  | none => some standard
  | some v => content? v

def ofCount (n : Nat) : Value := .integer n

/-- Null, or what there is. -/
def ofOption {α : Type} (toValue : α → Value) : Option α → Value
  | none => .null
  | some x => toValue x

end Value
end Recoding.Document
