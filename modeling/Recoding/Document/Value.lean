/-!
# Documents

The values that settings files are made of, whatever their format. Objects keep repeated
fields, because whether a repetition matters depends on who reads the object.
-/

namespace Recoding.Document

inductive Value where
  | null
  | bool (b : Bool)
  | integer (n : Int)
  | double (x : Float)
  | text (s : String)
  /-- A date, a time, or both. -/
  | timestamp (s : String)
  | array (items : List Value)
  | object (fields : List (String × Value))
  /-- A well-formed value that nothing can be read from, such as a number out of range;
  it does no harm where it is not looked at. -/
  | unreadable
deriving Inhabited, Repr

namespace Value

mutual

/-- Whether everything in a value can be read. -/
def isReadable : Value → Bool
  | array items => allReadable items
  | object fields => allFieldsReadable fields
  | unreadable => false
  | _ => true

def allReadable : List Value → Bool
  | [] => true
  | v :: rest => v.isReadable && allReadable rest

def allFieldsReadable : List (String × Value) → Bool
  | [] => true
  | (_, v) :: rest => v.isReadable && allFieldsReadable rest

end

def fieldValues (name : String) (fields : List (String × Value)) : List Value :=
  (fields.filter (·.1 == name)).map Prod.snd

end Value
end Recoding.Document
