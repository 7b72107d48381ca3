import Recoding.Document.Value

/-!
# TOML tables

The tables of a document while it is read. A table may be opened by its own header, come
into being as an ancestor of another one, or be written with dotted keys, and what may
still be added to it depends on that. Tables under a repeated header form an array, of
which only the newest element can be reached.
-/

namespace Recoding.Document.Toml

inductive Origin where
  /-- By a header of its own. -/
  | header
  /-- On the way to another header. -/
  | ancestor
  /-- On the way of a dotted key. -/
  | dotted
deriving DecidableEq, Repr

inductive Item where
  | value (v : Value)
  | table (origin : Origin) (fields : List (String × Item))
  /-- The tables under a repeated header, newest first. -/
  | tables (elements : List (List (String × Item)))
deriving Inhabited, Repr

/-- The fields of a table, with different names. -/
abbrev Fields := List (String × Item)

namespace Fields

/-- Changes what a name stands for, or adds it. -/
def alter? (name : String) (change : Option Item → Option Item) : Fields → Option Fields
  | [] => (change none).map fun item => [(name, item)]
  | (other, item) :: rest =>
    if other = name then (change (some item)).map fun item => (name, item) :: rest
    else (alter? name change rest).map ((other, item) :: ·)

/-- Changes the table at the end of a path; missing tables on the way get the origin
`created`. Dotted keys cannot reach into a table with a header. -/
def alterAt? (created : Origin) (change : Origin → Fields → Option Fields) :
    List String → Origin → Fields → Option Fields
  | [], origin, fields => change origin fields
  | name :: path, _, fields => alter? name (fun
    | none => (alterAt? created change path created []).map (Item.table created)
    | some (.value _) => none
    | some (.table origin inner) =>
      if created = .dotted ∧ origin = .header then none
      else (alterAt? created change path origin inner).map (Item.table origin)
    | some (.tables (newest :: older)) =>
      (alterAt? created change path .header newest).map fun t => Item.tables (t :: older)
    | some (.tables []) => none) fields

/-- Adds a value under a key. The table that a dotted key adds to has to be written with
dotted keys only. -/
def insert? (path : List String) (v : Value) (fields : Fields) : Option Fields := do
  let name ← path.getLast?
  alterAt? .dotted (fun origin inner =>
    if path.length > 1 && origin != .dotted then none
    else inner.alter? name fun
      | none => some (.value v)
      | some _ => none) path.dropLast .header fields

/-- Opens a table by its header, which it may not have had before. -/
def openTable? (path : List String) (fields : Fields) : Option Fields := do
  let name ← path.getLast?
  alterAt? .ancestor (fun _ inner => inner.alter? name fun
    | none => some (.table .header [])
    | some (.table .ancestor inner) => some (.table .header inner)
    | some _ => none) path.dropLast .header fields

/-- Opens one more table under a repeated header. -/
def openElement? (path : List String) (fields : Fields) : Option Fields := do
  let name ← path.getLast?
  alterAt? .ancestor (fun _ inner => inner.alter? name fun
    | none => some (.tables [[]])
    | some (.tables elements) => some (.tables ([] :: elements))
    | some _ => none) path.dropLast .header fields

end Fields

mutual

def Item.toValue : Item → Value
  | .value v => v
  | .table _ fields => .object (fieldsToValues fields)
  | .tables elements => .array (elementsToValues elements).reverse

def fieldsToValues : List (String × Item) → List (String × Value)
  | [] => []
  | (name, item) :: rest => (name, item.toValue) :: fieldsToValues rest

def elementsToValues : List (List (String × Item)) → List Value
  | [] => []
  | fields :: rest => .object (fieldsToValues fields) :: elementsToValues rest

end

end Recoding.Document.Toml
