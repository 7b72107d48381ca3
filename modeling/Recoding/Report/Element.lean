/-!
# Report elements

A titled list of named properties, which is how every configured part of a run appears
in a report.
-/

namespace Recoding

/-- A title with properties in order; names may repeat. -/
structure Element where
  title : String
  properties : List (String × String)
deriving DecidableEq, Repr

namespace Element

def titled (title : String) : Element := ⟨title, []⟩

def adding (e : Element) (name value : String) : Element :=
  { e with properties := e.properties ++ [(name, value)] }

def property? (e : Element) (name : String) : Option String := e.properties.lookup name

end Element

def truthText (b : Bool) : String := if b then "true" else "false"

end Recoding
