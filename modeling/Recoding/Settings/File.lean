import Recoding.Document.Json.Reader
import Recoding.Document.Toml.Reader
import Recoding.Settings.Document

/-!
# Settings files

The extension of a file name says in which format the settings are written. It is looked
at only after the file has been read as text.
-/

namespace Recoding

open Document (Rules)

inductive FileFormat where
  | toml
  | json
deriving DecidableEq, Repr

namespace FileFormat

/-- What follows the last dot of a file name, unless the dot is its first character. -/
def extension (fileName : String) : String :=
  let chars := fileName.toList
  let afterDot := (chars.reverse.takeWhile (· != '.')).reverse
  if afterDot.length + 1 < chars.length then String.ofList afterDot else ""

def ofExtension? (extension : String) : Option FileFormat :=
  match String.ofList (extension.toList.map Char.toLower) with
  | "toml" => some toml
  | "json" => some json
  | _ => none

def rules : FileFormat → Rules
  | toml => Rules.toml
  | json => Rules.json

def read? : FileFormat → String → Option Document.Value
  | toml => Document.Toml.read?
  | json => Document.Json.read?

end FileFormat

namespace Settings

def ofText? (format : FileFormat) (text : String) : Option Settings := do
  ofValue? format.rules (← format.read? text)

/-- The settings in a file of the given name; without contents there is no such file. -/
def ofFile (fileName : String) (contents : Option ByteArray) : Except Failure Settings :=
  match contents >>= String.fromUTF8? with
  | none => .error .unreadableFile
  | some text =>
    let extension := FileFormat.extension fileName
    match FileFormat.ofExtension? extension with
    | none => .error (.unsupportedExtension extension)
    | some format =>
      match ofText? format text with
      | some settings => .ok settings
      | none => .error .malformedSettings

end Settings
end Recoding
