import Recoding.Document.Json.Printer
import Recoding.Document.Json.Reader
import Recoding.Document.Record
import Recoding.Report.Summary

/-!
# Reports as documents

A report is handed on as JSON and can be read back from it.
-/

namespace Recoding

open Document (Value Rules)

namespace Element

def fieldNames : List String := ["title", "properties"]

def pair? : Value → Option (String × String)
  | .array [.text name, .text value] => some (name, value)
  | _ => none

def ofValue? (v : Value) : Option Element := do
  match ← Rules.json.record? fieldNames v with
  | [some title, some properties] =>
    return ⟨← title.text?, ← properties.list? pair?⟩
  | _ => none

def toValue (e : Element) : Value :=
  .object (fieldNames.zip
    [.text e.title,
      .array (e.properties.map fun (name, value) => .array [.text name, .text value])])

end Element

namespace Counters

def fieldNames : List String :=
  ["checks", "full_scans", "representative_scans", "snapshot_scans", "history_hits",
    "history_misses", "snapshots_stored", "snapshots_evicted", "nodes_pruned",
    "mechanism_draws"]

def toValue (c : Counters) : Value :=
  .object (fieldNames.zip ([c.checks, c.fullScans, c.representativeScans, c.snapshotScans,
    c.historyHits, c.historyMisses, c.snapshotsStored, c.snapshotsEvicted, c.nodesPruned,
    c.mechanismDraws].map Value.ofCount))

def ofValue? (v : Value) : Option Counters := do
  let values ← (← Rules.json.record? fieldNames v).mapM id
  match ← values.mapM Value.word64? with
  | [checks, fullScans, representativeScans, snapshotScans, hits, misses, stored, evicted,
      pruned, draws] =>
    return ⟨checks, fullScans, representativeScans, snapshotScans, hits, misses, stored,
      evicted, pruned, draws⟩
  | _ => none

end Counters

namespace Report

def fieldNames : List String :=
  ["levels", "information_loss", "score", "anonymous", "optimal", "criteria", "metric",
    "search", "statistics"]

def toValue (r : Report) : Value :=
  .object (fieldNames.zip
    [Value.ofOption (fun levels => .array (levels.map Value.ofCount)) r.levels,
      Value.ofOption .double r.informationLoss, Value.ofOption .double r.score,
      .bool r.anonymous, .bool r.optimal, .array (r.criteria.map Element.toValue),
      r.metric.toValue, r.search.toValue, r.counters.toValue])

/-- The first three parts may be missing, as they may be null. -/
def ofValue? (v : Value) : Option Report := do
  let double? := Value.orStandard none (Value.nullable? Value.double?)
  match ← Rules.json.record? fieldNames v with
  | [levels, loss, score, some anonymous, some optimal, some criteria, some metric,
      some search, some counters] =>
    return {
      levels := ← Value.orStandard none (Value.nullable? (Value.list? Value.word32?)) levels
      informationLoss := ← double? loss
      score := ← double? score
      anonymous := ← anonymous.bool?
      optimal := ← optimal.bool?
      criteria := ← criteria.list? Element.ofValue?
      metric := ← Element.ofValue? metric
      search := ← Element.ofValue? search
      counters := ← Counters.ofValue? counters }
  | _ => none

def text (r : Report) : String := Document.Json.print r.toValue

def ofText? (s : String) : Option Report := Document.Json.read? s >>= ofValue?

end Report
end Recoding
