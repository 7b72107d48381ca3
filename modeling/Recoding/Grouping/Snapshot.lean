import Recoding.Grouping.Basic

/-!
# Snapshots of groupings

A snapshot keeps one record of fixed width per class: the representative, the two
counters and, where distributions are tracked, the number of an interned distribution.
All of it is stored in words of 32 bits.
-/

namespace Recoding

/-- Distributions by number. Equal encodings share a number. -/
structure Dictionary where
  distributions : List Distribution
deriving DecidableEq, Repr

namespace Dictionary

def empty : Dictionary := ⟨[]⟩

def size (d : Dictionary) : Nat := d.distributions.length

def find? (d : Dictionary) (id : Nat) : Option Distribution := d.distributions[id]?

/-- The number of a distribution; one whose encoding is new gets the next number. Numbers
are words, too. -/
def intern (d : Dictionary) (distribution : Distribution) : Nat × Dictionary :=
  match d.distributions.findIdx? (·.encode = distribution.encode) with
  | some id => (id % 2 ^ 32, d)
  | none => (d.size % 2 ^ 32, ⟨d.distributions ++ [distribution]⟩)

end Dictionary

structure SnapshotRecord where
  representative : Nat
  count : Nat
  total : Nat
  distribution : Option Nat
deriving DecidableEq, Repr

/-- A compressed grouping of one transformation. -/
structure Snapshot where
  levels : List Nat
  /-- The width of a record: four words with distributions, three without. -/
  stride : Nat
  words : Array Nat
deriving DecidableEq, Repr

namespace Snapshot

/-- The word that stands for a missing distribution. -/
def noDistribution : Nat := 2 ^ 32 - 1

/-- The words of one class, with its distribution interned. -/
def wordsOf (tracks : Bool) (e : EquivalenceClass) (dictionary : Dictionary) :
    List Nat × Dictionary :=
  let counters := [e.representative % 2 ^ 32, e.count % 2 ^ 32, e.total % 2 ^ 32]
  if tracks then
    match e.distribution with
    | none => (counters ++ [noDistribution], dictionary)
    | some d =>
      let (id, dictionary) := dictionary.intern d
      (counters ++ [id], dictionary)
  else (counters, dictionary)

def wordsOfAll (tracks : Bool) :
    List EquivalenceClass → Dictionary → List Nat × Dictionary
  | [], dictionary => ([], dictionary)
  | e :: rest, dictionary =>
    let (words, dictionary) := wordsOf tracks e dictionary
    let (others, dictionary) := wordsOfAll tracks rest dictionary
    (words ++ others, dictionary)

def ofGrouping (levels : List Nat) (g : Grouping) (dictionary : Dictionary) :
    Snapshot × Dictionary :=
  let (words, dictionary) := wordsOfAll g.tracks g.classes dictionary
  (⟨levels, if g.tracks then 4 else 3, words.toArray⟩, dictionary)

def size (s : Snapshot) : Nat := s.words.size / s.stride

def record? (s : Snapshot) (offset : Nat) : Option SnapshotRecord := do
  let distribution ←
    if s.stride = 4 then
      let id ← s.words[offset + 3]?
      pure (if id = noDistribution then none else some id)
    else pure none
  let representative ← s.words[offset]?
  let count ← s.words[offset + 1]?
  let total ← s.words[offset + 2]?
  return { representative, count, total, distribution }

def records? (s : Snapshot) : Option (List SnapshotRecord) :=
  (List.range ((s.words.size + s.stride - 1) / s.stride)).mapM fun i => s.record? (i * s.stride)

/-- Whether the levels generalize every attribute at least as far as the snapshot. -/
def usableFor (s : Snapshot) (levels : List Nat) : Bool :=
  s.levels.length == levels.length && (s.levels.zip levels).all fun (own, asked) => own ≤ asked

end Snapshot
end Recoding
