/-
Random documents of the sample type.
-/

import NestedColumns.Sample.Document
import NestedColumns.Sample.Generator

namespace NestedColumns.Sample

/-- The shape of random documents. Every bound is above the greatest length. -/
structure DocumentShape where
  /-- Bound for the number of links in each direction. -/
  maxLinks : Nat := 6
  /-- Bound for the number of names. -/
  maxNames : Nat := 5
  /-- Bound for the number of languages of a name. -/
  maxLanguages : Nat := 6
  /-- How likely an optional field is present. -/
  optionalLikelihood : Binary64 := Binary64.ofRatio false 1 2

/-- The languages of random documents, each with its country. -/
def languages : List (String × String) :=
  [("en-us", "us"), ("en-gb", "gb"), ("de-de", "de")]

variable {σ : Type} (source : Source σ)

/-- Fewer links than the bound. -/
def randomLinks (shape : DocumentShape) : Draw σ (List Value) := do
  let count ← source.range 0 shape.maxLinks
  let links ← Draw.times (source.intRange 64 0 1000) count
  return links.map fun link => int (Int64.ofInt link)

/-- A language, with or without its country. -/
def randomLanguage (shape : DocumentShape) : Draw σ Value := do
  let (code, country) := languages.getD (← source.range 0 languages.length) ("", "")
  let language := record [("Code", [text code])]
  if ← Draw.chance source shape.optionalLikelihood then
    return .record (language.set "Country" (text country))
  else return .record language

/-- A name in several languages, with or without an address. -/
def randomName (shape : DocumentShape) : Draw σ Value := do
  let count ← source.range 0 shape.maxLanguages
  let spoken ← Draw.times (randomLanguage source shape) count
  let name := record [("Language", spoken)]
  if ← Draw.chance source shape.optionalLikelihood then
    let host ← Draw.letters source 10
    let domain ← Draw.letters source 2
    return .record (name.set "Url" (text ("http://" ++ host ++ "." ++ domain)))
  else return .record name

/-- The links of a document, if it has any. -/
def randomLinkGroup (shape : DocumentShape) : Draw σ (List Value) := do
  if ← Draw.chance source shape.optionalLikelihood then
    let backward ← randomLinks source shape
    let forward ← randomLinks source shape
    return [group [("Backward", backward), ("Forward", forward)]]
  else return []

/-- The document with the given number. -/
def randomDocument (shape : DocumentShape) (number : Nat) : Draw σ Record := do
  let links ← randomLinkGroup source shape
  let count ← source.range 0 shape.maxNames
  let names ← Draw.times (randomName source shape) count
  return record [("DocId", [int (Int64.ofNat number)]), ("Links", links), ("Name", names)]

/-- A number of documents, numbered from `first` up. -/
def randomDocuments (shape : DocumentShape) (first : Nat) : Nat → Draw σ (List Record)
  | 0 => return []
  | count + 1 => do
    let document ← randomDocument source shape first
    let rest ← randomDocuments shape (first + 1) count
    return document :: rest

/-- A number of random documents, from a seed. -/
def documentsOf? (count : Nat) (seed : UInt64) (shape : DocumentShape) : Option (List Record) :=
  (randomDocuments source shape 0 count).from? (source.ofSeed seed)

/-- A number of documents, drawn by a generator. -/
def documents? (count : Nat) (seed : UInt64) (shape : DocumentShape) : Option (List Record) :=
  documentsOf? Generator.source count seed shape

end NestedColumns.Sample
