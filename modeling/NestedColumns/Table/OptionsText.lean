/-
The JSON text of table options.

Options are written as an object with one member per option. They are read from an object, in which
options may be missing and other members are passed over unread, or from an array of their values in
order, of which the last may be missing. An option may be given once only.
-/

import NestedColumns.Json.Source
import NestedColumns.Json.Text
import NestedColumns.Table.Options

namespace NestedColumns.TableOptions

/-- The names of the options, in order. -/
def names : List String :=
  ["initial_capacity", "parallel_load", "min_parallel_batch", "parallel_assembly",
    "assembly_chunk_size"]

/-- The text of options. -/
def text (options : TableOptions) : String :=
  let size (value : Nat) : Json := .number (.integer value)
  Json.text (.object (names.zip
    [ size options.initialCapacity,
      .boolean options.parallelLoad,
      size options.minParallelBatch,
      .boolean options.parallelAssembly,
      size options.assemblyChunkSize ]))

/-! ### Reading -/

/-- A size: a number without sign, point and exponent that fits in 64 bits. -/
def size? : Json.Source → Option Nat
  | .number numeral =>
    if numeral.negative then none else (Json.Source.integer? numeral).map Int.toNat
  | _ => none

/-- A choice. -/
def choice? : Json.Source → Option Bool
  | .boolean value => some value
  | _ => none

/-- Options with the one of the given name set. -/
def set? (options : TableOptions) (name : String) (source : Json.Source) : Option TableOptions :=
  match name with
  | "initial_capacity" => (size? source).map fun value => { options with initialCapacity := value }
  | "parallel_load" => (choice? source).map fun value => { options with parallelLoad := value }
  | "min_parallel_batch" =>
    (size? source).map fun value => { options with minParallelBatch := value }
  | "parallel_assembly" =>
    (choice? source).map fun value => { options with parallelAssembly := value }
  | "assembly_chunk_size" =>
    (size? source).map fun value => { options with assemblyChunkSize := value }
  | _ => none

/-- Options with those set that the members of an object give; `given` are the names used already.
-/
def ofMembers? (options : TableOptions) (given : List String) :
    List (List Json.Piece × Json.Source) → Option TableOptions
  | [] => some options
  | (key, source) :: members => do
    let name ← Json.Source.string? key
    if !names.contains name then ofMembers? options given members
    else if given.contains name then none
    else
      let changed ← options.set? name source
      ofMembers? changed (name :: given) members

/-- Options with those set that the items of an array give. -/
def ofItems? (items : List Json.Source) : Option TableOptions :=
  if names.length < items.length then none
  else (names.zip items).foldlM (fun options (name, source) => options.set? name source) {}

/-- The options that a text stands for. -/
def ofText? (text : String) : Option TableOptions :=
  match Json.Source.ofText? text with
  | some (.object members) => ofMembers? {} [] members
  | some (.array items) => ofItems? items
  | _ => none

end NestedColumns.TableOptions
