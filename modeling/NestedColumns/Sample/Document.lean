/-
The sample record type and its sample records.

A document has a number, links to other documents and names in several languages. It has fields of
every cardinality and repeats one group inside another.
-/

import NestedColumns.Record.Basic
import NestedColumns.Schema.Draft

namespace NestedColumns.Sample

/-- The draft of the type of documents. -/
def documentDraft : SchemaDraft where
  name := "Document"
  fields :=
    [ .leaf "DocId" .required .int64,
      .group "Links" .optional
        [ .leaf "Backward" .repeated .int64,
          .leaf "Forward" .repeated .int64 ],
      .group "Name" .repeated
        [ .group "Language" .repeated
            [ .leaf "Code" .required .string,
              .leaf "Country" .optional .string ],
          .leaf "Url" .optional .string ] ]

/-- The type of documents. -/
def documentSchema : Except Fault Schema :=
  documentDraft.finish

/-! ### Records -/

/-- A record from its fields. -/
def record (fields : List (String × List Value)) : Record :=
  fields.foldl (fun made field => made.append field.1 field.2) Record.empty

/-- An integer as a value. -/
def int (value : Int64) : Value :=
  .scalar (.int64 value)

/-- A text as a value. -/
def text (value : String) : Value :=
  .scalar (.string value)

/-- A group instance as a value. -/
def group (fields : List (String × List Value)) : Value :=
  .record (record fields)

/-- A document with several names, one of them without a language and one without an address. -/
def largeDocument : Record :=
  record
    [ ("DocId", [int 10]),
      ("Links", [group [("Forward", [int 20, int 40, int 60])]]),
      ("Name",
        [ group
            [ ("Language",
                [ group [("Code", [text "en-us"]), ("Country", [text "us"])],
                  group [("Code", [text "en"])] ]),
              ("Url", [text "http://A"]) ],
          group [("Url", [text "http://B"])],
          group [("Language", [group [("Code", [text "en-gb"]), ("Country", [text "gb"])]])] ]) ]

/-- A document with links in both directions and one name. -/
def smallDocument : Record :=
  record
    [ ("DocId", [int 20]),
      ("Links", [group [("Backward", [int 10, int 30]), ("Forward", [int 80])]]),
      ("Name", [group [("Url", [text "http://C"])]]) ]

/-- A document with nothing but its number. -/
def emptyDocument : Record :=
  record [("DocId", [int 30])]

/-- The sample documents. -/
def documents : List Record :=
  [largeDocument, smallDocument, emptyDocument]

end NestedColumns.Sample
