/-
Preferences of a workspace: what new documents start from, and the sources that were used before. They are stored as a
JSON record, every field of which may be left out.
-/
import ByteAtlas.Document.Basic
import ByteAtlas.Json.Record

namespace ByteAtlas

structure SavedSource where
  kind : String
  displayName : String
  filePath : String
  base : UInt64
  deriving DecidableEq, Repr

/-- a file without a name -/
def SavedSource.standard : SavedSource := ⟨"File", "", "", 0⟩

structure Preferences where
  /-- edits kept by a document, zero for all -/
  historyLimit : UInt64
  /-- base of new documents -/
  base : UInt64
  newTypeName : String
  listing : Listing.Options
  /-- the newest last -/
  sources : List SavedSource
  /-- place of the selected source -/
  active : Option UInt64
  deriving DecidableEq, Repr

/-- what holds unless told otherwise -/
def Preferences.standard : Preferences :=
  ⟨History.standardLimit, 0, "NewClass", .standard, [], none⟩

namespace Preferences

/-- takes a source in place of one with the same kind and file, or behind all others, and selects it; tells its place -/
def remember (p : Preferences) (s : SavedSource) : Nat × Preferences :=
  match p.sources.findIdx? fun o => o.kind == s.kind && o.filePath == s.filePath with
  | some i => (i, { p with sources := p.sources.set i s, active := some (UInt64.ofNat i) })
  | none =>
    (p.sources.length, { p with sources := p.sources ++ [s], active := some (UInt64.ofNat p.sources.length) })

/-- selects the source at a place, if there is one -/
def select (p : Preferences) (i : UInt64) : Preferences :=
  if i.toNat < p.sources.length then { p with active := some i } else p

def selected (p : Preferences) : Option SavedSource := p.active.bind fun i => p.sources[i.toNat]?

def clearSources (p : Preferences) : Preferences := { p with sources := [], active := none }

/-- a document with what these preferences say -/
def configure {τ : Type} (p : Preferences) (d : Document τ) : Document τ :=
  { d.withLimit p.historyLimit with options := p.listing, newTypeName := p.newTypeName }

end Preferences

/-! ## Stored form -/

namespace SavedSource

def fieldNames : List String := ["kind", "display_name", "file_path", "base_address"]

def toJson (s : SavedSource) : Json :=
  .ofMembers (fieldNames.zip [.ofString s.kind, .ofString s.displayName, .ofString s.filePath, .ofWord s.base])

/-- from the values of the fields -/
def ofFields? : List (Option Json) → Option SavedSource
  | [kind, displayName, filePath, base] => do
    pure {
      kind := ← Json.optional standard.kind Json.text? kind
      displayName := ← Json.optional standard.displayName Json.text? displayName
      filePath := ← Json.optional standard.filePath Json.text? filePath
      base := ← Json.optional standard.base Json.word? base }
  | _ => none

def ofJson? (j : Json) : Option SavedSource := (Json.fields? fieldNames j).bind ofFields?

end SavedSource

namespace Listing.Options

def fieldNames : List String := ["max_array_elements", "expand_embedded"]

def toJson (o : Listing.Options) : Json := .ofMembers (fieldNames.zip [.ofWord o.maxElements, .bool o.expand])

def ofFields? : List (Option Json) → Option Listing.Options
  | [maxElements, expand] => do
    pure {
      maxElements := ← Json.optional standard.maxElements Json.word? maxElements
      expand := ← Json.optional standard.expand Json.bool? expand }
  | _ => none

def ofJson? (j : Json) : Option Listing.Options := (Json.fields? fieldNames j).bind ofFields?

end Listing.Options

/-- a word, or nothing written as `null` -/
def Json.wordOrNull? : Json → Option (Option UInt64)
  | .null => some none
  | j => j.word?.map some

namespace Preferences

def fieldNames : List String :=
  ["history_limit", "default_base_address", "new_type_name", "compose", "saved_sources", "active_source"]

def toJson (p : Preferences) : Json :=
  .ofMembers (fieldNames.zip
    [.ofWord p.historyLimit, .ofWord p.base, .ofString p.newTypeName, p.listing.toJson,
      .array (p.sources.map SavedSource.toJson), (p.active.map Json.ofWord).getD .null])

/-- a list of saved sources from JSON -/
def sourcesOf? (j : Json) : Option (List SavedSource) := j.items?.bind fun js => js.mapM SavedSource.ofJson?

def ofFields? : List (Option Json) → Option Preferences
  | [historyLimit, base, newTypeName, listing, sources, active] => do
    pure {
      historyLimit := ← Json.optional standard.historyLimit Json.word? historyLimit
      base := ← Json.optional standard.base Json.word? base
      newTypeName := ← Json.optional standard.newTypeName Json.text? newTypeName
      listing := ← Json.optional standard.listing Listing.Options.ofJson? listing
      sources := ← Json.optional standard.sources sourcesOf? sources
      active := ← Json.optional standard.active Json.wordOrNull? active }
  | _ => none

def ofJson? (j : Json) : Option Preferences := (Json.fields? fieldNames j).bind ofFields?

end Preferences

end ByteAtlas
