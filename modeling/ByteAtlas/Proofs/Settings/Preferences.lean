/-
Preferences that are saved and loaded again. A store that keeps what it takes gives back the preferences that were saved
last, and a block that leaves fields out gives them back with just these fields at what holds unless told otherwise.

- `Json.ofBytes?_bytesOf`: the bytes of a plain value are read back.
- `SavedSource.ofJson?_prune`, `Listing.Options.ofJson?_prune`, `Preferences.ofJson?_prune`: records with fields left out,
  at each of the three levels. A field of an inner record that is left out leaves the outer record's fields alone.
- `loadPreferences_savePreferences`: both together, for every store.
-/
import Mathlib
import ByteAtlas.Settings.Service
import ByteAtlas.Proofs.Json.Pruned
import ByteAtlas.Proofs.Settings.Retained
import ByteAtlas.Proofs.Text.Utf8

namespace ByteAtlas

open Json (Step kept inside)

/-! ## Fields left out -/

variable (keep : List Step → Bool)

/-- a source with the fields that are left out at what holds unless told otherwise -/
def SavedSource.filled (s : SavedSource) : SavedSource where
  kind := kept keep "kind" s.kind standard.kind
  displayName := kept keep "display_name" s.displayName standard.displayName
  filePath := kept keep "file_path" s.filePath standard.filePath
  base := kept keep "base_address" s.base standard.base

def Listing.Options.filled (o : Listing.Options) : Listing.Options where
  maxElements := kept keep "max_array_elements" o.maxElements standard.maxElements
  expand := kept keep "expand_embedded" o.expand standard.expand

/-- preferences with the fields that are left out, on all levels, at what holds unless told otherwise -/
def Preferences.filled (p : Preferences) : Preferences where
  historyLimit := kept keep "history_limit" p.historyLimit standard.historyLimit
  base := kept keep "default_base_address" p.base standard.base
  newTypeName := kept keep "new_type_name" p.newTypeName standard.newTypeName
  listing := kept keep "compose" (p.listing.filled (inside keep (.member "compose"))) standard.listing
  sources := kept keep "saved_sources"
    (p.sources.zipIdx.map fun m => m.1.filled (inside (inside keep (.member "saved_sources")) (.item m.2)))
    standard.sources
  active := kept keep "active_source" p.active standard.active

/-- with nothing left out, preferences are what they are -/
theorem Preferences.filled_true (p : Preferences) : p.filled (fun _ => true) = p := by
  have hsources : (p.sources.zipIdx.map fun m => m.1.filled fun _ => true) = p.sources := by
    have hsame : (p.sources.zipIdx.map fun m => m.1.filled fun _ => true) = p.sources.zipIdx.map Prod.fst := rfl
    rw [hsame, List.zipIdx_map_fst]
  exact congrArg (fun sources => ({ p with sources } : Preferences)) hsources

/-! ## Records read back -/

theorem SavedSource.plain_toJson (s : SavedSource) : s.toJson.Plain := by
  refine .object ?_
  simp only [fieldNames, List.zip_cons_cons, List.zip_nil_right, List.forall_mem_cons]
  exact ⟨.text _, .text _, .text _, .number _, by simp⟩

theorem Listing.Options.plain_toJson (o : Listing.Options) : o.toJson.Plain := by
  refine .object ?_
  simp only [fieldNames, List.zip_cons_cons, List.zip_nil_right, List.forall_mem_cons]
  exact ⟨.number _, .bool _, by simp⟩

theorem Preferences.plain_toJson (p : Preferences) : p.toJson.Plain := by
  have hsources : ∀ j ∈ p.sources.map SavedSource.toJson, j.Plain := by
    intro j hj
    obtain ⟨s, -, rfl⟩ := List.mem_map.1 hj
    exact s.plain_toJson
  have hactive : ((p.active.map Json.ofWord).getD .null).Plain := by
    cases p.active with
    | none => exact .null
    | some i => exact .number _
  refine .object ?_
  simp only [fieldNames, List.zip_cons_cons, List.zip_nil_right, List.forall_mem_cons]
  exact ⟨.number _, .number _, .text _, p.listing.plain_toJson, .array hsources, hactive, by simp⟩

theorem SavedSource.ofJson?_prune (s : SavedSource) : ofJson? (s.toJson.prune keep) = some (s.filled keep) := by
  rw [ofJson?, toJson, Json.fields?_prune (by decide) rfl, Option.bind_some]
  simp only [fieldNames, List.zip_cons_cons, List.zip_nil_right, List.map_cons, List.map_nil, ofFields?,
    Json.optional_kept_ofString, Json.optional_kept_ofWord]
  rfl

theorem Listing.Options.ofJson?_prune (o : Listing.Options) : ofJson? (o.toJson.prune keep) = some (o.filled keep) := by
  rw [ofJson?, toJson, Json.fields?_prune (by decide) rfl, Option.bind_some]
  simp only [fieldNames, List.zip_cons_cons, List.zip_nil_right, List.map_cons, List.map_nil, ofFields?,
    Json.optional_kept_ofWord, Json.optional_kept_bool]
  rfl

/-- each source is read with the fields that are left of it -/
theorem Preferences.sourcesOf?_prune (sources : List SavedSource) :
    sourcesOf? ((Json.array (sources.map SavedSource.toJson)).prune keep) =
      some (sources.zipIdx.map fun m => m.1.filled (inside keep (.item m.2))) := by
  rw [Json.prune_array, List.zipIdx_map, List.map_map]
  exact Json.mapM_map_eq_some fun m _ => m.1.ofJson?_prune _

theorem Preferences.wordOrNull?_prune (active : Option UInt64) :
    Json.wordOrNull? (((active.map Json.ofWord).getD .null).prune keep) = some active := by
  cases active with
  | none => rfl
  | some i => exact congrArg (Option.map some) (Json.word?_ofWord i)

/-- **Preferences with fields left out are read with these fields at what holds unless told otherwise.** -/
theorem Preferences.ofJson?_prune (p : Preferences) : ofJson? (p.toJson.prune keep) = some (p.filled keep) := by
  rw [ofJson?, toJson, Json.fields?_prune (by decide) rfl, Option.bind_some]
  simp only [fieldNames, List.zip_cons_cons, List.zip_nil_right, List.map_cons, List.map_nil, ofFields?,
    Json.optional_kept_ofWord, Json.optional_kept_ofString, Json.optional_kept (p.listing.ofJson?_prune _),
    Json.optional_kept (sourcesOf?_prune _ p.sources), Json.optional_kept (wordOrNull?_prune _ p.active)]
  rfl

/-! ## Saved and loaded -/

namespace Settings

/-- **The bytes of a plain value are read back.** -/
theorem ofBytes?_bytesOf {j : Json} (h : j.Plain) : Json.ofBytes? (bytesOf j) = some j := by
  rw [Json.ofBytes?, bytesOf, Text.Utf8.pieces_encode]
  exact Json.ofText?_pretty h

variable {σ : Type} [SettingsStore σ]

/-- a block that spells a value is not empty, so the value is read -/
theorem load_of_ofBytes? {α : Type} {s : σ} {key : String} {bs : Bytes} {j : Json} {read : Json → Option α} {a : α}
    (hload : SettingsStore.load s key = .ok bs) (hj : Json.ofBytes? bs = some j) (ha : read j = some a) :
    load s read key = .ok (some a) := by
  have hsome : bs.isEmpty = false := by
    cases bs with
    | nil => cases hj
    | cons b rest => rfl
  simp [load, hload, hsome, hj, ha]

/-- **A store that keeps what it takes gives back the preferences that were saved**, whatever they are; and a block that
spells them with any fields left out, on any level, gives them back with just these fields at what holds unless told
otherwise. There is such a block for every choice of fields. -/
theorem loadPreferences_savePreferences (h : SettingsStore.Retains σ) (s : σ) (p : Preferences) :
    (∀ s', save s preferencesKey p.toJson = .ok s' → savePreferences s p = s' ∧ loadPreferences s' = some p) ∧
    ∀ keep : List Step → Bool,
      Json.ofBytes? (bytesOf (p.toJson.prune keep)) = some (p.toJson.prune keep) ∧
      ∀ bs, Json.ofBytes? bs = some (p.toJson.prune keep) → ∀ s', SettingsStore.save s preferencesKey bs = .ok s' →
        loadPreferences s' = some (p.filled keep) := by
  have hblock : ∀ keep bs, Json.ofBytes? bs = some (p.toJson.prune keep) → ∀ s',
      SettingsStore.save s preferencesKey bs = .ok s' → loadPreferences s' = some (p.filled keep) := by
    intro keep bs hj s' hsave
    rw [loadPreferences, load_of_ofBytes? (h s s' _ bs hsave) hj (p.ofJson?_prune keep)]
  refine ⟨fun s' hsave => ⟨by rw [savePreferences, hsave], ?_⟩,
    fun keep => ⟨ofBytes?_bytesOf (p.plain_toJson.prune keep), hblock keep⟩⟩
  have hwhole : Json.ofBytes? (bytesOf p.toJson) = some (p.toJson.prune fun _ => true) := by
    rw [Json.prune_true p.plain_toJson, ofBytes?_bytesOf p.plain_toJson]
  rw [hblock _ _ hwhole s' hsave, p.filled_true]

/-- Preferences with characters that are escaped, two sources and a selection that is out of range come back from a directory
that was not there before; without the limit of arrays, the name for new types and the kind of the second source, just these
three are changed. -/
theorem loadPreferences_savePreferences_files :
    SettingsStore.Retains DirectoryStore ∧
    ∃ (s : DirectoryStore) (p : Preferences) (keep : List Step → Bool), s = ⟨.empty, "cfg"⟩ ∧
      p = ⟨0, 0x400000, "A\"\\\n\x01é", ⟨7, false⟩, [⟨"Process", "", "é", 1⟩, ⟨"Remote", "b", "/b", 2⟩], some 9⟩ ∧
      p.filled keep =
        ⟨0, 0x400000, "NewClass", ⟨256, false⟩, [⟨"Process", "", "é", 1⟩, ⟨"File", "b", "/b", 2⟩], some 9⟩ ∧
      loadPreferences (savePreferences s p) = some p ∧
      ∃ s', save s preferencesKey (p.toJson.prune keep) = .ok s' ∧ loadPreferences s' = some (p.filled keep) := by
  have hsave (bs : Bytes) : SettingsStore.save (⟨.empty, "cfg"⟩ : DirectoryStore) preferencesKey bs =
      .ok ⟨⟨[⟨0, "cfg"⟩], [(⟨1, "workspace.json"⟩, bs)]⟩, "cfg"⟩ := rfl
  have hwhole (p : Preferences) : loadPreferences (savePreferences (⟨.empty, "cfg"⟩ : DirectoryStore) p) = some p := by
    obtain ⟨hsame, hloaded⟩ :=
      (loadPreferences_savePreferences DirectoryStore.retains ⟨.empty, "cfg"⟩ p).1 _ (hsave _)
    rw [hsame, hloaded]
  have hpart (p : Preferences) (keep : List Step → Bool) : ∃ s' : DirectoryStore,
      save ⟨.empty, "cfg"⟩ preferencesKey (p.toJson.prune keep) = .ok s' ∧
        loadPreferences s' = some (p.filled keep) := by
    obtain ⟨hblock, hread⟩ := (loadPreferences_savePreferences DirectoryStore.retains ⟨.empty, "cfg"⟩ p).2 keep
    exact ⟨_, hsave _, hread _ hblock _ (hsave _)⟩
  refine ⟨DirectoryStore.retains, ⟨.empty, "cfg"⟩,
    ⟨0, 0x400000, "A\"\\\n\x01é", ⟨7, false⟩, [⟨"Process", "", "é", 1⟩, ⟨"Remote", "b", "/b", 2⟩], some 9⟩,
    fun path => path ∉ [[.member "new_type_name"], [.member "compose", .member "max_array_elements"],
      [.member "saved_sources", .item 1, .member "kind"]], rfl, rfl, by decide, hwhole _, hpart _ _⟩

end Settings

end ByteAtlas
