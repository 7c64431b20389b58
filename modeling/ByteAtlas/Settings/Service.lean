/-
Settings as JSON in a store: a value is written spread over lines, and a missing or empty block reads as no value.
-/
import ByteAtlas.Settings.Store
import ByteAtlas.Preferences

namespace ByteAtlas.Settings

variable {σ : Type} [SettingsStore σ]

def load {α : Type} (s : σ) (read : Json → Option α) (key : String) : Except SettingsError (Option α) :=
  match SettingsStore.load s key with
  | .error .notFound => .ok none
  | .error e => .error e
  | .ok bs =>
    if bs.isEmpty then .ok none
    else match (Json.ofBytes? bs).bind read with
      | some a => .ok (some a)
      | none => .error .malformed

/-- the value under a key, or another if nothing is there -/
def loadOr {α : Type} (s : σ) (default : α) (read : Json → Option α) (key : String) : Except SettingsError α :=
  (load s read key).map fun a => a.getD default

def bytesOf (j : Json) : Bytes := Text.Utf8.encode j.pretty.toList

def save (s : σ) (key : String) (j : Json) : Except SettingsError σ := SettingsStore.save s key (bytesOf j)

def preferencesKey : String := "workspace"

/-- the preferences in a store, none if they are missing or cannot be read -/
def loadPreferences (s : σ) : Option Preferences :=
  match load s Preferences.ofJson? preferencesKey with
  | .ok p => p
  | .error _ => none

/-- the store with preferences; a store that refuses them stays as it is -/
def savePreferences (s : σ) (p : Preferences) : σ :=
  match save s preferencesKey p.toJson with
  | .ok s => s
  | .error _ => s

end ByteAtlas.Settings
