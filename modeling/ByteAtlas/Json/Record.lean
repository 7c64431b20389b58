/-
Records in JSON: values with a fixed list of named fields. A record is written as an object; an array of its fields in
order is read as well. Members with other names are passed over, a field given twice is refused.
-/
import ByteAtlas.Json.Basic

namespace ByteAtlas.Json

/-- the only member of a name; the outer option is nothing if there are several -/
def onlyMember (name : String) (ms : List (Option String × Json)) : Option (Option Json) :=
  match ms.filter fun m => m.1 == some name with
  | [] => some none
  | [m] => some (some m.2)
  | _ => none

/-- the values of the named fields of a record, in the order of the names -/
def fields? (names : List String) : Json → Option (List (Option Json))
  | .object ms => if ms.all fun m => m.1.isSome then names.mapM fun n => onlyMember n ms else none
  | .array items =>
    if items.length ≤ names.length then
      some (items.map some ++ List.replicate (names.length - items.length) none)
    else none
  | _ => none

def required {α : Type} (read : Json → Option α) : Option Json → Option α
  | some j => read j
  | none => none

/-- a field with a value for when it is left out -/
def optional {α : Type} (default : α) (read : Json → Option α) : Option Json → Option α
  | some j => read j
  | none => some default

end ByteAtlas.Json
