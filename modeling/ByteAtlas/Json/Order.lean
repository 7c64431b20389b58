/-
Objects whose members stand in the order of their names; of several members with one name only the last counts.
-/
import ByteAtlas.Json.Basic

namespace ByteAtlas.Json

/-- members in the order of their names -/
abbrev Members := List (Option String × Json)

/-- whether a name comes before another, character by character; a name that spells no text comes first -/
def nameBefore : Option String → Option String → Bool
  | none, some _ => true
  | some a, some b => a < b
  | _, none => false

/-- puts a member where its name belongs, in place of one with the same name -/
def insertMember (k : Option String) (j : Json) : Members → Members
  | [] => [(k, j)]
  | (k', j') :: rest =>
    if k = k' then (k, j) :: rest
    else if nameBefore k k' then (k, j) :: (k', j') :: rest
    else (k', j') :: insertMember k j rest

mutual

/-- a value with the members of all its objects in order -/
def ordered : Json → Json
  | .array items => .array (orderedItems items)
  | .object ms => .object (orderedMembers [] ms)
  | j => j

def orderedItems : List Json → List Json
  | [] => []
  | j :: rest => ordered j :: orderedItems rest

/-- members in order, added to those of `acc` -/
def orderedMembers (acc : Members) : Members → Members
  | [] => acc
  | (k, j) :: rest => orderedMembers (insertMember k (ordered j) acc) rest

end

end ByteAtlas.Json
