/-
Edits that concern the tree alone. Each of them looks first and changes then, so a refused one changes nothing.
-/
import ByteAtlas.Edit.Basic

namespace ByteAtlas.Tree

/-- refuses the first node that cannot be appended after `before` -/
def checkInsert (t : Tree) (all before : List Node) : List Node → Except EditError Unit
  | [] => .ok ()
  | n :: rest =>
    if n.id = 0 then .error (.missingNode n.id)
    else if t.contains n.id || before.any fun b => b.id == n.id then .error (.duplicateId n.id)
    else
      let parent : Except EditError Unit :=
        if (before.any fun b => b.id == n.parent) then
          if (all.find? fun b => b.id == n.parent).any fun p => !p.kind.canHold then
            .error (.notAContainer n.parent)
          else .ok ()
        else t.checkHolder n.parent
      match parent with
      | .error e => .error e
      | .ok () => t.checkInsert all (before ++ [n]) rest

def insert (t : Tree) (nodes : List Node) : Except EditError Tree :=
  match t.checkInsert nodes [] nodes with
  | .error e => .error e
  | .ok () => .ok (nodes.foldl push t)

/-- takes nodes out; they have to be where they are said to be, and nothing that they hold may stay -/
def remove (t : Tree) (removed : List (Nat × Node)) : Except EditError Tree :=
  let ids := removed.map fun r => r.2.id
  match removed.find? fun r => (t.nodes[r.1]?).map (·.id) != some r.2.id with
  | some r => .error (.missingNode r.2.id)
  | none =>
    match t.nodes.find? fun n => !ids.contains n.id && ids.contains n.parent with
    | some n => .error (.orphanedChildren n.parent)
    | none => .ok (removed.foldr (fun r t => t.takeOut r.1) t)

/-- refuses the first of some nodes that cannot be put back together with those of the ids -/
def checkPutBack (t : Tree) (ids : List NodeId) : List (Nat × Node) → Except EditError Unit
  | [] => .ok ()
  | (_, n) :: rest =>
    if t.contains n.id then .error (.duplicateId n.id)
    else match (if ids.contains n.parent then .ok () else t.checkHolder n.parent) with
      | .error e => .error e
      | .ok () => t.checkPutBack ids rest

def putBack (t : Tree) (removed : List (Nat × Node)) : Except EditError Tree :=
  match t.checkPutBack (removed.map fun r => r.2.id) removed with
  | .error e => .error e
  | .ok () => .ok (removed.foldl (fun t r => t.putAt r.1 r.2) t)

/-- gives a node another shape; one that holds others has to stay a container -/
def reshape (t : Tree) (id : NodeId) (s : Shape) : Except EditError Tree :=
  if !s.kind.canHold && !(t.children id).isEmpty then .error (.orphanedChildren id)
  else t.modify id fun n => n.withShape s

/-- gives a node another parent and another offset; it cannot go below itself -/
def move (t : Tree) (id : NodeId) (parent : NodeId) (offset : UInt64) : Except EditError Tree :=
  if !t.contains id then .error (.missingNode id)
  else match t.checkHolder parent with
    | .error e => .error e
    | .ok () =>
      if parent ≠ 0 ∧ t.liesAbove id parent then .error (.wouldCreateCycle id parent)
      else t.modify id fun n => { n with parent, offset }

/-- takes nodes with certain ids out, with all that they hold -/
def removeIds (t : Tree) (ids : List NodeId) : Except EditError Tree :=
  match Edit.removal t ids with
  | .error e => .error e
  | .ok (.remove removed) => t.remove removed
  | .ok _ => .ok t

end ByteAtlas.Tree
