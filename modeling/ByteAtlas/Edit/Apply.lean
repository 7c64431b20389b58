/-
Applying edits and taking them back, on a tree and the source of its bytes. A batch that fails on the way is undone up
to there; steps of that undoing which fail themselves are passed over.
-/
import ByteAtlas.Edit.OnTree
import ByteAtlas.Source.Basic

namespace ByteAtlas

structure Scene (τ : Type) where
  tree : Tree
  source : Source τ
  deriving DecidableEq, Repr

/-- what an operation on a state comes to, and the state after it -/
abbrev Outcome (σ α : Type) := Except EditError α × σ

namespace Scene

variable {τ : Type}

/-- the scene with a changed tree, if the change is not refused -/
def onTree (s : Scene τ) (change : Tree → Except EditError Tree) : Outcome (Scene τ) Unit :=
  match change s.tree with
  | .ok tree => (.ok (), { s with tree })
  | .error e => (.error e, s)

/-- the scene with bytes written through its source -/
def write [Transport τ] (s : Scene τ) (address : UInt64) (new : Bytes) : Outcome (Scene τ) Unit :=
  match s.source.write address new with
  | (true, source) => (.ok (), { s with source })
  | (false, source) => (.error (.writeFailed address new.length), { s with source })

end Scene

namespace Edit

variable {τ : Type} [Transport τ]

mutual

def apply : Edit → Scene τ → Outcome (Scene τ) Unit
  | insert nodes, s => s.onTree fun t => t.insert nodes
  | remove removed, s => s.onTree fun t => t.remove removed
  | reshape id _ new, s => s.onTree fun t => t.reshape id new
  | rename id _ new, s => s.onTree fun t => t.modify id fun n => { n with name := new }
  | nameStruct id _ new, s => s.onTree fun t => t.modify id fun n => { n with structName := new }
  | move id _ new, s => s.onTree fun t => t.move id new.1 new.2
  | fold id _ new, s => s.onTree fun t => t.modify id fun n => { n with collapsed := new }
  | refer id _ new, s => s.onTree fun t => t.modify id fun n => { n with ref := new }
  | write address _ new, s => s.write address new
  | batch edits, s => applyAll edits s

def retract : Edit → Scene τ → Outcome (Scene τ) Unit
  | insert nodes, s => s.onTree fun t => t.removeIds (nodes.map (·.id))
  | remove removed, s => s.onTree fun t => t.putBack removed
  | reshape id old _, s => s.onTree fun t => t.reshape id old
  | rename id old _, s => s.onTree fun t => t.modify id fun n => { n with name := old }
  | nameStruct id old _, s => s.onTree fun t => t.modify id fun n => { n with structName := old }
  | move id old _, s => s.onTree fun t => t.move id old.1 old.2
  | fold id old _, s => s.onTree fun t => t.modify id fun n => { n with collapsed := old }
  | refer id old _, s => s.onTree fun t => t.modify id fun n => { n with ref := old }
  | write address old _, s => s.write address old
  | batch edits, s => retractAll edits s

/-- makes edits in order; if one fails, those before it are taken back, the last first -/
def applyAll : List Edit → Scene τ → Outcome (Scene τ) Unit
  | [], s => (.ok (), s)
  | e :: rest, s =>
    match apply e s with
    | (.error err, s) => (.error err, s)
    | (.ok (), s) =>
      match applyAll rest s with
      | (.ok (), s) => (.ok (), s)
      | (.error err, s) => (.error err, (retract e s).2)

/-- takes edits back, the last first; if one fails, those after it are made again in order -/
def retractAll : List Edit → Scene τ → Outcome (Scene τ) Unit
  | [], s => (.ok (), s)
  | e :: rest, s =>
    match retractAll rest s with
    | (.error err, s) => (.error err, s)
    | (.ok (), s) =>
      match retract e s with
      | (.ok (), s) => (.ok (), s)
      | (.error err, s) => (.error err, applyEach rest s)

/-- makes edits in order, whether or not each succeeds -/
def applyEach : List Edit → Scene τ → Scene τ
  | [], s => s
  | e :: rest, s => applyEach rest (apply e s).2

end

end Edit

end ByteAtlas
