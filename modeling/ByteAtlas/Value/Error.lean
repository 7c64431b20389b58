/-
Why a text is no value of a kind.
-/
import ByteAtlas.Kind
import ByteAtlas.Text.Quoted

namespace ByteAtlas

/-- reasons for which a text is refused as a value -/
inductive ValueError where
  /-- there is nothing but blanks -/
  | empty
  /-- nodes of the kind have no single value -/
  | notAValue (kind : Kind)
  | badNumber (text : String)
  | outOfRange (text : String) (kind : Kind)
  | badBool (text : String)
  /-- not the bytes that were asked for, two digits each -/
  | badHex (text : String) (expected : Nat)
  | componentCount (expected got : Nat)
  deriving DecidableEq, Repr

def ValueError.message : ValueError → String
  | empty => "empty value"
  | notAValue kind => kind.name ++ " has no editable value"
  | badNumber text => "not a number: " ++ Text.quote text
  | outOfRange text kind => Text.quote text ++ " is out of range for " ++ kind.name
  | badBool text => "not a boolean: " ++ Text.quote text
  | badHex text expected => "expected " ++ expected.repr ++ " hex bytes, got " ++ Text.quote text
  | componentCount expected got => "expected " ++ expected.repr ++ " components, got " ++ got.repr

end ByteAtlas
