/-! What is asked of structured text, and where a document fails it. A record here is a set of named
fields whose values are texts. -/
namespace Keyring.Shape

/-- What is wrong at one place of a document. -/
inductive Defect where
  /-- A value was refused for a reason of its own, given in words. -/
  | refused (reason : String)
  | missingField (name : String)
  | duplicateField (name : String)
  /-- A value, or the name of a field, is of the wrong kind. -/
  | wrongKind
  | severalDocuments
  /-- The text breaks the rules of its notation. -/
  | malformed
  deriving DecidableEq

def Defect.message : Defect → String
  | refused reason => reason
  | missingField name => "missing field `" ++ name ++ "`"
  | duplicateField name => "duplicate field `" ++ name ++ "`"
  | wrongKind => "invalid type"
  | severalDocuments => "more than one document"
  | malformed => "malformed"

/-- A defect and the path to it; the root has the empty path. -/
structure Fault where
  path : String
  defect : Defect
  deriving DecidableEq

def Fault.malformed : Fault := ⟨"",.malformed⟩

def Fault.message (fault : Fault) : String :=
  if fault.path = "" then fault.defect.message else fault.path ++ ": " ++ fault.defect.message

/-- How the fields of a record are collected into a value of `σ`. -/
structure Fields (σ : Type) where
  empty : σ
  /-- Whether the field was read before, for a name that is one of the record's. -/
  seen? : σ → String → Option Bool
  /-- Takes in the value of a field, or refuses it for a reason. -/
  put : σ → (name value : String) → Except String σ

end Keyring.Shape
