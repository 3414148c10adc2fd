import Keyring.Error
import Keyring.Json.Decode
import Keyring.Yaml.Decode

/-! The configuration of a store, which may be part of a larger one. -/
namespace Keyring

structure Config where
  path : String := "gateways.yaml"
  deriving DecidableEq

namespace Config

/-- The path, once it was read. -/
def fields : Shape.Fields (Option String) where
  empty := none
  seen? path name := if name = "path" then some path.isSome else none
  put _ _ value := .ok (some value)

/-- A missing path takes the default. -/
def ofFields : Option String → Config
  | none => {}
  | some path => ⟨path⟩

def ofYaml (text : String) : Except Error Config :=
  if text.toList.all Text.isBlank then .ok {}
  else
    let d := Yaml.Document.ofSource (.ofBytes (Text.utf8 text.toList))
    match d.accept (d.rootRecord fields) with
    | .ok path => .ok (ofFields path)
    | .error fault => .error (.decode (.known (.config fault)))

def ofJson (document : String) : Json.Read Config := do
  let (path,r) ← Json.record fields "path" document.toList
  Json.finish (ofFields path) r

def toJson (config : Config) : String :=
  String.ofList ("\x7b\"path\":".toList ++ Json.writeText config.path.toList ++ ['\x7d'])

def shown (config : Config) : String :=
  "StoreConfig \x7b path: " ++ Text.quoted config.path ++ " \x7d"

end Config
end Keyring
