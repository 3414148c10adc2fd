import Keyring.Error
import Keyring.Json.Decode

/-! Identifiers in JSON: the text of an identifier as a JSON text. -/
namespace Keyring.Id

variable {kind : IdKind} {document text : String} {r : List Char}

def ofJson (kind : IdKind) (document : String) : Json.Read (Id kind) := do
  let (text,r) ← Json.text document.toList
  match Id.parse kind text with
  | .error fault => .error ⟨"",.refused (Error.ofIdFault fault).message⟩
  | .ok id => Json.finish id r

def toJson (id : Id kind) : String :=
  String.ofList (Json.writeText id.toHex.toList)

@[simp] theorem toList_toJson (id : Id kind) : id.toJson.toList = Json.writeText id.toHex.toList :=
  String.toList_ofList

/-- A document that is one text, with nothing but blanks behind it, is read as this text. -/
theorem ofJson_of_text (h : Json.text document.toList = .ok (text,r)) (hblank : Json.skipBlanks r = []) :
    ofJson kind document = (parse kind text).mapError fun fault => ⟨"",.refused (Error.ofIdFault fault).message⟩ := by
  simp only [ofJson,h,bind,Except.bind]
  cases parse kind text with
  | error fault => rfl
  | ok id => exact if_pos hblank

theorem ofJson_eq_ok_iff (h : Json.text document.toList = .ok (text,r)) (hblank : Json.skipBlanks r = []) {id : Id kind} :
    ofJson kind document = .ok id ↔ parse kind text = .ok id := by
  rw [ofJson_of_text h hblank]
  cases parse kind text with
  | error fault => exact iff_of_false nofun nofun
  | ok id' =>
    constructor
    · intro h
      cases h
      rfl
    · intro h
      cases h
      rfl

/-- The complaint about the text is the complaint about the document. -/
theorem exists_fault_of_text (h : Json.text document.toList = .ok (text,r)) (hblank : Json.skipBlanks r = []) {e : Error}
    (he : (parse kind text).mapError Error.ofIdFault = .error e) :
    ∃ fault, ofJson kind document = .error fault ∧ fault.message = e.message := by
  rw [ofJson_of_text h hblank]
  cases hparse : parse kind text with
  | error fault =>
    rw [hparse] at he
    obtain rfl := Except.error.inj he
    exact ⟨_,rfl,rfl⟩
  | ok id =>
    rw [hparse] at he
    exact nomatch he

end Keyring.Id
