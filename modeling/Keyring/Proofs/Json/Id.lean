import Keyring.Id.Json
import Keyring.Proofs.Json.Literal

/-! Identifiers in JSON. Whatever the spelling of a text in a document, the document is read as the identifier that the
text is, or refused with the message for the text. -/
namespace Keyring.Id

variable {kind : IdKind}

/-- A document is read as its text is. -/
structure ReadsAs (kind : IdKind) (document text : String) : Prop where
  accepted : ∀ id, ofJson kind document = .ok id ↔ parse kind text = .ok id
  rewritten : ∀ id, ofJson kind document = .ok id → id.toJson.toList = '"' :: id.toHex.toList ++ ['"'] ∧
    ∃ d, IsBare text.toList d ∧ id.toHex.toList = d.map Char.toLower
  refused : ∀ e, (parse kind text).mapError Error.ofIdFault = .error e →
    ∃ fault, ofJson kind document = .error fault ∧ fault.message = e.message

/-- Digits need no escape. -/
lemma writeChar_digit {c : Char} (h : Hex.IsDigit c) : Json.writeChar c = [c] := by
  have hall : ∀ n < 16, Json.writeChar (Hex.digit n) = [Hex.digit n] := by decide
  obtain ⟨n,hn,rfl⟩ := h
  exact hall n hn

lemma writeText_toHex (id : Id kind) : Json.writeText id.toHex.toList = '"' :: id.toHex.toList ++ ['"'] := by
  have hdigits : (Hex.encodeChars id.bytes).flatMap Json.writeChar = Hex.encodeChars id.bytes :=
    (List.flatMap_congr fun c hc => writeChar_digit (Hex.isDigit_of_mem_encodeChars hc)).trans (List.flatMap_singleton' _)
  rw [Json.writeText,toHex,Hex.encode,String.toList_ofList,hdigits]

theorem readsAs_of_literal {document text : String} (h : Json.Literal document.toList text.toList) :
    ReadsAs kind document text := by
  obtain ⟨r,htext,hblank⟩ := Json.text_literal h
  rw [String.ofList_toList] at htext
  constructor
  case accepted => exact fun _ => ofJson_eq_ok_iff htext hblank
  case rewritten =>
    intro id hid
    have hparse : parse kind text = .ok id := (ofJson_eq_ok_iff htext hblank).mp hid
    exact ⟨id.toList_toJson.trans id.writeText_toHex,_,isBare_digits _,(classified text).rendered id hparse⟩
  case refused => exact fun _ => exists_fault_of_text htext hblank

/-- Identifiers are read from JSON as from their texts, however these are spelled there, and what is written for an
identifier is read back. -/
theorem json_agrees_with_text (kind : IdKind) :
    (∀ id : Id kind, ofJson kind id.toJson = .ok id) ∧
    ∀ document text : String, Json.Literal document.toList text.toList → ReadsAs kind document text := by
  refine ⟨fun id => ?_,fun _ _ => readsAs_of_literal⟩
  have hliteral : Json.Literal id.toJson.toList id.toHex.toList := by
    rw [toList_toJson]
    exact Json.literal_writeText _
  exact ((readsAs_of_literal hliteral).accepted id).mpr id.parse_toHex

/-- A text with a prefix and a character of the upper planes. Its first character is spelled as a unit, and its last one
as a pair, in digits of both cases; there are blanks around it. -/
theorem json_agrees_with_text_pair :
    let document := " \"\\u0030X00\\uD83D\\ude00\"\n"
    let text := "0X00😀"
    Json.Literal document.toList text.toList ∧ ReadsAs .eui64 document text := by
  intro document text
  have hzero : Json.IsUnit ['0','0','3','0'] '0'.toNat := Json.isUnit_numeral (by decide) (by decide) (by decide) (by decide)
  have hhigh : Json.IsUnit ['D','8','3','D'] 0xd83d := Json.isUnit_numeral (by decide) (by decide) (by decide) (by decide)
  have hlow : Json.IsUnit ['d','e','0','0'] 0xde00 := Json.isUnit_numeral (by decide) (by decide) (by decide) (by decide)
  have hraw {c : Char} (h : c = 'X' ∨ c = '0') : Json.CharSpelling [c] c := by
    rcases h with rfl | rfl <;> exact .raw (by decide) (by decide) (by decide)
  have hspelling : Json.Spelling "\\u0030X00\\uD83D\\ude00".toList text.toList := by
    have hbody : "\\u0030X00\\uD83D\\ude00".toList = ['\\','u','0','0','3','0'] ++ (['X'] ++ (['0'] ++ (['0'] ++
        (('\\' :: 'u' :: ['D','8','3','D'] ++ '\\' :: 'u' :: ['d','e','0','0']) ++ [])))) := by decide
    have htext : text.toList = ['0','X','0','0','😀'] := by decide
    rw [hbody,htext]
    exact .cons (.unit hzero) (.cons (hraw (.inl rfl)) (.cons (hraw (.inr rfl)) (.cons (hraw (.inr rfl))
      (.cons (.pair hhigh hlow (by decide) (by decide) (by decide)) .nil))))
  have hliteral : Json.Literal document.toList text.toList := by
    have hdocument : document.toList = [' '] ++ '"' :: "\\u0030X00\\uD83D\\ude00".toList ++ '"' :: ['\n'] := by decide
    rw [hdocument]
    exact .mk (by simp [Json.IsWhite]) (by simp [Json.IsWhite]) hspelling
  exact ⟨hliteral,(json_agrees_with_text .eui64).2 document text hliteral⟩

end Keyring.Id
