import Keyring.Proofs.IdText
import Keyring.Proofs.Store.Additions

/-! Files as a person may write them. They mean the same as the files that stores write for the same records, and
stores can add to them. -/
namespace Keyring.Handwritten

/-- How a value is set off from the rest of its line. -/
inductive Quoting where
  | plain
  | single
  | double
  deriving DecidableEq

def Quoting.around : Quoting → List Char → List Char
  | plain,t => t
  | single,t => '\'' :: t ++ ['\'']
  | double,t => '"' :: t ++ ['"']

/-- The record of an identifier and a key. -/
structure Entry where
  id : Eui64
  key : Key
  /-- Whether the key stands before the identifier. -/
  keyFirst : Bool
  /-- The mark of a base before the identifier. -/
  mark : String
  idDigits : String
  keyDigits : String
  idQuoting : Quoting
  keyQuoting : Quoting
  isMark : mark = "" ∨ mark = "0x" ∨ mark = "0X"
  lower_idDigits : idDigits.toList.map Char.toLower = id.toHex.toList
  lower_keyDigits : keyDigits.toList.map Char.toLower = key.toHex.toList

namespace Entry

def idLine (e : Entry) : List Char :=
  "local_id".toList ++ [':',' '] ++ e.idQuoting.around (e.mark ++ e.idDigits).toList

def keyLine (e : Entry) : List Char :=
  "private_key".toList ++ [':',' '] ++ e.keyQuoting.around e.keyDigits.toList

lemma idLine_eq (e : Entry) :
    e.idLine = "local_id".toList ++ [':',' '] ++ e.idQuoting.around (e.mark ++ e.idDigits).toList := rfl

lemma keyLine_eq (e : Entry) :
    e.keyLine = "private_key".toList ++ [':',' '] ++ e.keyQuoting.around e.keyDigits.toList := rfl

/-- The two lines, without the end of the second one. -/
def text (e : Entry) : List Char :=
  if e.keyFirst then ['-',' '] ++ e.keyLine ++ ['\n',' ',' '] ++ e.idLine
  else ['-',' '] ++ e.idLine ++ ['\n',' ',' '] ++ e.keyLine

end Entry

/-- A part of a file, up to the end of its last line. -/
inductive Part where
  | blank (width : Nat)
  | comment (text : List Char) (isPrintable : ∀ c ∈ text, Yaml.isPrintable c)
  | entry (e : Entry)

def Part.text : Part → List Char
  | blank width => List.replicate width ' '
  | comment t _ => '#' :: t
  | entry e => e.text

def Part.pair? : Part → Option (Eui64 × Key)
  | entry e => some (e.id,e.key)
  | _ => none

/-- A file. Its last line is ended if the last part is empty. -/
structure Sheet where
  parts : List Part
  last : Part

namespace Sheet

def text (s : Sheet) : List Char := s.parts.flatMap (fun p => p.text ++ ['\n']) ++ s.last.text

def bytes (s : Sheet) : Bytes := Text.utf8 s.text

/-- The records of a file. -/
def pairs (s : Sheet) : List (Eui64 × Key) := (s.parts ++ [s.last]).filterMap Part.pair?

end Sheet

lemma Quoting.spells (q : Quoting) {t : List Char} (hne : t ≠ []) (ht : ∀ c ∈ t, Yaml.isPlainWord c) :
    Yaml.Spells (q.around t) t (q = .plain) := by
  cases q with
  | plain => exact Yaml.spells_word hne ht
  | single =>
    have hquoted := Yaml.spells_quoted fun c hc => Yaml.isPrintable_of_isPlainWord (ht c hc)
    rwa [Yaml.doubled_of_isPlainWord ht] at hquoted
  | double => exact Yaml.spells_doubleQuoted ht

lemma Quoting.isPrintable_of_mem (q : Quoting) {t : List Char} (ht : ∀ c ∈ t, Yaml.isPlainWord c) {c : Char}
    (hc : c ∈ q.around t) : Yaml.isPrintable c := by
  have hword := fun c hc => Yaml.isPrintable_of_isPlainWord (ht c hc)
  cases q with
  | plain => exact hword c hc
  | single =>
    simp only [around,List.cons_append,List.mem_cons,List.mem_append,List.not_mem_nil,or_false] at hc
    rcases hc with rfl | hc | rfl
    · decide
    · exact hword c hc
    · decide
  | double =>
    simp only [around,List.cons_append,List.mem_cons,List.mem_append,List.not_mem_nil,or_false] at hc
    rcases hc with rfl | hc | rfl
    · decide
    · exact hword c hc
    · decide

/-- A field of the same name whose value is set off in this way. -/
def Quoting.field (q : Quoting) (f : Yaml.Field) {t : List Char} (hne : t ≠ [])
    (ht : ∀ c ∈ t, Yaml.isPlainWord c) : Yaml.Field where
  __ := f
  spelling := q.around t
  text := t
  plain := q = .plain
  spells := q.spells hne ht

section

variable (q : Quoting) (f : Yaml.Field) {t : List Char} (hne : t ≠ []) (ht : ∀ c ∈ t, Yaml.isPlainWord c)

lemma Quoting.line_field : (q.field f hne ht).line = f.name ++ [':',' '] ++ q.around t := rfl

lemma Quoting.name_field : (q.field f hne ht).name = f.name := rfl

lemma Quoting.text_field : (q.field f hne ht).text = t := rfl

lemma Quoting.isPrintable_of_mem_line : ∀ c ∈ (q.field f hne ht).line, Yaml.isPrintable c := by
  intro c hc
  rw [line_field,List.mem_append,List.mem_append] at hc
  rcases hc with (hc | hc) | hc
  · exact Yaml.isPrintable_of_isPlainWord (f.isPlainWord_of_mem c hc)
  · exact List.all_eq_true.mp (by decide : [':',' '].all Yaml.isPrintable = true) c hc
  · exact q.isPrintable_of_mem ht hc

end

namespace Entry

variable (e : Entry)

lemma parse_id : Id.parse .eui64 (e.mark ++ e.idDigits) = .ok e.id :=
  Id.parse_of_lower e.isMark (e.lower_idDigits.trans (String.toList_ofList ..))

lemma ofHex_key : Key.ofHex e.keyDigits = .ok e.key := by
  have hdecode : Hex.decodeText e.keyDigits = .ok e.key.toBytes :=
    Hex.decode_eq_ok_iff.mpr (e.lower_keyDigits.trans (String.toList_ofList ..))
  rw [Key.ofHex,hdecode]
  exact Key.ofBytes_toBytes e.key

lemma isPlainWord_of_mem_id : ∀ c ∈ (e.mark ++ e.idDigits).toList, Yaml.isPlainWord c :=
  Record.isPlainWord_of_parse e.parse_id

lemma isPlainWord_of_mem_key : ∀ c ∈ e.keyDigits.toList, Yaml.isPlainWord c := by
  have hlower := e.lower_keyDigits.trans (String.toList_ofList ..)
  exact fun c hc => Record.isPlainWord_of_charValue? (Hex.isHexDigit_iff.mp (Hex.isHexDigit_of_lower hlower c hc))

lemma id_ne : (e.mark ++ e.idDigits).toList ≠ [] := by
  intro h
  have hdigits : e.idDigits.toList = [] := (List.append_eq_nil_iff.mp (String.toList_append ▸ h)).2
  have hlower := e.lower_idDigits
  rw [hdigits] at hlower
  exact Record.toHex_ne e.id hlower.symm

lemma key_ne : e.keyDigits.toList ≠ [] := by
  intro h
  have hlower := e.lower_keyDigits
  rw [h] at hlower
  exact Record.toHex_key_ne e.key hlower.symm

def idField : Yaml.Field :=
  e.idQuoting.field (Record.localIdField e.id) e.id_ne e.isPlainWord_of_mem_id

def keyField : Yaml.Field :=
  e.keyQuoting.field (Record.privateKeyField e.key) e.key_ne e.isPlainWord_of_mem_key

/-- The two fields in their order. -/
def toYaml : Yaml.Entry := if e.keyFirst then ⟨e.keyField,[e.idField]⟩ else ⟨e.idField,[e.keyField]⟩

lemma line_idField : e.idField.line = e.idLine := Quoting.line_field ..

lemma line_keyField : e.keyField.line = e.keyLine := Quoting.line_field ..

lemma body_toYaml : e.toYaml.body = e.text := by
  have hbody (f g : Yaml.Field) : (Yaml.Entry.mk f [g]).body = ['-',' '] ++ f.line ++ ['\n',' ',' '] ++ g.line := by
    simp [Yaml.Entry.body,Yaml.Field.indented]
  rw [toYaml,text,← line_idField,← line_keyField]
  split <;> rw [hbody]

lemma reads_toYaml : Record.Reads e.toYaml ⟨e.id,e.keyDigits⟩ := by
  have hid : Id.parse .eui64 (String.ofList e.idField.text) = .ok e.id := by
    rw [idField,Quoting.text_field,String.ofList_toList,e.parse_id]
  have hkey : String.ofList e.keyField.text = e.keyDigits := by
    rw [keyField,Quoting.text_field,String.ofList_toList]
  rw [toYaml,← hkey]
  split
  · exact Record.reads_of_fields_swapped (Quoting.name_field ..) hid (Quoting.name_field ..)
  · exact Record.reads_of_fields (Quoting.name_field ..) hid (Quoting.name_field ..)

/-- The lines of an entry, in their order. -/
lemma exists_lines : ∃ first second, e.text = ['-',' '] ++ first ++ ['\n',' ',' '] ++ second ∧ second ≠ [] ∧
    (∀ c ∈ first, Yaml.isPrintable c) ∧ ∀ c ∈ second, Yaml.isPrintable c := by
  have hid : ∀ c ∈ e.idLine, Yaml.isPrintable c := e.line_idField ▸ Quoting.isPrintable_of_mem_line _ _ _ _
  have hkey : ∀ c ∈ e.keyLine, Yaml.isPrintable c := e.line_keyField ▸ Quoting.isPrintable_of_mem_line _ _ _ _
  have hne (f : Yaml.Field) : f.line ≠ [] := by simp [Yaml.Field.line]
  rw [text]
  split
  · exact ⟨e.keyLine,e.idLine,rfl,e.line_idField ▸ hne _,hkey,hid⟩
  · exact ⟨e.idLine,e.keyLine,rfl,e.line_keyField ▸ hne _,hid,hkey⟩

end Entry

namespace Part

def toYaml : Part → Yaml.Part
  | blank width => .filler (List.replicate width ' ') (.inl ⟨width,rfl⟩)
  | comment t h => .filler ('#' :: t) (.inr ⟨t,rfl,h⟩)
  | entry e => .entry e.toYaml

lemma text_toYaml (p : Part) : p.toYaml.text = p.text := by
  cases p with
  | blank width => rfl
  | comment t h => rfl
  | entry e => exact e.body_toYaml

lemma isLines_text (p : Part) : Yaml.IsLines p.text := by
  intro c hc
  cases p with
  | blank width =>
    obtain rfl := List.eq_of_mem_replicate hc
    exact .inl (by decide)
  | comment t h =>
    rcases List.mem_cons.mp hc with rfl | hc
    · exact .inl (by decide)
    · exact .inl (h c hc)
  | entry e =>
    obtain ⟨first,second,htext,-,hfirst,hsecond⟩ := e.exists_lines
    simp only [text,htext,List.mem_append] at hc
    rcases hc with ((hc | hc) | hc) | hc
    · exact Yaml.isLines_of_all (t := ['-',' ']) (by decide) c hc
    · exact .inl (hfirst c hc)
    · exact Yaml.isLines_of_all (t := ['\n',' ',' ']) (by decide) c hc
    · exact .inl (hsecond c hc)

/-- The last line of a part is not ended. -/
lemma getLast?_text (p : Part) : p.text.getLast? ≠ some '\n' := by
  have hprintable {t : List Char} (ht : ∀ c ∈ t, Yaml.isPrintable c) : t.getLast? ≠ some '\n' := by
    intro h
    exact absurd (ht _ (List.mem_of_getLast? h)) (by decide)
  cases p with
  | blank width =>
    refine hprintable fun c hc => ?_
    obtain rfl := List.eq_of_mem_replicate hc
    decide
  | comment t h => exact hprintable (List.forall_mem_cons.mpr ⟨by decide,h⟩)
  | entry e =>
    obtain ⟨first,second,htext,hne,-,hsecond⟩ := e.exists_lines
    rw [text,htext,List.getLast?_append_of_ne_nil _ hne]
    exact hprintable hsecond

end Part

namespace Sheet

variable (s : Sheet)

/-- The entries of a file. -/
def entries : List Entry := (s.parts ++ [s.last]).filterMap fun
  | .entry e => some e
  | _ => none

lemma pairs_eq : s.pairs = s.entries.map fun e => (e.id,e.key) := by
  rw [pairs,entries,List.map_filterMap]
  congr 1
  funext p
  cases p <;> rfl

lemma entries_toYaml : Yaml.Part.entries ((s.parts ++ [s.last]).map Part.toYaml) = s.entries.map Entry.toYaml := by
  rw [Yaml.Part.entries,entries,List.filterMap_map,List.map_filterMap]
  congr 1
  funext p
  cases p <;> rfl

lemma text_eq : '\n' :: s.text = Yaml.Part.following ((s.parts ++ [s.last]).map Part.toYaml) := by
  have htext : (fun p : Part => p.text ++ ['\n']) = fun p => p.toYaml.text ++ ['\n'] :=
    funext fun p => by rw [p.text_toYaml]
  rw [List.map_append,List.map_singleton,Yaml.Part.following_lines,List.flatMap_map,text,htext,Part.text_toYaml]

lemma isLines_text : Yaml.IsLines s.text := by
  intro c hc
  simp only [text,List.mem_append,List.mem_flatMap,List.mem_singleton] at hc
  rcases hc with ⟨p,-,hc | rfl⟩ | hc
  · exact p.isLines_text c hc
  · exact .inr rfl
  · exact s.last.isLines_text c hc

lemma tokens_text : Yaml.tokens ⟨s.text,[]⟩ = if s.entries = [] then ([.streamEnd],true)
    else (.blockSequenceStart :: (s.entries.map Entry.toYaml).flatMap (fun e => e.tokens ++ [.blockEnd]) ++
      [.blockEnd,.streamEnd],true) := by
  obtain ⟨p,ps,hparts⟩ : ∃ p ps, s.parts ++ [s.last] = p :: ps := List.exists_cons_of_ne_nil (by simp)
  have htext := s.text_eq
  have hentries := s.entries_toYaml
  rw [hparts,List.map_cons] at htext hentries
  rw [Yaml.Part.following_cons,List.cons.injEq] at htext
  rw [htext.2,Yaml.tokens_parts,hentries]
  simp only [List.map_eq_nil_iff]

lemma ofSource_bytes : Yaml.Document.ofSource (.ofBytes s.bytes) = if s.entries = [] then .ofTokens [.streamEnd]
    else ⟨Yaml.Entry.list (s.entries.map Entry.toYaml),[],true,true⟩ := by
  rw [bytes,Yaml.Source.ofBytes_lines s.isLines_text,Yaml.Document.ofSource,tokens_text]
  split
  · rfl
  · exact Yaml.Document.ofTokens_entries _

lemma not_blank (hne : s.entries ≠ []) : s.bytes.all Text.isBlankByte = false := by
  obtain ⟨e,he⟩ := List.exists_mem_of_ne_nil _ hne
  obtain ⟨p,hp,hpe⟩ := List.mem_filterMap.mp he
  have hhyphen : '-' ∈ p.text := by
    cases p with
    | blank width => cases hpe
    | comment t h => cases hpe
    | entry e =>
      obtain ⟨first,second,htext,-⟩ := e.exists_lines
      rw [Part.text,htext]
      simp
  have htext : '-' ∈ s.text := by
    rcases List.mem_append.mp hp with hp | hp
    · exact List.mem_append_left _ (List.mem_flatMap.mpr ⟨p,hp,List.mem_append_left _ hhyphen⟩)
    · exact List.mem_append_right _ (List.mem_singleton.mp hp ▸ hhyphen)
  have hbyte : (0x2d : UInt8) ∈ s.bytes := List.mem_flatMap.mpr ⟨'-',htext,by decide⟩
  rw [List.all_eq_false]
  exact ⟨_,hbyte,by decide⟩

variable {pub : PublicKeyMap}

/-- A file is read as the gateways of its records. -/
lemma decode_bytes (heven : ∀ p ∈ s.pairs, (pub p.2).IsEven) : ∃ gs, Gateway.decode pub s.bytes = .ok gs ∧
    gs.map .ok = s.pairs.map fun p => Gateway.new pub p.1 p.2 := by
  have hdocument := s.ofSource_bytes
  rw [pairs_eq] at heven ⊢
  by_cases hne : s.entries = []
  · rw [if_pos hne] at hdocument
    refine ⟨[],?_,by rw [hne]; rfl⟩
    cases hblank : s.bytes.all Text.isBlankByte with
    | true => exact if_pos hblank
    | false =>
      have hread : Record.readAll s.bytes = .ok [] := by
        simp only [Record.readAll,hdocument]
        rfl
      rw [Gateway.decode_of_readAll hblank hread]
      rfl
  · rw [if_neg hne] at hdocument
    have hreads : List.Forall₂ Record.Reads (s.entries.map Entry.toYaml)
        (s.entries.map fun e => ⟨e.id,e.keyDigits⟩) := by
      rw [List.forall₂_map_left_iff,List.forall₂_map_right_iff,List.forall₂_same]
      exact fun e _ => e.reads_toYaml
    have hkeys : List.Forall₂ (fun r p => r.localId = p.1 ∧ Key.ofHex r.privateKey = .ok p.2)
        (s.entries.map fun e => (⟨e.id,e.keyDigits⟩ : Record)) (s.entries.map fun e => (e.id,e.key)) := by
      rw [List.forall₂_map_left_iff,List.forall₂_map_right_iff,List.forall₂_same]
      exact fun e _ => ⟨rfl,e.ofHex_key⟩
    rw [Gateway.decode_of_readAll (s.not_blank hne) (Record.readAll_of_reads hreads hdocument)]
    exact Record.gateways_of_keys hkeys heven 0

/-- Stores set off what could be taken for something else. -/
def quoting (t : List Char) : Quoting := if Yaml.Scalar.isAmbiguous t then .single else .plain

lemma around_quoting (t : List Char) : (quoting t).around t = Record.written t := by
  rw [Record.written,quoting]
  split <;> rfl

/-- The entry that stores write. -/
def written (id : Eui64) (key : Key) : Entry where
  id := id
  key := key
  keyFirst := false
  mark := ""
  idDigits := id.toHex
  keyDigits := key.toHex
  idQuoting := quoting id.toHex.toList
  keyQuoting := quoting key.toHex.toList
  isMark := .inl rfl
  lower_idDigits := by
    rw [show id.toHex.toList = Hex.encodeChars id.bytes from String.toList_ofList,Hex.map_encodeChars Char.toLower (by decide)]
  lower_keyDigits := by
    rw [show key.toHex.toList = Hex.encodeChars key.toBytes from String.toList_ofList,Hex.map_encodeChars Char.toLower (by decide)]

lemma text_written (id : Eui64) (key : Key) : (written id key).text ++ ['\n'] = Record.write ⟨id,key.toHex⟩ := by
  have hmark : (written id key).mark ++ (written id key).idDigits = id.toHex := String.empty_append
  have hidQuoting : (written id key).idQuoting = quoting id.toHex.toList := by rw [written]
  have hdigits : (written id key).keyDigits = key.toHex := by rw [written]
  have hkeyQuoting : (written id key).keyQuoting = quoting key.toHex.toList := by rw [written]
  have hid : (written id key).idField.line = (Record.localIdField id).line := by
    rw [Entry.line_idField,Record.line_localIdField,Entry.idLine_eq,hmark,hidQuoting,
      around_quoting]
  have hkey : (written id key).keyField.line = (Record.privateKeyField key).line := by
    rw [Entry.line_keyField,Record.line_privateKeyField,Entry.keyLine_eq,hdigits,hkeyQuoting,
      around_quoting]
  have hentry : (written id key).toYaml = ⟨(written id key).idField,[(written id key).keyField]⟩ := rfl
  have htext := Record.text_entry (id,key)
  rw [Record.ofPair,Record.entry] at htext
  rw [← Entry.body_toYaml,← Yaml.Entry.text_eq,← htext,hentry]
  simp only [Yaml.Entry.text,Yaml.Field.lines,hid,hkey,List.flatMap_cons,List.flatMap_nil]

/-- The file with one more record at its end. -/
def add (id : Eui64) (key : Key) : Sheet :=
  ⟨s.parts ++ (if s.last.text = [] then [] else [s.last]) ++ [.entry (written id key)],.blank 0⟩

lemma lineEnd_bytes : lineEnd s.bytes = if s.last.text = [] then [] else [0x0a] := by
  simp only [lineEnd,bytes,ne_eq,Yaml.Source.getLast?_utf8_eq_lf_iff,Yaml.Source.utf8_eq_nil_iff]
  by_cases h : s.last.text = []
  · rw [if_pos h,text,h,List.append_nil]
    rcases List.eq_nil_or_concat s.parts with hnil | ⟨ps,p,hparts⟩
    · simp [hnil]
    · simp [hparts,← List.append_assoc]
  · have hlast := s.last.getLast?_text
    rw [if_neg h,text,List.getLast?_append_of_ne_nil _ h,if_pos ⟨by simp [h],hlast⟩]

lemma bytes_add (id : Eui64) (key : Key) :
    (s.add id key).bytes = s.bytes ++ lineEnd s.bytes ++ Record.encode id key := by
  have hend : lineEnd s.bytes = Text.utf8 (if s.last.text = [] then [] else ['\n']) := by
    rw [lineEnd_bytes]
    split <;> rfl
  rw [hend,bytes,bytes,Record.encode,← Text.utf8_append,← Text.utf8_append,← text_written]
  congr 1
  have hblank : (Part.blank 0).text = [] := rfl
  have hentry : (Part.entry (written id key)).text = (written id key).text := rfl
  by_cases h : s.last.text = []
  · simp [text,add,h,hblank,hentry]
  · simp [text,add,h,hblank,hentry]

lemma pairs_add (id : Eui64) (key : Key) : (s.add id key).pairs = s.pairs ++ [(id,key)] := by
  have hlast : (if s.last.text = [] then [] else [s.last]).filterMap Part.pair? = [s.last].filterMap Part.pair? := by
    split
    · next h =>
      cases hp : s.last with
      | entry e =>
        obtain ⟨first,second,htext,-⟩ := e.exists_lines
        simp [hp,Part.text,htext] at h
      | _ => rfl
    · rfl
  have hnew : [Part.entry (written id key),.blank 0].filterMap Part.pair? = [(id,key)] := rfl
  simp only [pairs,add,List.append_assoc,List.filterMap_append,hlast,← hnew]
  rfl

/-- Adding a record to such a file writes another such file. -/
lemma add_opened (heven : ∀ p ∈ s.pairs, (pub p.2).IsEven) {fs : FileSystem} {path : String} {id : Eui64} {key : Key}
    (hread : fs.read path = .ok s.bytes) (hfresh : ∀ p ∈ s.pairs, p.1 ≠ id) (hkey : (pub key).IsEven)
    {gs : List Gateway} (hgs : gs.map .ok = s.pairs.map fun p => Gateway.new pub p.1 p.2) :
    ∃ g, Gateway.new pub id key = .ok g ∧
      let a := Store.add pub fs ⟨path,gs⟩ id key
      a.result = .ok () ∧ a.store = ⟨path,gs ++ [g]⟩ ∧ (Store.openAt pub a.files path).2 = .ok a.store := by
  have heven' : ∀ p ∈ (s.add id key).pairs, (pub p.2).IsEven := by
    rw [pairs_add]
    exact List.forall_mem_append.mpr ⟨heven,by simpa using hkey⟩
  obtain ⟨gs',hdecode,hgs'⟩ := (s.add id key).decode_bytes heven'
  obtain ⟨g,hg⟩ : ∃ g, Gateway.new pub id key = .ok g := ⟨_,Gateway.new_of_even hkey⟩
  have happend : gs' = gs ++ [g] := by
    apply List.map_injective_iff.mpr fun _ _ => Except.ok.inj
    rw [hgs',pairs_add,List.map_append,List.map_append,hgs,List.map_singleton,List.map_singleton,hg]
  subst happend
  have hknown : ∀ g ∈ gs, g.localId ≠ id := by
    rw [← Gateway.pairs_of_new hgs] at hfresh
    simpa using hfresh
  obtain ⟨l,f,htarget,hf,hbytes⟩ := FileSystem.target_of_read hread
  have hwritten : (Store.writtenFile fs l id key).bytes = (s.add id key).bytes := by
    rw [bytes_add,Store.writtenFile,hf,← hbytes]
    rfl
  rw [Store.add_of_decode (s := ⟨path,gs⟩) hknown hkey htarget (hwritten ▸ hdecode)]
  refine ⟨g,hg,rfl,rfl,?_⟩
  rw [Store.openAt_of_read (Store.read_writtenFile (s := ⟨path,gs⟩) htarget),hwritten,hdecode]
  rfl

/-- A file that spells records in any of these ways is read as what stores write for the same records. A store that was
opened from it takes in a further record, and then holds this one behind the others. -/
theorem decode_handwritten (heven : ∀ p ∈ s.pairs, (pub p.2).IsEven) :
    ∃ gs : List Gateway, gs.map .ok = (s.pairs.map fun p => Gateway.new pub p.1 p.2) ∧
      Gateway.decode pub s.bytes = .ok gs ∧
      Gateway.decode pub s.bytes = Gateway.decode pub (s.pairs.flatMap fun p => Record.encode p.1 p.2) ∧
      ∀ {fs : FileSystem} {path : String} {id : Eui64} {key : Key}, fs.read path = .ok s.bytes →
        (∀ p ∈ s.pairs, p.1 ≠ id) → (pub key).IsEven →
        (Store.openAt pub fs path).2 = .ok ⟨path,gs⟩ ∧ ∃ g, Gateway.new pub id key = .ok g ∧
          let a := Store.add pub fs ⟨path,gs⟩ id key
          a.result = .ok () ∧ a.store = ⟨path,gs ++ [g]⟩ ∧ (Store.openAt pub a.files path).2 = .ok a.store := by
  obtain ⟨gs,hdecode,hgs⟩ := s.decode_bytes heven
  obtain ⟨gs',hdecode',hgs'⟩ := Gateway.decode_encodings heven
  obtain rfl : gs' = gs := List.map_injective_iff.mpr (fun _ _ => Except.ok.inj) (hgs'.trans hgs.symm)
  refine ⟨gs',hgs',hdecode,hdecode.trans hdecode'.symm,fun hread hfresh hkey => ⟨?_,?_⟩⟩
  · rw [Store.openAt_of_read hread,hdecode]
    rfl
  · exact s.add_opened heven hread hfresh hkey hgs'

/-- A comment, a blank line, and a record with its key first. The last line is not ended. -/
def sample : Sheet where
  parts := [.comment " keys".toList (List.all_eq_true.mp (by decide)),.blank 0]
  last := .entry {
    id := ⟨List.replicate 8 0xab,rfl⟩
    key := .one
    keyFirst := true
    mark := "0X"
    idDigits := "ABabABabABabABab"
    keyDigits := Key.one.toHex
    idQuoting := .double
    keyQuoting := .plain
    isMark := .inr (.inr rfl)
    lower_idDigits := by decide +kernel
    lower_keyDigits := by decide +kernel }

theorem decode_handwritten_sample :
    let pub := Secp256k1.publicKey
    let fs := Store.single sample.bytes
    let path := "gateways.yaml"
    let id := Id.zero .eui64
    (∀ p ∈ sample.pairs, (pub p.2).IsEven) ∧ fs.read path = .ok sample.bytes ∧ (∀ p ∈ sample.pairs, p.1 ≠ id) ∧
    (pub .one).IsEven ∧ ∃ gs : List Gateway, gs.map .ok = (sample.pairs.map fun p => Gateway.new pub p.1 p.2) ∧
      Gateway.decode pub sample.bytes = .ok gs ∧
      Gateway.decode pub sample.bytes = Gateway.decode pub (sample.pairs.flatMap fun p => Record.encode p.1 p.2) ∧
      (Store.openAt pub fs path).2 = .ok ⟨path,gs⟩ ∧ ∃ g, Gateway.new pub id .one = .ok g ∧
        let a := Store.add pub fs ⟨path,gs⟩ id .one
        a.result = .ok () ∧ a.store = ⟨path,gs ++ [g]⟩ ∧ (Store.openAt pub a.files path).2 = .ok a.store := by
  intro pub fs path id
  have hone : (pub .one).IsEven := Secp256k1.isEven_publicKey_one
  have hpairs : sample.pairs = [(⟨List.replicate 8 0xab,rfl⟩,.one)] := rfl
  have heven : ∀ p ∈ sample.pairs, (pub p.2).IsEven := by
    rw [hpairs]
    simpa using hone
  have hfresh : ∀ p ∈ sample.pairs, p.1 ≠ id := by
    rw [hpairs]
    simp only [List.mem_singleton,forall_eq]
    decide
  have hread := Store.read_single sample.bytes
  obtain ⟨gs,hgs,hdecode,hsame,hadd⟩ := decode_handwritten sample heven
  exact ⟨heven,hread,hfresh,hone,gs,hgs,hdecode,hsame,hadd hread hfresh hone⟩

end Sheet

end Keyring.Handwritten
