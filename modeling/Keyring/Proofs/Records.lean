import Keyring.Proofs.Hex
import Keyring.Proofs.KeyText
import Keyring.Proofs.Yaml.Events
import Keyring.Proofs.Yaml.Source
import Keyring.Secp256k1
import Mathlib

/-! The records that stores write, and what is read where only such records stand. -/
namespace Keyring

namespace Hex

lemma isPlainWord_digit {n : Nat} (h : n < 16) : Yaml.isPlainWord (digit n) := by
  revert n
  decide

lemma isPlainWord_of_mem_encode {bytes : Bytes} : ∀ c ∈ (encode bytes).toList, Yaml.isPlainWord c := by
  intro c h
  rw [encode,String.toList_ofList] at h
  obtain ⟨n,hn,rfl⟩ := isDigit_of_mem_encodeChars h
  exact isPlainWord_digit hn

lemma toList_encode_ne {bytes : Bytes} (h : 0 < bytes.length) : (encode bytes).toList ≠ [] := by
  intro hnil
  rw [encode,String.toList_ofList] at hnil
  have hlength := length_encodeChars bytes
  rw [hnil,List.length_nil] at hlength
  omega

end Hex

namespace Record

/-- Texts are written so that they read as themselves, whether or not they could be taken for something else. -/
lemma spells_written {t : List Char} (hne : t ≠ []) (ht : ∀ c ∈ t, Yaml.isPlainWord c) :
    Yaml.Spells (written t) t (!Yaml.Scalar.isAmbiguous t) := by
  rw [written]
  by_cases h : Yaml.Scalar.isAmbiguous t = true
  · have hquoted := Yaml.spells_quoted fun c hc => Yaml.isPrintable_of_isPlainWord (ht c hc)
    rw [Yaml.doubled_of_isPlainWord ht] at hquoted
    simpa [h] using hquoted
  · simpa [h] using Yaml.spells_word hne ht

lemma toHex_ne {kind : IdKind} (id : Id kind) : id.toHex.toList ≠ [] :=
  Hex.toList_encode_ne (by rw [id.width_eq]; cases kind <;> decide)

lemma toHex_key_ne (key : Key) : key.toHex.toList ≠ [] :=
  Hex.toList_encode_ne (by rw [Key.toBytes,BigEndian.length_ofNat]; decide)

lemma isPlainWord_of_charValue? {c : Char} (h : (Hex.charValue? c).isSome) : Yaml.isPlainWord c := by
  have hdigits : ∀ n < 128, (Hex.value? (UInt8.ofNat n)).isSome → Yaml.isPlainWord (Char.ofNat n) := by decide
  have hlt := Hex.toNat_lt_of_charValue? h
  rw [Hex.charValue?,if_pos hlt] at h
  have hword := hdigits c.toNat hlt h
  rwa [Char.ofNat_toNat] at hword

lemma isPlainWord_of_parse {t : String} {id : Eui64} (h : Id.parse .eui64 t = .ok id) :
    ∀ c ∈ t.toList, Yaml.isPlainWord c := by
  intro c hc
  rcases Id.isSome_charValue?_of_parse h c hc with hc | rfl | rfl
  · exact isPlainWord_of_charValue? hc
  · decide
  · decide

/-- A word that is short enough to be the name of a field. -/
def IsName (name : List Char) : Prop := name ≠ [] ∧ name.all Yaml.isPlainWord ∧ name.length ≤ 1000

instance : DecidablePred IsName := fun _ => inferInstanceAs (Decidable (_ ∧ _ ∧ _))

/-- A field whose value is a text of letters and digits. -/
def field {name t : List Char} (hname : IsName name) (hne : t ≠ []) (ht : ∀ c ∈ t, Yaml.isPlainWord c) :
    Yaml.Field where
  name := name
  spelling := written t
  text := t
  plain := !Yaml.Scalar.isAmbiguous t
  name_ne := hname.1
  isPlainWord_of_mem := List.all_eq_true.mp hname.2.1
  length_name := hname.2.2
  spells := spells_written hne ht

/-- A field whose value is in quotes. -/
def quotedField {name t : List Char} (hname : IsName name) (ht : ∀ c ∈ t, Yaml.isPlainWord c) : Yaml.Field where
  name := name
  spelling := '\'' :: t ++ ['\'']
  text := t
  plain := false
  name_ne := hname.1
  isPlainWord_of_mem := List.all_eq_true.mp hname.2.1
  length_name := hname.2.2
  spells := by
    have hspells := Yaml.spells_quoted fun c hc => Yaml.isPrintable_of_isPlainWord (ht c hc)
    rwa [Yaml.doubled_of_isPlainWord ht] at hspells

def localIdField (id : Eui64) : Yaml.Field :=
  field (by decide : IsName "local_id".toList) (toHex_ne id) fun c hc => Hex.isPlainWord_of_mem_encode c hc

def privateKeyField (key : Key) : Yaml.Field :=
  field (by decide : IsName "private_key".toList) (toHex_key_ne key) fun c hc =>
    Hex.isPlainWord_of_mem_encode c hc

/-- The record of an identifier and a key. -/
def ofPair (p : Eui64 × Key) : Record := ⟨p.1,p.2.toHex⟩

/-- The entry of this record, as it is written. -/
def entry (p : Eui64 × Key) : Yaml.Entry := ⟨localIdField p.1,[privateKeyField p.2]⟩

section

variable {name t : List Char} (hname : IsName name) (hne : t ≠ []) (ht : ∀ c ∈ t, Yaml.isPlainWord c)

lemma line_field : (field hname hne ht).line = name ++ [':',' '] ++ written t := rfl

lemma name_field : (field hname hne ht).name = name := rfl

lemma text_field : (field hname hne ht).text = t := rfl

end

lemma line_localIdField (id : Eui64) :
    (localIdField id).line = "local_id".toList ++ [':',' '] ++ written id.toHex.toList :=
  line_field ..

lemma line_privateKeyField (key : Key) :
    (privateKeyField key).line = "private_key".toList ++ [':',' '] ++ written key.toHex.toList :=
  line_field ..

lemma write_mk (id : Eui64) (key : String) : write ⟨id,key⟩ = "- local_id: ".toList ++ written id.toHex.toList ++
    "\n  private_key: ".toList ++ written key.toList ++ ['\n'] := rfl

lemma text_entry (p : Eui64 × Key) : (entry p).text = (ofPair p).write := by
  have hfirst : "- local_id: ".toList = ['-',' '] ++ ("local_id".toList ++ [':',' ']) := by decide
  have hsecond : "\n  private_key: ".toList = ['\n'] ++ ([' ',' '] ++ ("private_key".toList ++ [':',' '])) := by decide
  have htext (f g : Yaml.Field) : (Yaml.Entry.mk f [g]).text =
      ['-',' '] ++ f.line ++ ['\n'] ++ ([' ',' '] ++ g.line ++ ['\n']) := by
    simp [Yaml.Entry.text,Yaml.Field.lines]
  rw [ofPair,write_mk,entry,htext,line_localIdField,line_privateKeyField,hfirst,hsecond]
  simp only [List.append_assoc]

end Record

namespace Yaml.Document

variable {σ : Type} {d : Document} {F : Shape.Fields σ} {path : String} {n jumps : Nat} {s : σ}
  {rest : List (Event Nat)}

lemma text_scalar (tag : Option (List Char)) (t : List Char) (plain : Bool) :
    d.text path ⟨.scalar tag t plain :: rest,jumps⟩ = .ok (String.ofList t,⟨rest,jumps⟩) := rfl

lemma fields_end : d.fields F path (n+1) s ⟨.mappingEnd :: rest,jumps⟩ = .ok (s,⟨rest,jumps⟩) := rfl

/-- A field is refused, taken in or passed over. -/
lemma fields_field (f : Field) : d.fields F path (n+1) s ⟨f.events ++ rest,jumps⟩ =
    match F.seen? s (String.ofList f.name) with
    | some true => .error ⟨path,.duplicateField (String.ofList f.name)⟩
    | some false => match F.put s (String.ofList f.name) (String.ofList f.text) with
      | .ok s => d.fields F path n s ⟨rest,jumps⟩
      | .error reason => .error ⟨path,.refused reason⟩
    | none => d.fields F path n s ⟨rest,jumps⟩ := rfl

/-- A field that is one of the record's, and is read for the first time. -/
lemma fields_put (f : Field) (hseen : F.seen? s (String.ofList f.name) = some false) {s' : σ}
    (hput : F.put s (String.ofList f.name) (String.ofList f.text) = .ok s') :
    d.fields F path (n+1) s ⟨f.events ++ rest,jumps⟩ = d.fields F path n s' ⟨rest,jumps⟩ := by
  rw [fields_field,hseen,hput]

lemma items_end {α : Type} {item : String → Walk → Read (α × Walk)} {i : Nat} :
    items item (n+1) i ⟨.sequenceEnd :: rest,jumps⟩ = .ok ([],⟨rest,jumps⟩) := rfl

lemma rootList_eq {α : Type} {item : String → Walk → Read (α × Walk)} (hd : d.events = .sequenceStart :: rest) :
    d.rootList item = (items item (rest.length+1) 0 ⟨rest,0⟩).map Prod.fst := by
  simp only [rootList,hd]
  cases items item (rest.length+1) 0 ⟨rest,0⟩ <;> rfl

lemma rootList_sequence {α : Type} {item : String → Walk → Read (α × Walk)} {w : Walk} {l : List α}
    (hd : d.events = .sequenceStart :: rest) (hl : items item (rest.length+1) 0 ⟨rest,0⟩ = .ok (l,w)) :
    d.rootList item = .ok l := by
  rw [rootList_eq hd,hl]
  rfl

lemma accept_whole {α : Type} (hcomplete : d.complete = true) (halone : d.alone = true) (result : Read α) :
    d.accept result = result := by
  cases result with
  | error fault => rfl
  | ok a => simp [accept,hcomplete,halone,bind,Except.bind]

end Yaml.Document

namespace Record

/-- An entry is read as a record, wherever it stands. -/
def Reads (e : Yaml.Entry) (r : Record) : Prop :=
  ∀ (d : Yaml.Document) (path : String) (rest : List (Yaml.Event Nat)) (jumps : Nat),
    read d path ⟨e.events ++ rest,jumps⟩ = .ok (r,⟨rest,jumps⟩)

/-- An entry of two fields that are taken in one after the other. -/
lemma reads_of_put {f g : Yaml.Field} {q q' : Partial} {r : Record}
    (hf : fields.seen? fields.empty (String.ofList f.name) = some false)
    (hq : fields.put fields.empty (String.ofList f.name) (String.ofList f.text) = .ok q)
    (hg : fields.seen? q (String.ofList g.name) = some false)
    (hq' : fields.put q (String.ofList g.name) (String.ofList g.text) = .ok q')
    (hr : ∀ path, q'.complete path = .ok r) : Reads ⟨f,[g]⟩ r := by
  intro d path rest jumps
  have hevents : (Yaml.Entry.mk f [g]).events ++ rest =
      .mappingStart :: (f.events ++ (g.events ++ (.mappingEnd :: rest))) := by
    simp only [Yaml.Entry.events,List.flatMap_cons,List.flatMap_nil,List.append_assoc,List.cons_append,
      List.nil_append]
  obtain ⟨n,hn⟩ : ∃ n, (f.events ++ (g.events ++ (Yaml.Event.mappingEnd :: rest))).length+1 = n+1+1+1 :=
    ⟨rest.length+3,by simp [Yaml.Field.events]⟩
  have hrecord : d.record fields path ⟨(Yaml.Entry.mk f [g]).events ++ rest,jumps⟩ = .ok (q',⟨rest,jumps⟩) := by
    rw [hevents]
    change d.fields fields path _ fields.empty _ = _
    rw [hn,Yaml.Document.fields_put f hf hq,Yaml.Document.fields_put g hg hq',Yaml.Document.fields_end]
  simp only [read,hrecord,bind,Except.bind,hr path]

section

variable {f g : Yaml.Field} {id : Eui64}

lemma put_localId (hf : String.ofList f.name = "local_id") (hid : Id.parse .eui64 (String.ofList f.text) = .ok id)
    (q : Partial) : fields.put q (String.ofList f.name) (String.ofList f.text) = .ok { q with localId := some id } := by
  simp only [fields,hf,if_true,hid]

lemma put_privateKey (hg : String.ofList g.name = "private_key") (q : Partial) :
    fields.put q (String.ofList g.name) (String.ofList g.text) =
      .ok { q with privateKey := some (String.ofList g.text) } := by
  have hne : "private_key" ≠ "local_id" := by decide
  simp only [fields,hg,if_neg hne]

lemma reads_of_fields (hf : f.name = "local_id".toList) (hid : Id.parse .eui64 (String.ofList f.text) = .ok id)
    (hg : g.name = "private_key".toList) : Reads ⟨f,[g]⟩ ⟨id,String.ofList g.text⟩ := by
  have hf' : String.ofList f.name = "local_id" := by rw [hf,String.ofList_toList]
  have hg' : String.ofList g.name = "private_key" := by rw [hg,String.ofList_toList]
  exact reads_of_put (by rw [hf']; rfl) (put_localId hf' hid _) (by rw [hg']; rfl) (put_privateKey hg' _) fun _ => rfl

/-- The key may stand before the identifier. -/
lemma reads_of_fields_swapped (hf : f.name = "local_id".toList)
    (hid : Id.parse .eui64 (String.ofList f.text) = .ok id) (hg : g.name = "private_key".toList) :
    Reads ⟨g,[f]⟩ ⟨id,String.ofList g.text⟩ := by
  have hf' : String.ofList f.name = "local_id" := by rw [hf,String.ofList_toList]
  have hg' : String.ofList g.name = "private_key" := by rw [hg,String.ofList_toList]
  exact reads_of_put (by rw [hg']; rfl) (put_privateKey hg' _) (by rw [hf']; rfl) (put_localId hf' hid _) fun _ => rfl

end

lemma reads_entry (p : Eui64 × Key) : Reads (entry p) (ofPair p) := by
  have hid : Id.parse .eui64 (String.ofList (localIdField p.1).text) = .ok p.1 := by
    rw [localIdField,text_field,String.ofList_toList,Id.parse_toHex]
  have hkey : String.ofList (privateKeyField p.2).text = p.2.toHex := by
    rw [privateKeyField,text_field,String.ofList_toList]
  have h := reads_of_fields (f := localIdField p.1) (g := privateKeyField p.2) (name_field ..) hid (name_field ..)
  rw [hkey] at h
  exact h

lemma forall₂_reads (ps : List (Eui64 × Key)) : List.Forall₂ Reads (ps.map entry) (ps.map ofPair) := by
  induction ps with
  | nil => exact .nil
  | cons p ps ih => exact .cons (reads_entry p) ih

lemma items_of_reads (d : Yaml.Document) {es : List Yaml.Entry} {rs : List Record} (h : List.Forall₂ Reads es rs)
    {n : Nat} (hn : es.length < n) (i : Nat) (rest : List (Yaml.Event Nat)) (jumps : Nat) :
    Yaml.Document.items (read d) n i ⟨es.flatMap Yaml.Entry.events ++ .sequenceEnd :: rest,jumps⟩ =
      .ok (rs,⟨rest,jumps⟩) := by
  induction h generalizing n i with
  | nil =>
    obtain ⟨n,rfl⟩ := Nat.exists_eq_succ_of_ne_zero (Nat.ne_of_gt hn)
    rfl
  | @cons e r es rs hr _ ih =>
    obtain ⟨n,rfl⟩ := Nat.exists_eq_succ_of_ne_zero (Nat.ne_of_gt (Nat.zero_lt_of_lt hn))
    have hread := hr d (Yaml.Document.itemPath i) (es.flatMap Yaml.Entry.events ++ .sequenceEnd :: rest) jumps
    have hitems := ih (n := n) (Nat.lt_of_succ_lt_succ hn) (i+1)
    rw [List.flatMap_cons,List.append_assoc,Yaml.Document.items_succ fun r h => by cases h]
    simp only [hread,hitems,bind,Except.bind]

/-- A text that stands for a list of entries is read by one walk through the list. -/
lemma readAll_list {bytes : Bytes} {es : List Yaml.Entry}
    (h : Yaml.Document.ofSource (.ofBytes bytes) = ⟨Yaml.Entry.list es,[],true,true⟩) :
    ∃ (d : Yaml.Document) (n : Nat), es.length < n ∧ readAll bytes =
      (Yaml.Document.items (read d) n 0 ⟨es.flatMap Yaml.Entry.events ++ [.sequenceEnd],0⟩).map Prod.fst := by
  simp only [readAll,h]
  generalize hd : Yaml.Document.mk (Yaml.Entry.list es) [] true true = d
  have hlength := Yaml.Entry.length_le_events Nat es
  refine ⟨d,(es.flatMap Yaml.Entry.events ++ [.sequenceEnd] : List (Yaml.Event Nat)).length+1,
    by rw [List.length_append]; omega,?_⟩
  rw [Yaml.Document.accept_whole (by rw [← hd]) (by rw [← hd])]
  exact Yaml.Document.rootList_eq (by rw [← hd]; rfl)

/-- A list of entries is read as their records. -/
lemma readAll_of_reads {bytes : Bytes} {es : List Yaml.Entry} {rs : List Record} (h : List.Forall₂ Reads es rs)
    (hdocument : Yaml.Document.ofSource (.ofBytes bytes) = ⟨Yaml.Entry.list es,[],true,true⟩) :
    readAll bytes = .ok rs := by
  obtain ⟨d,n,hn,hread⟩ := readAll_list hdocument
  rw [hread,items_of_reads d h hn 0 [] 0]
  rfl

lemma ofSource_entries {es : List Yaml.Entry} (hne : es ≠ []) (hlines : Yaml.IsLines (es.flatMap Yaml.Entry.text)) :
    Yaml.Document.ofSource (.ofBytes (Text.utf8 (es.flatMap Yaml.Entry.text))) =
      ⟨Yaml.Entry.list es,[],true,true⟩ := by
  rw [Yaml.Source.ofBytes_lines hlines,Yaml.Document.ofSource_entries hne]

lemma isLines_write (id : Eui64) {key : String} (hkey : ∀ c ∈ key.toList, Yaml.isPlainWord c) :
    Yaml.IsLines (write ⟨id,key⟩) := by
  have hwritten {t : List Char} (ht : ∀ c ∈ t, Yaml.isPlainWord c) : ∀ c ∈ written t, Yaml.isPrintable c := by
    intro c hc
    rw [written] at hc
    split_ifs at hc
    · simp only [List.cons_append,List.mem_cons,List.mem_append,List.not_mem_nil,or_false] at hc
      rcases hc with rfl | hc | rfl
      · decide
      · exact Yaml.isPrintable_of_isPlainWord (ht c hc)
      · decide
    · exact Yaml.isPrintable_of_isPlainWord (ht c hc)
  have hfirst : Yaml.IsLines "- local_id: ".toList := Yaml.isLines_of_all (by decide)
  have hsecond : Yaml.IsLines "\n  private_key: ".toList := Yaml.isLines_of_all (by decide)
  intro c hc
  rw [write_mk] at hc
  simp only [List.mem_append,List.mem_singleton] at hc
  rcases hc with (((hc | hc) | hc) | hc) | hc
  · exact hfirst c hc
  · exact Or.inl (hwritten Hex.isPlainWord_of_mem_encode c hc)
  · exact hsecond c hc
  · exact Or.inl (hwritten hkey c hc)
  · exact Or.inr hc

/-- What stores write for gateways, one after the other, is the text of their entries. -/
lemma flatMap_encode (ps : List (Eui64 × Key)) :
    ps.flatMap (fun p => encode p.1 p.2) = Text.utf8 ((ps.map entry).flatMap Yaml.Entry.text) := by
  induction ps with
  | nil => rfl
  | cons p ps ih =>
    rw [List.flatMap_cons,ih,List.map_cons,List.flatMap_cons,Text.utf8_append,text_entry,encode,ofPair]

lemma isLines_entries (ps : List (Eui64 × Key)) : Yaml.IsLines ((ps.map entry).flatMap Yaml.Entry.text) := by
  intro c hc
  simp only [List.mem_flatMap,List.mem_map] at hc
  obtain ⟨_,⟨p,-,rfl⟩,hc⟩ := hc
  rw [text_entry,ofPair] at hc
  exact isLines_write p.1 Hex.isPlainWord_of_mem_encode c hc

variable {pub : PublicKeyMap}

/-- Records of which the keys are even have gateways. -/
lemma gateways_of_keys {rs : List Record} {ps : List (Eui64 × Key)}
    (hrs : List.Forall₂ (fun r p => r.localId = p.1 ∧ Key.ofHex r.privateKey = .ok p.2) rs ps)
    (h : ∀ p ∈ ps, (pub p.2).IsEven) (i : Nat) :
    ∃ gs, gateways pub i rs = .ok gs ∧ gs.map .ok = ps.map fun p => Gateway.new pub p.1 p.2 := by
  induction hrs generalizing i with
  | nil => exact ⟨[],rfl,rfl⟩
  | @cons r p rs ps hr _ ih =>
    obtain ⟨gs,hgs,hnew⟩ := ih (fun q hq => h q (List.mem_cons_of_mem p hq)) (i+1)
    obtain ⟨g,hp⟩ : ∃ g, Gateway.new pub p.1 p.2 = .ok g := ⟨_,Gateway.new_of_even (h p List.mem_cons_self)⟩
    have hfirst : r.gateway pub i = .ok g := by
      simp only [gateway,hr.1,hr.2,hp]
    refine ⟨g :: gs,?_,?_⟩
    · simp only [gateways,hfirst,hgs,bind,Except.bind]
    · rw [List.map_cons,List.map_cons,hnew,hp]

lemma gateways_pairs {ps : List (Eui64 × Key)} (h : ∀ p ∈ ps, (pub p.2).IsEven) (i : Nat) :
    ∃ gs, gateways pub i (ps.map ofPair) = .ok gs ∧ gs.map .ok = ps.map fun p => Gateway.new pub p.1 p.2 := by
  refine gateways_of_keys (List.forall₂_map_left_iff.mpr ?_) h i
  exact List.forall₂_same.mpr fun p _ => ⟨rfl,Key.ofHex_toHex p.2⟩

end Record

namespace Record

/-- A text of entries ends its last line. -/
lemma lineEnd_entries (es : List Yaml.Entry) : lineEnd (Text.utf8 (es.flatMap Yaml.Entry.text)) = [] := by
  have hentry (e : Yaml.Entry) : ∃ t, e.text = t ++ ['\n'] := by
    rcases List.eq_nil_or_concat e.others with hnil | ⟨fs,f,hconcat⟩
    · exact ⟨['-',' '] ++ e.first.line,by simp [Yaml.Entry.text,Yaml.Field.lines,hnil]⟩
    · exact ⟨['-',' '] ++ e.first.line ++ ['\n'] ++ Yaml.Field.lines fs ++ ([' ',' '] ++ f.line),
        by simp [Yaml.Entry.text,Yaml.Field.lines,hconcat]⟩
  rcases List.eq_nil_or_concat es with rfl | ⟨es,e,rfl⟩
  · rfl
  · obtain ⟨t,ht⟩ := hentry e
    have hlast : ((es.concat e).flatMap Yaml.Entry.text).getLast? = some '\n' := by
      rw [List.concat_eq_append,List.flatMap_append,List.flatMap_singleton,ht,← List.append_assoc,
        List.getLast?_concat]
    rw [lineEnd,(Yaml.Source.getLast?_utf8_eq_lf_iff _).mpr hlast]
    simp

lemma lineEnd_encodings (ps : List (Eui64 × Key)) : lineEnd (ps.flatMap fun p => encode p.1 p.2) = [] := by
  rw [flatMap_encode,lineEnd_entries]

lemma lineEnd_encode (id : Eui64) (key : Key) : lineEnd (encode id key) = [] := by
  simpa using lineEnd_encodings [(id,key)]

end Record

namespace Gateway

variable {pub : PublicKeyMap} {bytes : Bytes}

lemma decode_of_readAll (h : bytes.all Text.isBlankByte = false) {rs : List Record}
    (hread : Record.readAll bytes = .ok rs) :
    decode pub bytes = Record.gateways pub 0 rs := by
  rw [decode,h,if_neg Bool.false_ne_true,hread]

lemma decode_of_fault (h : bytes.all Text.isBlankByte = false) {fault : Shape.Fault}
    (hread : Record.readAll bytes = .error fault) : decode pub bytes = .error (.decode (.known (.records fault))) := by
  rw [decode,h,if_neg Bool.false_ne_true,hread]

lemma not_blank_of_entries {es : List Yaml.Entry} (hne : es ≠ []) :
    (Text.utf8 (es.flatMap Yaml.Entry.text)).all Text.isBlankByte = false := by
  obtain ⟨e,es,rfl⟩ := List.exists_cons_of_ne_nil hne
  have hhead : Text.utf8 ((e :: es).flatMap Yaml.Entry.text) =
      0x2d :: (Text.utf8 ((e :: es).flatMap Yaml.Entry.text)).tail := rfl
  rw [hhead]
  rfl

/-- The gateways of a text of entries are those of their records. -/
lemma decode_of_reads {es : List Yaml.Entry} {rs : List Record} (h : List.Forall₂ Record.Reads es rs)
    (hlines : Yaml.IsLines (es.flatMap Yaml.Entry.text)) :
    decode pub (Text.utf8 (es.flatMap Yaml.Entry.text)) = Record.gateways pub 0 rs := by
  cases h with
  | nil => rfl
  | @cons e r es rs hr hrs =>
    have hne := List.cons_ne_nil e es
    exact decode_of_readAll (not_blank_of_entries hne)
      (Record.readAll_of_reads (.cons hr hrs) (Record.ofSource_entries hne hlines))

/-- What stores wrote for any number of gateways is read back. -/
lemma decode_encodings {ps : List (Eui64 × Key)} (h : ∀ p ∈ ps, (pub p.2).IsEven) :
    ∃ gs, decode pub (ps.flatMap fun p => Record.encode p.1 p.2) = .ok gs ∧
      gs.map .ok = ps.map fun p => new pub p.1 p.2 := by
  obtain ⟨gs,hgs,hnew⟩ := Record.gateways_pairs h 0
  refine ⟨gs,?_,hnew⟩
  rw [Record.flatMap_encode,decode_of_reads (Record.forall₂_reads ps) (Record.isLines_entries ps),hgs]

/-- What a store wrote for a gateway is read back. -/
lemma decode_encode (id : Eui64) {key : Key} (h : (pub key).IsEven) :
    ∃ g, new pub id key = .ok g ∧ decode pub (Record.encode id key) = .ok [g] := by
  have heven : ∀ p ∈ [(id,key)], (pub p.2).IsEven := by simpa using h
  obtain ⟨gs,hgs,hnew⟩ := decode_encodings heven
  rw [List.flatMap_singleton] at hgs
  cases gs with
  | nil => cases hnew
  | cons g gs =>
    obtain ⟨hg,hnil⟩ := List.cons.inj hnew
    rw [List.map_eq_nil_iff.mp hnil] at hgs
    exact ⟨g,hg.symm,hgs⟩

lemma pairs_of_new {ps : List (Eui64 × Key)} {gs : List Gateway}
    (h : gs.map .ok = ps.map fun p => new pub p.1 p.2) : gs.map (fun g => (g.localId,g.key)) = ps := by
  induction gs generalizing ps with
  | nil =>
    cases ps with
    | nil => rfl
    | cons p ps => cases h
  | cons g gs ih =>
    cases ps with
    | nil => cases h
    | cons p ps =>
      obtain ⟨hg,hgs⟩ := List.cons.inj h
      obtain ⟨hid,hkey⟩ := fields_of_new hg.symm
      rw [List.map_cons,ih hgs,hid,hkey]

/-- The written form of gateways joins by concatenation. For any number of identifiers, repeated or not, and of keys
that are even, what one addition after the other puts into a file is the concatenation of what is written for
each of the gateways alone, and it is read as exactly these gateways, in their order. -/
theorem decode_concatenation {ps : List (Eui64 × Key)} (h : ∀ p ∈ ps, (pub p.2).IsEven) :
    ∃ gs : List Gateway, gs.map .ok = (ps.map fun p => new pub p.1 p.2) ∧
      gs.map (fun g => (g.localId,g.key)) = ps ∧
      gs.foldl (fun old g => old ++ Store.tail g old) [] = gs.flatMap encode ∧
      decode pub (gs.flatMap encode) = .ok gs := by
  obtain ⟨gs,hgs,hnew⟩ := decode_encodings h
  have hpairs := pairs_of_new hnew
  have hencode (gs : List Gateway) : gs.flatMap encode =
      (gs.map fun g => (g.localId,g.key)).flatMap fun p => Record.encode p.1 p.2 := by
    rw [List.flatMap_map]
    rfl
  have hfold (done gs : List Gateway) : gs.foldl (fun old g => old ++ Store.tail g old) (done.flatMap encode) =
      (done ++ gs).flatMap encode := by
    induction gs generalizing done with
    | nil => rw [List.foldl_nil,List.append_nil]
    | cons g gs ih =>
      have htail : Store.tail g (done.flatMap encode) = encode g := by
        rw [Store.tail_eq,hencode,Record.lineEnd_encodings,List.nil_append]
      have hdone : done.flatMap encode ++ encode g = (done ++ [g]).flatMap encode := by simp
      rw [List.foldl_cons,htail,hdone,ih,List.append_assoc,List.singleton_append]
  exact ⟨gs,hnew,hpairs,hfold [] gs,by rw [hencode,hpairs,hgs]⟩

/-- The same identifier may be written twice. -/
theorem decode_concatenation_repeated :
    let ps := [(Id.zero .eui64,Key.one),(Id.zero .eui64,Key.one)]
    (∀ p ∈ ps, (Secp256k1.publicKey p.2).IsEven) ∧
    ∃ gs : List Gateway, gs.map .ok = (ps.map fun p => new Secp256k1.publicKey p.1 p.2) ∧
      gs.map (fun g => (g.localId,g.key)) = ps ∧
      gs.foldl (fun old g => old ++ Store.tail g old) [] = gs.flatMap encode ∧
      decode Secp256k1.publicKey (gs.flatMap encode) = .ok gs := by
  have h : ∀ p ∈ [(Id.zero .eui64,Key.one),(Id.zero .eui64,Key.one)], (Secp256k1.publicKey p.2).IsEven := by
    simpa using Secp256k1.isEven_publicKey_one
  exact ⟨h,decode_concatenation h⟩

end Gateway
end Keyring
