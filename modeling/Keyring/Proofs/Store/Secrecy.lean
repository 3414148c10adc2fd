import Keyring.Proofs.Records
import Keyring.Proofs.Store.Memory

/-! What failures and log lines tell about private keys: whether a text is a key, and whether its public key is even.
Two files that agree in this for every record, and in the identifiers, cannot be told apart by them. -/
namespace Keyring

/-- Two runs that fail in the same way, or both succeed with results that are related. -/
inductive Together {ε α β : Type} (R : α → β → Prop) : Except ε α → Except ε β → Prop
  | failed (e : ε) : Together R (.error e) (.error e)
  | done {a : α} {b : β} : R a b → Together R (.ok a) (.ok b)

lemma Together.bind {ε α β α' β' : Type} {R : α → β → Prop} {S : α' → β' → Prop} {a : Except ε α} {b : Except ε β}
    {f : α → Except ε α'} {g : β → Except ε β'} (h : Together R a b) (hf : ∀ x y, R x y → Together S (f x) (g y)) :
    Together S (a.bind f) (b.bind g) := by
  cases h with
  | failed e => exact .failed e
  | done hr => exact hf _ _ hr

variable {pub : PublicKeyMap}

namespace Key

variable (pub) in
/-- Two texts that fail to be keys for the same reason, or are keys with public keys of the same parity. -/
def Alike (t u : String) : Prop := Together (fun k k' => (pub k).lead = (pub k').lead) (ofHex t) (ofHex u)

lemma alike_toHex {k k' : Key} (h : (pub k).lead = (pub k').lead) : Alike pub k.toHex k'.toHex := by
  rw [Alike,ofHex_toHex,ofHex_toHex]
  exact .done h

end Key

namespace Gateway

lemma together_new {k k' : Key} (h : (pub k).lead = (pub k').lead) (id : Eui64) :
    Together (fun g g' => g.localId = g'.localId) (new pub id k) (new pub id k') := by
  by_cases heven : (pub k).IsEven
  · have heven' : (pub k').IsEven := h.symm.trans heven
    rw [new_of_even heven,new_of_even heven']
    exact .done rfl
  · have hodd' : ¬(pub k').IsEven := fun heven' => heven (h.trans heven')
    rw [new_of_odd heven,new_of_odd hodd',h]
    exact .failed _

end Gateway

namespace Record

variable (pub) in
structure Alike (r r' : Record) : Prop where
  localId_eq : r.localId = r'.localId
  key : Key.Alike pub r.privateKey r'.privateKey

lemma Alike.gateway {r r' : Record} (h : Alike pub r r') (i : Nat) :
    Together (fun g g' => g.localId = g'.localId) (r.gateway pub i) (r'.gateway pub i) := by
  have hkey := h.key
  rw [Key.Alike] at hkey
  rw [Record.gateway,Record.gateway,h.localId_eq]
  generalize Key.ofHex r.privateKey = found at hkey
  generalize Key.ofHex r'.privateKey = found' at hkey
  cases hkey with
  | failed fault => exact .failed _
  | @done k k' hlead =>
    have hnew := Gateway.together_new hlead r'.localId
    simp only
    generalize Gateway.new pub r'.localId k = new at hnew
    generalize Gateway.new pub r'.localId k' = new' at hnew
    cases hnew with
    | failed fault => exact .failed _
    | done hid => exact .done hid

/-- Two lists of gateways with the same identifiers. -/
def SameIds (gs gs' : List Gateway) : Prop := gs.map (·.localId) = gs'.map (·.localId)

lemma together_gateways {rs rs' : List Record} (h : List.Forall₂ (Alike pub) rs rs') (i : Nat) :
    Together SameIds (gateways pub i rs) (gateways pub i rs') := by
  induction h generalizing i with
  | nil => exact .done rfl
  | cons hr _ ih =>
    refine (hr.gateway i).bind fun g g' hid => (ih (i+1)).bind fun gs gs' hids => .done ?_
    rw [SameIds,List.map_cons,List.map_cons,hid,hids]

/-- Bytes that are the text of entries for the records. -/
def Spell (bytes : Bytes) (rs : List Record) : Prop :=
  ∃ es, List.Forall₂ Reads es rs ∧ Yaml.IsLines (es.flatMap Yaml.Entry.text) ∧
    bytes = Text.utf8 (es.flatMap Yaml.Entry.text)

variable {bytes bytes' : Bytes} {rs rs' : List Record}

lemma Spell.decode (h : Spell bytes rs) : Gateway.decode pub bytes = gateways pub 0 rs := by
  obtain ⟨es,hreads,hlines,rfl⟩ := h
  exact Gateway.decode_of_reads hreads hlines

/-- The file behind the addition of a gateway. -/
lemma Spell.encode (h : Spell bytes rs) (id : Eui64) (key : Key) :
    Spell (bytes ++ lineEnd bytes ++ Record.encode id key) (rs ++ [ofPair (id,key)]) := by
  obtain ⟨es,hreads,hlines,rfl⟩ := h
  have hentry := flatMap_encode [(id,key)]
  have hlines' := isLines_entries [(id,key)]
  simp only [List.map_singleton,List.flatMap_singleton] at hentry hlines'
  refine ⟨es ++ [entry (id,key)],List.rel_append hreads (.cons (reads_entry _) .nil),?_,?_⟩
  · rw [List.flatMap_append,List.flatMap_singleton]
    exact fun c hc => (List.mem_append.mp hc).elim (hlines c) (hlines' c)
  · rw [lineEnd_entries,List.append_nil,List.flatMap_append,List.flatMap_singleton,Text.utf8_append,hentry]

lemma Spell.together (h : Spell bytes rs) (h' : Spell bytes' rs') (halike : List.Forall₂ (Alike pub) rs rs') :
    Together SameIds (Gateway.decode pub bytes) (Gateway.decode pub bytes') := by
  rw [h.decode,h'.decode]
  exact together_gateways halike 0

/-- A record as it stands in a file with both texts in quotes. -/
def quoted (r : String × String) : List Char :=
  "- local_id: '".toList ++ r.1.toList ++ "'\n  private_key: '".toList ++ r.2.toList ++ "'\n".toList

lemma quoted_mk (id key : String) : quoted (id,key) = "- local_id: '".toList ++ id.toList ++
    "'\n  private_key: '".toList ++ key.toList ++ "'\n".toList := rfl

def IsDigits (t : String) : Prop := ∀ c ∈ t.toList, (Hex.charValue? c).isSome

instance (t : String) : Decidable (IsDigits t) :=
  decidable_of_iff (t.toList.all fun c => (Hex.charValue? c).isSome) List.all_eq_true

variable (pub) in
/-- The texts of two records that have the same identifier, and keys that are told apart by their digits only. -/
structure TextsAlike (r r' : String × String) : Prop where
  localId : ∃ id, Id.parse .eui64 r.1 = .ok id ∧ Id.parse .eui64 r'.1 = .ok id
  digits : IsDigits r.2 ∧ IsDigits r'.2
  length : r.2.length = r'.2.length
  range : r.2.length = 64 → (Key.IsInRange r.2 ↔ Key.IsInRange r'.2)
  lead : ∀ k k', Key.ofHex r.2 = .ok k → Key.ofHex r'.2 = .ok k' → (pub k).lead = (pub k').lead

lemma isLines_quoted {r : String × String} (hid : ∀ c ∈ r.1.toList, Yaml.isPlainWord c)
    (hkey : ∀ c ∈ r.2.toList, Yaml.isPlainWord c) : Yaml.IsLines (quoted r) := by
  have hfirst : Yaml.IsLines "- local_id: '".toList := Yaml.isLines_of_all (by decide)
  have hsecond : Yaml.IsLines "'\n  private_key: '".toList := Yaml.isLines_of_all (by decide)
  have hlast : Yaml.IsLines "'\n".toList := Yaml.isLines_of_all (by decide)
  intro c hc
  obtain ⟨id,key⟩ := r
  rw [quoted_mk] at hc
  simp only [List.mem_append] at hc
  rcases hc with (((hc | hc) | hc) | hc) | hc
  · exact hfirst c hc
  · exact .inl (Yaml.isPrintable_of_isPlainWord (hid c hc))
  · exact hsecond c hc
  · exact .inl (Yaml.isPrintable_of_isPlainWord (hkey c hc))
  · exact hlast c hc

/-- Such a record is read. -/
lemma spell_quoted {text key : String} {id : Eui64} (hid : Id.parse .eui64 text = .ok id) (hdigits : IsDigits key)
    (h : Spell bytes rs) : Spell (Text.utf8 (quoted (text,key)) ++ bytes) (⟨id,key⟩ :: rs) := by
  obtain ⟨es,hreads,hlines,rfl⟩ := h
  have hidword := isPlainWord_of_parse hid
  have hkeyword : ∀ c ∈ key.toList, Yaml.isPlainWord c := fun c hc => isPlainWord_of_charValue? (hdigits c hc)
  let f := quotedField (by decide : IsName "local_id".toList) hidword
  let g := quotedField (by decide : IsName "private_key".toList) hkeyword
  have hread : Reads ⟨f,[g]⟩ ⟨id,key⟩ := by
    have hparse : Id.parse .eui64 (String.ofList f.text) = .ok id := by
      rw [show f.text = text.toList from rfl,String.ofList_toList,hid]
    have hread := reads_of_fields (f := f) (g := g) rfl hparse rfl
    rwa [show g.text = key.toList from rfl,String.ofList_toList] at hread
  have htext : (Yaml.Entry.mk f [g]).text = quoted (text,key) := by
    have hfirst : "- local_id: '".toList = ['-',' '] ++ ("local_id".toList ++ [':',' ','\'']) := by decide
    have hsecond : "'\n  private_key: '".toList =
        ['\'','\n',' ',' '] ++ ("private_key".toList ++ [':',' ','\'']) := by decide
    have hlast : "'\n".toList = ['\'','\n'] := by decide
    rw [quoted_mk,hfirst,hsecond,hlast]
    simp [Yaml.Entry.text,Yaml.Field.lines,Yaml.Field.line,f,g,quotedField]
  refine ⟨⟨f,[g]⟩ :: es,.cons hread hreads,?_,?_⟩
  · rw [List.flatMap_cons,htext]
    exact fun c hc => (List.mem_append.mp hc).elim (isLines_quoted hidword hkeyword c) (hlines c)
  · rw [List.flatMap_cons,htext,Text.utf8_append]

/-- The file of such records. -/
def block (rs : List (String × String)) : Bytes := Text.utf8 (rs.flatMap quoted)

lemma TextsAlike.key {r r' : String × String} (h : TextsAlike pub r r') : Key.Alike pub r.2 r'.2 := by
  obtain ⟨hstray,hlength⟩ := Hex.stray?_of_isSome_charValue? h.digits.1
  obtain ⟨hstray',hlength'⟩ := Hex.stray?_of_isSome_charValue? h.digits.2
  have hclass : Key.SameClass r.2 r'.2 := {
    length := by
      rw [Key.textBytes,Key.textBytes,hlength,hlength',String.length_toList,String.length_toList,h.length]
    stray := fun _ => hstray.trans hstray'.symm
    range := fun h64 _ => h.range (by rw [← String.length_toList,← hlength]; exact h64) }
  rw [Key.Alike]
  rcases hclass.ofHex with ⟨fault,hf,hf'⟩ | ⟨k,k',hk,hk'⟩
  · rw [hf,hf']
    exact .failed fault
  · rw [hk,hk']
    exact .done (h.lead k k' hk hk')

lemma exists_spell {rs rs' : List (String × String)} (h : List.Forall₂ (TextsAlike pub) rs rs') :
    ∃ records records', Spell (block rs) records ∧ Spell (block rs') records' ∧
      List.Forall₂ (Alike pub) records records' := by
  induction h with
  | nil =>
    have hnil : Spell [] [] := ⟨[],.nil,by simp [Yaml.IsLines],rfl⟩
    exact ⟨[],[],hnil,hnil,.nil⟩
  | @cons r r' rs rs' hr _ ih =>
    obtain ⟨records,records',hspell,hspell',halike⟩ := ih
    obtain ⟨id,hid,hid'⟩ := hr.localId
    refine ⟨⟨id,r.2⟩ :: records,⟨id,r'.2⟩ :: records',?_,?_,.cons ⟨rfl,hr.key⟩ halike⟩
    · rw [block,List.flatMap_cons,Text.utf8_append]
      exact spell_quoted hid hr.digits.1 hspell
    · rw [block,List.flatMap_cons,Text.utf8_append]
      exact spell_quoted hid' hr.digits.2 hspell'

end Record

namespace Store

variable {fs fs' : FileSystem} {path : String} {st st' : Store}

/-- Opening a store. -/
lemma openAt_together (h : Together Record.SameIds (load pub fs path) (load pub fs' path)) :
    (openAt pub fs path).1 = (openAt pub fs' path).1 ∧
      Together (fun st st' : Store => st.path = path ∧ st'.path = path ∧ Record.SameIds st.gateways st'.gateways)
        (openAt pub fs path).2 (openAt pub fs' path).2 := by
  rw [openAt_eq,openAt_eq]
  generalize hload : load pub fs path = found at h
  generalize hload' : load pub fs' path = found' at h
  cases h with
  | failed e =>
    rw [reload_of_load_error (s := ⟨path,[]⟩) hload,reload_of_load_error (s := ⟨path,[]⟩) hload']
    exact ⟨rfl,.failed e⟩
  | @done gs gs' hids =>
    have hlength : gs.length = gs'.length := by simpa using congrArg List.length hids
    rw [reload_of_load (s := ⟨path,[]⟩) hload,reload_of_load (s := ⟨path,[]⟩) hload',hlength]
    exact ⟨rfl,.done ⟨rfl,rfl,hids⟩⟩

lemma known_iff (h : Record.SameIds st.gateways st'.gateways) (id : Eui64) :
    (∃ g ∈ st.gateways, g.localId = id) ↔ ∃ g ∈ st'.gateways, g.localId = id := by
  rw [← List.mem_map,← List.mem_map,h]

/-- Adding a gateway. -/
lemma add_together {bytes bytes' : Bytes} {rs rs' : List Record} (hread : fs.read st.path = .ok bytes)
    (hread' : fs'.read st'.path = .ok bytes') (hspell : Record.Spell bytes rs) (hspell' : Record.Spell bytes' rs')
    (halike : List.Forall₂ (Record.Alike pub) rs rs') (hpath : st.path = st'.path)
    (hids : Record.SameIds st.gateways st'.gateways) (id : Eui64) {k k' : Key} (hlead : (pub k).lead = (pub k').lead) :
    (st.add pub fs id k).result = (st'.add pub fs' id k').result ∧
      (st.add pub fs id k).log = (st'.add pub fs' id k').log := by
  by_cases hknown : ∃ g ∈ st.gateways, g.localId = id
  · rw [add_of_known hknown,add_of_known ((known_iff hids id).mp hknown)]
    exact ⟨rfl,rfl⟩
  have hfresh : ∀ g ∈ st.gateways, g.localId ≠ id := fun g hg hid => hknown ⟨g,hg,hid⟩
  have hfresh' : ∀ g ∈ st'.gateways, g.localId ≠ id := fun g hg hid => hknown ((known_iff hids id).mpr ⟨g,hg,hid⟩)
  by_cases heven : (pub k).IsEven
  · have heven' : (pub k').IsEven := hlead.symm.trans heven
    obtain ⟨l,f,htarget,hf,rfl⟩ := FileSystem.target_of_read hread
    obtain ⟨l',f',htarget',hf',rfl⟩ := FileSystem.target_of_read hread'
    have hwritten : (writtenFile fs l id k).bytes = f.bytes ++ lineEnd f.bytes ++ Record.encode id k := by
      simp only [writtenFile,hf,Option.elim_some]
    have hwritten' : (writtenFile fs' l' id k').bytes = f'.bytes ++ lineEnd f'.bytes ++ Record.encode id k' := by
      simp only [writtenFile,hf',Option.elim_some]
    have hnew : Record.Alike pub (Record.ofPair (id,k)) (Record.ofPair (id,k')) := ⟨rfl,Key.alike_toHex hlead⟩
    have htogether := (hspell.encode id k).together (hspell'.encode id k') (List.rel_append halike (.cons hnew .nil))
    rw [← hwritten,← hwritten'] at htogether
    generalize hdecode : Gateway.decode pub (writtenFile fs l id k).bytes = found at htogether
    generalize hdecode' : Gateway.decode pub (writtenFile fs' l' id k').bytes = found' at htogether
    cases htogether with
    | failed e =>
      rw [add_of_decode_error hfresh heven htarget hdecode,add_of_decode_error hfresh' heven' htarget' hdecode',hpath]
      exact ⟨rfl,rfl⟩
    | @done gs gs' hsame =>
      have hlength : gs.length = gs'.length := by simpa using congrArg List.length hsame
      rw [add_of_decode hfresh heven htarget hdecode,add_of_decode hfresh' heven' htarget' hdecode',hpath,hlength]
      exact ⟨rfl,rfl⟩
  · have hodd' : ¬(pub k').IsEven := fun heven' => heven (hlead.trans heven')
    rw [add_of_odd hfresh heven,add_of_odd hfresh' hodd',hlead]
    exact ⟨rfl,rfl⟩

/-- Failures and log lines do not tell the digits of keys. Let two files hold the texts of as many records, with the
same identifiers, and with texts for the keys that are digits, of the same number, both a scalar or both none, with
public keys of the same parity if they are keys. Then opening a store on them fails in the same way or succeeds on
both, with the same log lines; and adding a gateway to these stores, with the same identifier and with keys whose
public keys have the same parity, gives the same result and log lines. Of any text, the reason why it is no key
depends only on the number of its bytes, on the first stray byte if that number is even, and on whether the digits
stand for a scalar if there are 64. -/
theorem secrecy :
    (∀ (rs rs' : List (String × String)), List.Forall₂ (Record.TextsAlike pub) rs rs' →
      ∀ (fs fs' : FileSystem) (path : String), fs.read path = .ok (Record.block rs) →
        fs'.read path = .ok (Record.block rs') →
        (openAt pub fs path).1 = (openAt pub fs' path).1 ∧
        ((∃ e, (openAt pub fs path).2 = .error e ∧ (openAt pub fs' path).2 = .error e) ∨
          ∃ st st', (openAt pub fs path).2 = .ok st ∧ (openAt pub fs' path).2 = .ok st' ∧
            ∀ (id : Eui64) (k k' : Key), (pub k).lead = (pub k').lead →
              (st.add pub fs id k).result = (st'.add pub fs' id k').result ∧
              (st.add pub fs id k).log = (st'.add pub fs' id k').log)) ∧
    ∀ t u, Key.SameClass t u → ∀ fault, Key.ofHex t = .error fault ↔ Key.ofHex u = .error fault := by
  constructor
  · intro rs rs' h fs fs' path hread hread'
    obtain ⟨records,records',hspell,hspell',halike⟩ := Record.exists_spell h
    have hload : Together Record.SameIds (load pub fs path) (load pub fs' path) := by
      rw [load,hread,load,hread']
      exact hspell.together hspell' halike
    obtain ⟨hlog,hresult⟩ := openAt_together hload
    refine ⟨hlog,?_⟩
    generalize (openAt pub fs path).2 = result at hresult
    generalize (openAt pub fs' path).2 = result' at hresult
    cases hresult with
    | failed e => exact .inl ⟨e,rfl,rfl⟩
    | @done st st' hst =>
      obtain ⟨hpath,hpath',hids⟩ := hst
      refine .inr ⟨st,st',rfl,rfl,fun id k k' hlead => ?_⟩
      exact add_together (hpath ▸ hread) (hpath' ▸ hread') hspell hspell' halike (hpath.trans hpath'.symm) hids id hlead
  · intro t u h fault
    rcases h.ofHex with ⟨fault',ht,hu⟩ | ⟨k,k',hk,hk'⟩
    · rw [ht,hu]
    · simp [hk,hk']

/-- Files with the keys of the scalars one and three. -/
theorem secrecy_one_three :
    let rs := [("0000000000000000","0000000000000000000000000000000000000000000000000000000000000001")]
    let rs' := [("0000000000000000","0000000000000000000000000000000000000000000000000000000000000003")]
    let path := "gateways.yaml"
    let fs := FileSystem.put {} [path] ⟨Record.block rs,0o600⟩
    let fs' := FileSystem.put {} [path] ⟨Record.block rs',0o600⟩
    let pub := Secp256k1.publicKey
    List.Forall₂ (Record.TextsAlike pub) rs rs' ∧ fs.read path = .ok (Record.block rs) ∧
    fs'.read path = .ok (Record.block rs') ∧
    (openAt pub fs path).1 = (openAt pub fs' path).1 ∧
    ((∃ e, (openAt pub fs path).2 = .error e ∧ (openAt pub fs' path).2 = .error e) ∨
      ∃ st st', (openAt pub fs path).2 = .ok st ∧ (openAt pub fs' path).2 = .ok st' ∧
        ∀ (id : Eui64) (k k' : Key), (pub k).lead = (pub k').lead →
          (st.add pub fs id k).result = (st'.add pub fs' id k').result ∧
          (st.add pub fs id k).log = (st'.add pub fs' id k').log) := by
  intro rs rs' path fs fs' pub
  have htarget : ({} : FileSystem).target path = .ok [path] := by decide
  have hread : fs.read path = .ok (Record.block rs) := FileSystem.read_put htarget _
  have hread' : fs'.read path = .ok (Record.block rs') := FileSystem.read_put htarget _
  have halike : Record.TextsAlike pub
      ("0000000000000000","0000000000000000000000000000000000000000000000000000000000000001")
      ("0000000000000000","0000000000000000000000000000000000000000000000000000000000000003") := {
    localId := ⟨.zero _,by decide +kernel,by decide +kernel⟩
    digits := by decide +kernel
    length := by decide +kernel
    range := fun _ => by decide +kernel
    lead := by
      intro k k' hk hk'
      have hone : Key.ofHex "0000000000000000000000000000000000000000000000000000000000000001" = .ok .one := by
        decide +kernel
      have hthree : Key.ofHex "0000000000000000000000000000000000000000000000000000000000000003" =
          .ok ⟨3,by decide,by decide⟩ := by
        decide +kernel
      cases hone.symm.trans hk
      cases hthree.symm.trans hk'
      decide +kernel }
  exact ⟨.cons halike .nil,hread,hread',secrecy.1 rs rs' (.cons halike .nil) fs fs' path hread hread'⟩

end Store

end Keyring
