import Keyring.Proofs.Encoding
import Keyring.Proofs.Records

/-! What a list of records with any fields is read as: the first fault of a record, else the first fault of a key, else
one gateway for each record. -/
namespace Keyring

namespace Draft

/-- A field of a record: a name of lowercase letters, and a value on the same line. -/
structure Line where
  name : String
  value : String
  name_ne : name.toList ≠ []
  isName_of_mem : ∀ c ∈ name.toList, c.isLower ∨ c = '_'
  length_name : name.toList.length ≤ 1000
  isPrintable_of_mem : ∀ c ∈ value.toList, Yaml.isPrintable c

/-- A record has at least one field. -/
structure Item where
  first : Line
  others : List Line

def Line.text (l : Line) : List Char :=
  l.name.toList ++ [':',' ','\''] ++ Yaml.doubled l.value.toList ++ ['\'','\n']

def Item.text (e : Item) : List Char := ['-',' '] ++ e.first.text ++ e.others.flatMap fun l => [' ',' '] ++ l.text

def Item.lines (e : Item) : List Line := e.first :: e.others

/-- The list of the records, each at the first column. -/
def bytes (es : List Item) : Bytes := Text.utf8 (es.flatMap Item.text)

/-- The value of the first field of a name. -/
def valueOf (name : String) (ls : List Line) : Option String := (ls.find? (·.name = name)).map (·.value)

def required : List String := ["local_id","private_key"]

/-- What is wrong with a field that stands behind the fields `before`. -/
def lineDefect (before : List Line) (l : Line) : Option Shape.Defect :=
  if l.name ∈ required ∧ l.name ∈ before.map (·.name) then some (.duplicateField l.name)
  else if l.name = "local_id" then
    match Id.parse .eui64 l.value with
    | .ok _ => none
    | .error fault => some (.refused (Error.ofIdFault fault).message)
  else none

/-- What is missed at the end of a record. -/
def missing (ls : List Line) : Option Shape.Defect :=
  (required.find? (· ∉ ls.map (·.name))).map .missingField

/-- What is wrong first with a record, of which the fields `before` were read. -/
def defectFrom : (before rest : List Line) → Option Shape.Defect
  | before,[] => missing before
  | before,l :: r => (lineDefect before l).or (defectFrom (before ++ [l]) r)

def Item.defect (e : Item) : Option Shape.Defect := defectFrom [] e.lines

/-- What is wrong with the key of the record at `i`. -/
def Item.keyFault (pub : PublicKeyMap) (i : Nat) (e : Item) : Option Error :=
  match Key.ofHex ((valueOf "private_key" e.lines).getD "") with
  | .error fault => some (.keyDecode i (.known fault))
  | .ok key => if (pub key).IsEven then none else some (.derivation i (.known (.lead (pub key).lead)))

def Item.gateway? (pub : PublicKeyMap) (e : Item) : Option Gateway := do
  let id ← (Id.parse .eui64 ((valueOf "local_id" e.lines).getD "")).toOption
  let key ← (Key.ofHex ((valueOf "private_key" e.lines).getD "")).toOption
  (Gateway.new pub id key).toOption

/-- What is wrong with the first record that has a defect. The first of all is the one at `i`. -/
def firstDefect (i : Nat) (es : List Item) : Option Shape.Fault :=
  (es.zipIdx i).findSome? fun (e,i) => e.defect.map fun defect => ⟨Yaml.Document.itemPath i,defect⟩

def firstKeyFault (pub : PublicKeyMap) (i : Nat) (es : List Item) : Option Error :=
  (es.zipIdx i).findSome? fun (e,i) => e.keyFault pub i

/-- What a list of records is to be read as. No key is looked at before all records are found to be sound. -/
def load (pub : PublicKeyMap) (es : List Item) : Except Error (List Gateway) :=
  match firstDefect 0 es with
  | some fault => .error (.decode (.known (.records fault)))
  | none => match firstKeyFault pub 0 es with
    | some e => .error e
    | none => .ok (es.filterMap (Item.gateway? pub))

/-- A gateway has the identifier and the key of a record, and the identity that the key gives. -/
structure IsOf (pub : PublicKeyMap) (e : Item) (g : Gateway) : Prop where
  localId : (valueOf "local_id" e.lines).map (Id.parse .eui64) = some (.ok g.localId)
  key : (valueOf "private_key" e.lines).map Key.ofHex = some (.ok g.key)
  identity : (pub g.key).identity = .ok ⟨g.networkId,g.thingsIxId⟩

section Text

lemma isPlainWord_of_isLower {c : Char} (h : c.isLower ∨ c = '_') : Yaml.isPlainWord c := by
  rcases h with h | rfl
  · simp [Yaml.isPlainWord,Char.isAlphanum,Char.isAlpha,h]
  · decide

def Line.field (l : Line) : Yaml.Field where
  name := l.name.toList
  spelling := '\'' :: Yaml.doubled l.value.toList ++ ['\'']
  text := l.value.toList
  plain := false
  name_ne := l.name_ne
  isPlainWord_of_mem c hc := isPlainWord_of_isLower (l.isName_of_mem c hc)
  length_name := l.length_name
  spells := Yaml.spells_quoted l.isPrintable_of_mem

/-- The events of the lines of a record. -/
def events (ls : List Line) : List (Yaml.Event Nat) := ls.flatMap fun l => l.field.events

def Item.entry (e : Item) : Yaml.Entry := ⟨e.first.field,e.others.map Line.field⟩

lemma Line.text_eq (l : Line) : l.text = l.field.line ++ ['\n'] := by
  simp [text,field,Yaml.Field.line]

lemma Item.text_eq (e : Item) : e.text = e.entry.text := by
  simp [text,entry,Yaml.Entry.text,Yaml.Field.lines,Line.text_eq,List.flatMap_map]

lemma flatMap_text (es : List Item) : es.flatMap Item.text = (es.map Item.entry).flatMap Yaml.Entry.text := by
  have htext : Item.text = fun e => e.entry.text := funext Item.text_eq
  rw [List.flatMap_map,htext]

lemma isPrintable_of_mem_doubled {t : List Char} (ht : ∀ c ∈ t, Yaml.isPrintable c) {c : Char}
    (hc : c ∈ Yaml.doubled t) : Yaml.isPrintable c := by
  obtain ⟨d,hd,hc⟩ := List.mem_flatMap.mp hc
  have hquote : Yaml.isPrintable '\'' := by decide
  split at hc
  · simp only [List.mem_cons,List.not_mem_nil,or_false,or_self] at hc
    exact hc ▸ hquote
  · rw [List.mem_singleton.mp hc]
    exact ht d hd

lemma Line.isLines_text (l : Line) : Yaml.IsLines l.text := by
  intro c hc
  simp only [text,List.mem_append,List.mem_cons,List.not_mem_nil,or_false] at hc
  rcases hc with ((hc | rfl | rfl | rfl) | hc) | rfl | rfl
  · exact .inl (Yaml.isPrintable_of_isPlainWord (isPlainWord_of_isLower (l.isName_of_mem c hc)))
  · exact .inl (by decide)
  · exact .inl (by decide)
  · exact .inl (by decide)
  · exact .inl (isPrintable_of_mem_doubled l.isPrintable_of_mem hc)
  · exact .inl (by decide)
  · exact .inr rfl

lemma isLines_text (es : List Item) : Yaml.IsLines (es.flatMap Item.text) := by
  intro c hc
  obtain ⟨e,-,hc⟩ := List.mem_flatMap.mp hc
  simp only [Item.text,List.mem_append,List.mem_flatMap] at hc
  rcases hc with (hc | hc) | ⟨l,-,hc | hc⟩
  · exact Yaml.isLines_of_all (t := ['-',' ']) (by decide) c hc
  · exact e.first.isLines_text c hc
  · exact Yaml.isLines_of_all (t := [' ',' ']) (by decide) c hc
  · exact l.isLines_text c hc

end Text

section Fields

variable {before : List Line} {p : Record.Partial} {l : Line} {name : String}

lemma isSome_valueOf (ls : List Line) : (valueOf name ls).isSome = decide (name ∈ ls.map (·.name)) := by
  rw [Bool.eq_iff_iff]
  simp [valueOf,List.find?_isSome]

lemma valueOf_append (ls : List Line) (l : Line) :
    valueOf name (ls ++ [l]) = (valueOf name ls).or (if l.name = name then some l.value else none) := by
  rw [valueOf,List.find?_append,Option.map_or]
  by_cases h : l.name = name <;> simp [valueOf,h]

/-- A record's fields as they stand after the lines `before`. -/
structure Holds (before : List Line) (p : Record.Partial) : Prop where
  localId : (valueOf "local_id" before).map (Id.parse .eui64) = p.localId.map .ok
  privateKey : valueOf "private_key" before = p.privateKey

lemma seen?_of_mem (h : Holds before p) (hname : name ∈ required) :
    Record.fields.seen? p name = some (decide (name ∈ before.map (·.name))) := by
  simp only [required,List.mem_cons,List.not_mem_nil,or_false] at hname
  rcases hname with rfl | rfl
  · have hsome := congrArg Option.isSome h.localId
    rw [Option.isSome_map,Option.isSome_map] at hsome
    rw [← isSome_valueOf,hsome]
    rfl
  · rw [← isSome_valueOf,h.privateKey]
    rfl

lemma seen?_of_notMem (hname : name ∉ required) : Record.fields.seen? p name = none := by
  simp only [required,List.mem_cons,List.not_mem_nil,or_false,not_or] at hname
  simp [Record.fields,hname]

lemma valueOf_fresh (h : l.name ∉ before.map (·.name)) : valueOf l.name (before ++ [l]) = some l.value := by
  have hnone : valueOf l.name before = none := by
    rw [← Option.not_isSome_iff_eq_none,isSome_valueOf]
    simpa using h
  simp [valueOf_append,hnone]

lemma valueOf_of_ne (h : l.name ≠ name) : valueOf name (before ++ [l]) = valueOf name before := by
  simp [valueOf_append,h]

/-- A field that was not met before is taken in, unless it is an identifier that is refused. -/
lemma Holds.put (h : Holds before p) (hname : l.name ∈ required) (hfresh : l.name ∉ before.map (·.name)) :
    (∃ reason, lineDefect before l = some (.refused reason) ∧ Record.fields.put p l.name l.value = .error reason) ∨
    lineDefect before l = none ∧
      ∃ p', Record.fields.put p l.name l.value = .ok p' ∧ Holds (before ++ [l]) p' := by
  have hvalue := valueOf_fresh hfresh
  rw [lineDefect,if_neg fun hl => hfresh hl.2]
  by_cases hid : l.name = "local_id"
  · have hother : l.name ≠ "private_key" := by simp [hid]
    rw [hid] at hvalue
    cases hparse : Id.parse .eui64 l.value with
    | error fault =>
      exact .inl ⟨_,by rw [if_pos hid],by simp [Record.fields,hid,hparse]⟩
    | ok id =>
      refine .inr ⟨by rw [if_pos hid],{ p with localId := some id },by simp [Record.fields,hid,hparse],?_,?_⟩
      · simp [hvalue,hparse]
      · rw [valueOf_of_ne hother,h.privateKey]
  · have hkey : l.name = "private_key" := by simpa [required,hid] using hname
    rw [hkey] at hvalue
    refine .inr ⟨if_neg hid,{ p with privateKey := some l.value },by simp [Record.fields,hkey],?_,hvalue⟩
    rw [valueOf_of_ne hid,h.localId]

lemma Holds.other (h : Holds before p) (hname : l.name ∉ required) : Holds (before ++ [l]) p := by
  simp only [required,List.mem_cons,List.not_mem_nil,or_false,not_or] at hname
  exact ⟨by rw [valueOf_of_ne hname.1,h.localId],by rw [valueOf_of_ne hname.2,h.privateKey]⟩

variable {d : Yaml.Document} {path : String} {n jumps : Nat} {rest : List (Yaml.Event Nat)}

/-- A line has a defect, or is taken in. -/
lemma fields_line (h : Holds before p) (l : Line) :
    (∃ defect, lineDefect before l = some defect ∧
      d.fields Record.fields path (n+1) p ⟨l.field.events ++ rest,jumps⟩ = .error ⟨path,defect⟩) ∨
    lineDefect before l = none ∧ ∃ p', Holds (before ++ [l]) p' ∧
      d.fields Record.fields path (n+1) p ⟨l.field.events ++ rest,jumps⟩ =
        d.fields Record.fields path n p' ⟨rest,jumps⟩ := by
  have hfield : String.ofList l.field.name = l.name := String.ofList_toList
  have htext : String.ofList l.field.text = l.value := String.ofList_toList
  by_cases hname : l.name ∈ required
  · have hseen := seen?_of_mem h hname
    by_cases hbefore : l.name ∈ before.map (·.name)
    · rw [decide_eq_true hbefore] at hseen
      refine .inl ⟨_,if_pos ⟨hname,hbefore⟩,?_⟩
      rw [← hfield] at hseen ⊢
      rw [Yaml.Document.fields_field,hseen]
    · rw [decide_eq_false hbefore] at hseen
      rcases h.put hname hbefore with ⟨reason,hdefect,hput⟩ | ⟨hdefect,p',hput,hp'⟩
      · rw [← hfield] at hseen
        exact .inl ⟨_,hdefect,by rw [Yaml.Document.fields_field,hseen,hfield,htext,hput]⟩
      · rw [← hfield] at hseen hput
        rw [← htext] at hput
        exact .inr ⟨hdefect,p',hp',Yaml.Document.fields_put l.field hseen hput⟩
  · have hid : l.name ≠ "local_id" := fun hid => hname (by simp [required,hid])
    refine .inr ⟨?_,p,h.other hname,?_⟩
    · rw [lineDefect,if_neg fun hl => hname hl.1,if_neg hid]
    · rw [Yaml.Document.fields_field,hfield,seen?_of_notMem hname]

/-- The lines of a record have a defect before its end, or all of them are taken in. -/
lemma fields_lines (h : Holds before p) (ls : List Line) (hn : ls.length < n) :
    (∃ defect, defectFrom before ls = some defect ∧
      d.fields Record.fields path n p ⟨events ls ++ .mappingEnd :: rest,jumps⟩ =
        .error ⟨path,defect⟩) ∨
    defectFrom before ls = missing (before ++ ls) ∧ ∃ p', Holds (before ++ ls) p' ∧
      d.fields Record.fields path n p ⟨events ls ++ .mappingEnd :: rest,jumps⟩ =
        .ok (p',⟨rest,jumps⟩) := by
  induction ls generalizing before p n with
  | nil =>
    obtain ⟨n,rfl⟩ := Nat.exists_eq_succ_of_ne_zero (Nat.ne_of_gt hn)
    exact .inr ⟨by rw [defectFrom,List.append_nil],p,by rwa [List.append_nil],Yaml.Document.fields_end⟩
  | cons l ls ih =>
    obtain ⟨n,rfl⟩ := Nat.exists_eq_succ_of_ne_zero (Nat.ne_of_gt (Nat.zero_lt_of_lt hn))
    rw [events,List.flatMap_cons,List.append_assoc]
    rcases fields_line h l with ⟨defect,hdefect,hfields⟩ | ⟨hdefect,p',hp',hfields⟩
    · exact .inl ⟨defect,by rw [defectFrom,hdefect,Option.some_or],hfields⟩
    · rw [defectFrom,hdefect,Option.none_or,hfields,List.append_cons before l ls]
      exact ih hp' (Nat.lt_of_succ_lt_succ hn)

/-- The identifier and the key of a record without a defect. -/
structure IsRecord (ls : List Line) (r : Record) : Prop where
  localId : (valueOf "local_id" ls).map (Id.parse .eui64) = some (.ok r.localId)
  privateKey : valueOf "private_key" ls = some r.privateKey

/-- The identifier is missed first. -/
lemma missing_eq (ls : List Line) : missing ls =
    if (valueOf "local_id" ls).isNone then some (.missingField "local_id")
    else if (valueOf "private_key" ls).isNone then some (.missingField "private_key") else none := by
  have hnone (name : String) : (valueOf name ls).isNone = decide (name ∉ ls.map (·.name)) := by
    rw [← Option.not_isSome,isSome_valueOf,decide_not]
  rw [missing,required,hnone,hnone]
  by_cases hid : "local_id" ∈ ls.map (·.name)
  · by_cases hkey : "private_key" ∈ ls.map (·.name)
    · simp only [List.find?_cons,hid,hkey]
      rfl
    · simp only [List.find?_cons,hid,hkey]
      rfl
  · simp only [List.find?_cons,hid]
    rfl

lemma Holds.complete (h : Holds before p) (path : String) :
    (∃ defect, missing before = some defect ∧ p.complete path = .error ⟨path,defect⟩) ∨
    missing before = none ∧ ∃ r, IsRecord before r ∧ p.complete path = .ok r := by
  obtain ⟨id,key⟩ := p
  have hid : (valueOf "local_id" before).isNone = id.isNone := by
    simpa using congrArg Option.isNone h.localId
  have hkey : (valueOf "private_key" before).isNone = key.isNone := congrArg Option.isNone h.privateKey
  rw [missing_eq,hid,hkey]
  cases id with
  | none => exact .inl ⟨_,rfl,rfl⟩
  | some id =>
    cases key with
    | none => exact .inl ⟨_,rfl,rfl⟩
    | some key => exact .inr ⟨rfl,⟨id,key⟩,⟨h.localId,h.privateKey⟩,rfl⟩

end Fields

section Reading

variable {n : Nat}

/-- A record has a defect, or is read. -/
lemma read_item (d : Yaml.Document) (path : String) (rest : List (Yaml.Event Nat)) (jumps : Nat) (e : Item) :
    (∃ defect, e.defect = some defect ∧
      Record.read d path ⟨e.entry.events ++ rest,jumps⟩ = .error ⟨path,defect⟩) ∨
    e.defect = none ∧ ∃ r, IsRecord e.lines r ∧
      Record.read d path ⟨e.entry.events ++ rest,jumps⟩ = .ok (r,⟨rest,jumps⟩) := by
  have hevents : e.entry.events ++ rest =
      .mappingStart :: (events e.lines ++ .mappingEnd :: rest) := by
    simp [Item.entry,Yaml.Entry.events,Item.lines,events,List.flatMap_map]
  have hempty : Holds [] Record.fields.empty := ⟨rfl,rfl⟩
  obtain ⟨n,hlength,hread⟩ : ∃ n, e.lines.length < n ∧ Record.read d path ⟨e.entry.events ++ rest,jumps⟩ =
      (d.fields Record.fields path n Record.fields.empty ⟨events e.lines ++ .mappingEnd :: rest,jumps⟩).bind
        fun q => (q.1.complete path).bind fun r => .ok (r,q.2) := by
    refine ⟨(events e.lines ++ Yaml.Event.mappingEnd :: rest).length+1,?_,by rw [hevents]; rfl⟩
    simp [events,Yaml.Field.events]
    omega
  rw [hread,Item.defect]
  rcases fields_lines (d := d) hempty e.lines hlength with ⟨defect,hdefect,hfields⟩ | ⟨hdefect,p,hp,hfields⟩
  · exact .inl ⟨defect,hdefect,by rw [hfields]; rfl⟩
  · rw [hdefect,hfields]
    rcases hp.complete path with ⟨defect,hmissing,hcomplete⟩ | ⟨hmissing,r,hr,hcomplete⟩
    · exact .inl ⟨defect,hmissing,by simp only [Except.bind,hcomplete]⟩
    · exact .inr ⟨hmissing,r,hr,by simp only [Except.bind,hcomplete]⟩

/-- Records are read up to the first that has a defect. -/
lemma items_draft (d : Yaml.Document) (es : List Item) (hn : es.length < n) (i : Nat)
    (rest : List (Yaml.Event Nat)) (jumps : Nat) :
    (∃ fault, firstDefect i es = some fault ∧
      Yaml.Document.items (Record.read d) n i
        ⟨(es.map Item.entry).flatMap Yaml.Entry.events ++ .sequenceEnd :: rest,jumps⟩ = .error fault) ∨
    firstDefect i es = none ∧ ∃ rs, List.Forall₂ (fun e r => IsRecord e.lines r) es rs ∧
      Yaml.Document.items (Record.read d) n i
        ⟨(es.map Item.entry).flatMap Yaml.Entry.events ++ .sequenceEnd :: rest,jumps⟩ = .ok (rs,⟨rest,jumps⟩) := by
  induction es generalizing n i with
  | nil =>
    obtain ⟨n,rfl⟩ := Nat.exists_eq_succ_of_ne_zero (Nat.ne_of_gt hn)
    exact .inr ⟨rfl,[],.nil,Yaml.Document.items_end⟩
  | cons e es ih =>
    obtain ⟨n,rfl⟩ := Nat.exists_eq_succ_of_ne_zero (Nat.ne_of_gt (Nat.zero_lt_of_lt hn))
    rw [List.map_cons,List.flatMap_cons,List.append_assoc,firstDefect,List.zipIdx_cons,List.findSome?_cons,
      Yaml.Document.items_succ fun r h => by cases h]
    rcases read_item d (Yaml.Document.itemPath i)
        ((es.map Item.entry).flatMap Yaml.Entry.events ++ .sequenceEnd :: rest)
        jumps e with ⟨defect,hdefect,hread⟩ | ⟨hdefect,r,hr,hread⟩
    · refine .inl ⟨⟨Yaml.Document.itemPath i,defect⟩,by simp only [hdefect,Option.map_some],?_⟩
      rw [hread]
      rfl
    · simp only [hdefect,Option.map_none,hread,bind,Except.bind]
      rcases ih (Nat.lt_of_succ_lt_succ hn) (i+1) with ⟨fault,hfault,hitems⟩ | ⟨hnone,rs,hrs,hitems⟩
      · exact .inl ⟨fault,hfault,by rw [hitems]⟩
      · exact .inr ⟨hnone,r :: rs,.cons hr hrs,by rw [hitems]⟩

end Reading

/-- A list of records is read as a whole, before any key is looked at. -/
lemma readAll_draft {es : List Item} (hne : es ≠ []) :
    (∃ fault, firstDefect 0 es = some fault ∧ Record.readAll (bytes es) = .error fault) ∨
    firstDefect 0 es = none ∧ ∃ rs, List.Forall₂ (fun e r => IsRecord e.lines r) es rs ∧
      Record.readAll (bytes es) = .ok rs := by
  have hlines : Yaml.IsLines ((es.map Item.entry).flatMap Yaml.Entry.text) := flatMap_text es ▸ isLines_text es
  obtain ⟨d,n,hn,hread⟩ := Record.readAll_list (Record.ofSource_entries (by simpa using hne) hlines)
  rw [List.length_map] at hn
  rw [bytes,flatMap_text,hread]
  rcases items_draft d es hn 0 [] 0 with ⟨fault,hfault,hitems⟩ | ⟨hnone,rs,hrs,hitems⟩
  · exact .inl ⟨fault,hfault,by rw [hitems]; rfl⟩
  · exact .inr ⟨hnone,rs,hrs,by rw [hitems]; rfl⟩

section Keys

variable {e : Item} {r : Record}

/-- A record's key has a fault, or there is a gateway. -/
lemma gateway_item (pub : PublicKeyMap) (h : IsRecord e.lines r) (i : Nat) :
    (∃ err, e.keyFault pub i = some err ∧ r.gateway pub i = .error err) ∨
    e.keyFault pub i = none ∧ ∃ g, r.gateway pub i = .ok g ∧ e.gateway? pub = some g ∧ IsOf pub e g := by
  obtain ⟨v,hv,hid⟩ := Option.map_eq_some_iff.mp h.localId
  rw [Item.keyFault,Item.gateway?,Record.gateway,h.privateKey,hv,Option.getD_some,Option.getD_some,hid]
  cases hkey : Key.ofHex r.privateKey with
  | error fault => exact .inl ⟨_,rfl,rfl⟩
  | ok key =>
    by_cases heven : (pub key).IsEven
    · obtain ⟨g,hnew⟩ : ∃ g, Gateway.new pub r.localId key = .ok g := ⟨_,Gateway.new_of_even heven⟩
      obtain ⟨hlocal,rfl⟩ := Gateway.fields_of_new hnew
      refine .inr ⟨if_pos heven,g,by simp only [hnew],?_,?_,?_,Gateway.identity_of_new hnew⟩
      · change (Gateway.new pub r.localId g.key).toOption = some g
        rw [hnew]
        rfl
      · rw [hv,Option.map_some,hid,hlocal]
      · rw [h.privateKey,Option.map_some,hkey]
    · exact .inl ⟨_,if_neg heven,by simp only [Gateway.new_of_odd heven]⟩

/-- Keys are looked at up to the first that has a fault. -/
lemma gateways_draft (pub : PublicKeyMap) {es : List Item} {rs : List Record}
    (h : List.Forall₂ (fun e r => IsRecord e.lines r) es rs) (i : Nat) :
    (∃ err, firstKeyFault pub i es = some err ∧ Record.gateways pub i rs = .error err) ∨
    firstKeyFault pub i es = none ∧ Record.gateways pub i rs = .ok (es.filterMap (Item.gateway? pub)) ∧
      List.Forall₂ (IsOf pub) es (es.filterMap (Item.gateway? pub)) := by
  induction h generalizing i with
  | nil => exact .inr ⟨rfl,rfl,.nil⟩
  | @cons e r es rs hr _ ih =>
    rw [firstKeyFault,List.zipIdx_cons,List.findSome?_cons,Record.gateways]
    rcases gateway_item pub hr i with ⟨err,herr,hgateway⟩ | ⟨hnone,g,hgateway,hg,hof⟩
    · exact .inl ⟨err,by simp only [herr],by rw [hgateway]; rfl⟩
    · simp only [hnone,hgateway,List.filterMap_cons,hg]
      rcases ih (i+1) with ⟨err,herr,hgateways⟩ | ⟨hnone,hgateways,hof'⟩
      · exact .inl ⟨err,herr,by rw [hgateways]; rfl⟩
      · exact .inr ⟨hnone,by rw [hgateways]; rfl,.cons hof hof'⟩

end Keys

/-- The result of loading is determined by the lines of the records. For any number of records with any fields, the
first defect of a record is reported, wherever its record stands; then the first fault of a key, with the place of the
record; and otherwise there is one gateway for each record, in their order. -/
theorem decode_draft (pub : PublicKeyMap) (es : List Item) :
    Gateway.decode pub (bytes es) = load pub es ∧
      ∀ gs, load pub es = .ok gs → List.Forall₂ (IsOf pub) es gs := by
  have hdecode : (∃ e, load pub es = .error e ∧ Gateway.decode pub (bytes es) = .error e) ∨
      ∃ gs, load pub es = .ok gs ∧ Gateway.decode pub (bytes es) = .ok gs ∧ List.Forall₂ (IsOf pub) es gs := by
    rcases eq_or_ne es [] with rfl | hne
    · exact .inr ⟨[],rfl,rfl,.nil⟩
    have hblank : (bytes es).all Text.isBlankByte = false := by
      rw [bytes,flatMap_text]
      exact Gateway.not_blank_of_entries (by simpa using hne)
    rw [load]
    rcases readAll_draft hne with ⟨fault,hfault,hread⟩ | ⟨hnone,rs,hrs,hread⟩
    · exact .inl ⟨_,by rw [hfault],Gateway.decode_of_fault hblank hread⟩
    · rw [hnone,Gateway.decode_of_readAll hblank hread]
      rcases gateways_draft pub hrs 0 with ⟨err,herr,hgateways⟩ | ⟨hnone,hgateways,hof⟩
      · exact .inl ⟨err,by simp only [herr],hgateways⟩
      · exact .inr ⟨_,by simp only [hnone],hgateways,hof⟩
  rcases hdecode with ⟨e,hload,hdecode⟩ | ⟨gs,hload,hdecode,hof⟩
  · exact ⟨hdecode.trans hload.symm,fun gs hgs => by cases hload.symm.trans hgs⟩
  · refine ⟨hdecode.trans hload.symm,fun gs' hgs => ?_⟩
    cases hload.symm.trans hgs
    exact hof

end Draft
end Keyring
