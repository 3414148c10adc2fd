import Keyring.Config
import Keyring.Proofs.Json.Object
import Keyring.Proofs.Loading
import Keyring.Proofs.Yaml.Mapping

/-! Configurations in JSON and in YAML. The path is the only field that counts: what stands around it may be of any kind
in an object, and other fields may stand on lines of their own around it in a mapping. -/
namespace Keyring.Config

/-- A member of the larger configuration around the store's. -/
def IsForeign (m : Json.Member) : Prop := ∃ name, m.IsNamed name ∧ name ≠ "path"

/-- What an object with the members `ms` is read as. A name that stands for no text is not passed over. -/
structure ReadsMembers (document : String) (ms : List Json.Member) : Prop where
  absent : (∀ m ∈ ms, IsForeign m) → ofJson document = .ok {}
  single : ∀ before m after path, ms = before ++ m :: after → (∀ o ∈ before ++ after, IsForeign o) →
    m.IsNamed "path" → m.IsText path → ofJson document = .ok ⟨path⟩
  twice : ∀ before m between m' after, ms = before ++ m :: (between ++ m' :: after) → m.IsNamed "path" →
    m'.IsNamed "path" → ∃ fault, ofJson document = .error fault
  nameless : ∀ m ∈ ms, (∀ name, ¬m.IsNamed name) → ∃ fault, ofJson document = .error fault

section Members

variable {m : Json.Member} {ms : List Json.Member} {s s' : Option String} {path document : String}

lemma takesAll_foreign (s : Option String) (h : ∀ m ∈ ms, IsForeign m) : Json.TakesAll fields s ms s := by
  induction ms with
  | nil => exact .nil
  | cons m ms ih =>
    obtain ⟨name,hname,hne⟩ := h m List.mem_cons_self
    exact .cons (.other hname (if_neg hne)) (ih fun o ho => h o (List.mem_cons_of_mem m ho))

/-- A path that was read is kept. -/
lemma isSome_of_takes (h : Json.Takes fields s m s') (hs : s.isSome) : s'.isSome := by
  cases h with
  | other _ _ => exact hs
  | field _ _ _ put =>
    cases put
    rfl

lemma isSome_of_takesAll (h : Json.TakesAll fields s ms s') (hs : s.isSome) : s'.isSome := by
  induction h with
  | nil => exact hs
  | cons first _ ih => exact ih (isSome_of_takes first hs)

/-- A path is taken in once. -/
lemma takes_path (hname : m.IsNamed "path") (h : Json.Takes fields s m s') : s = none ∧ s'.isSome := by
  cases h with
  | other hname' seen =>
    obtain rfl := hname.unique hname'
    cases seen
  | field hname' _ seen put =>
    obtain rfl := hname.unique hname'
    cases put
    exact ⟨Option.not_isSome_iff_eq_none.mp (ne_true_of_eq_false (Option.some.inj seen)),rfl⟩

lemma ofJson_eq_ok_iff (h : Json.Object document.toList ms) {c : Config} :
    ofJson document = .ok c ↔ ∃ s, Json.TakesAll fields none ms s ∧ ofFields s = c :=
  Json.record_object ofFields h

lemma exists_fault (h : Json.Object document.toList ms) (hms : ∀ s, ¬Json.TakesAll fields none ms s) :
    ∃ fault, ofJson document = .error fault := by
  cases hread : ofJson document with
  | error fault => exact ⟨fault,rfl⟩
  | ok c =>
    obtain ⟨s,hs,-⟩ := (ofJson_eq_ok_iff h).mp hread
    exact absurd hs (hms s)

theorem readsMembers_of_object (h : Json.Object document.toList ms) : ReadsMembers document ms where
  absent hms := (ofJson_eq_ok_iff h).mpr ⟨none,takesAll_foreign none hms,rfl⟩
  single before m after path hms hforeign hname htext := by
    refine (ofJson_eq_ok_iff h).mpr ⟨some path,?_,rfl⟩
    rw [hms,Json.takesAll_append_iff]
    rw [List.forall_mem_append] at hforeign
    exact ⟨none,takesAll_foreign none hforeign.1,
      .cons (.field hname htext rfl rfl) (takesAll_foreign (some path) hforeign.2)⟩
  twice before m between m' after hms hname hname' := by
    refine exists_fault h fun s hs => ?_
    rw [hms,Json.takesAll_append_iff] at hs
    obtain ⟨_,-,hs⟩ := hs
    cases hs with
    | cons first rest =>
      obtain ⟨u,hbetween,hrest⟩ := Json.takesAll_append_iff.mp rest
      cases hrest with
      | cons second _ =>
        have hsome := isSome_of_takesAll hbetween (takes_path hname first).2
        rw [(takes_path hname' second).1] at hsome
        cases hsome
  nameless m hm hnone := by
    refine exists_fault h fun s hs => ?_
    obtain ⟨name,hname⟩ := hs.exists_name hm
    exact hnone name hname

/-- What is written for a configuration is an object of one member. -/
lemma object_toJson (c : Config) : ∃ m : Json.Member, Json.Object c.toJson.toList [m] ∧ m.IsNamed "path" ∧
    m.IsText c.path := by
  have hwhite : Json.White [] := by simp [Json.White]
  have hraw : "path".toList.flatMap Json.writeChar = "path".toList := by decide
  have hname : Json.Spelling "path".toList "path".toList := by
    have h := Json.spelling_flatMap_writeChar "path".toList
    rwa [hraw] at h
  have htext := Json.spelling_flatMap_writeChar c.path.toList
  have hvalue := Json.Phrase.item hwhite (.text htext.isBody) hwhite
  have hmember := Json.Phrase.lastMember (.member hwhite hname.isBody hwhite hvalue)
  have hobject := Json.Object.members hwhite hmember hwhite
  have hstart : "\x7b\"path\":".toList = '{' :: '"' :: ("path".toList ++ ['"',':']) := by decide
  have hdocument : c.toJson.toList = "\x7b\"path\":".toList ++ Json.writeText c.path.toList ++ ['}'] :=
    String.toList_ofList
  refine ⟨⟨"path".toList,_⟩,?_,hname,_,rfl,htext⟩
  rw [hdocument,hstart,Json.writeText]
  generalize "path".toList = t at *
  simpa using hobject

theorem ofJson_toJson (c : Config) : ofJson c.toJson = .ok c := by
  obtain ⟨m,hobject,hname,htext⟩ := object_toJson c
  exact (readsMembers_of_object hobject).single [] m [] c.path rfl (by simp) hname htext

end Members

/-- The line of a path. -/
def pathLine (path : String) (h : ∀ c ∈ path.toList, Yaml.isPrintable c) : Draft.Line where
  name := "path"
  value := path
  name_ne := by decide
  isName_of_mem := by
    rw [← List.all_iff_forall_prop]
    decide
  length_name := by decide
  isPrintable_of_mem := h

/-- A text of lines. The last one need not be ended. -/
def HasLines (text : String) (ls : List Draft.Line) : Prop :=
  text.toList = ls.flatMap Draft.Line.text ∨ text.toList ++ ['\n'] = ls.flatMap Draft.Line.text

section Lines

variable {l : Draft.Line} {ls : List Draft.Line} {text : String} {d : Yaml.Document} {n jumps : Nat}
  {rest : List (Yaml.Event Nat)} {s : Option String}

/-- The mapping of the lines. -/
def mapping (l : Draft.Line) (ls : List Draft.Line) : Yaml.Entry := ⟨l.field,ls.map Draft.Line.field⟩

lemma flatMap_text (l : Draft.Line) (ls : List Draft.Line) :
    (l :: ls).flatMap Draft.Line.text = (mapping l ls).rows ++ ['\n'] := by
  induction ls generalizing l with
  | nil => simp [mapping,Yaml.Entry.rows,Yaml.Field.below,Draft.Line.text_eq]
  | cons l' ls ih =>
    rw [List.flatMap_cons,ih]
    simp [mapping,Yaml.Entry.rows,Yaml.Field.below,Draft.Line.text_eq]

lemma HasLines.rows (h : HasLines text (l :: ls)) :
    ∃ r, (r = [] ∨ r = ['\n']) ∧ text.toList = (mapping l ls).rows ++ r := by
  rw [HasLines,flatMap_text] at h
  rcases h with h | h
  · exact ⟨_,.inr rfl,h⟩
  · exact ⟨[],.inl rfl,by rw [List.append_nil,List.append_cancel_right h]⟩

lemma HasLines.isLines (h : HasLines text ls) : Yaml.IsLines text.toList := by
  intro c hc
  have hmem : c ∈ ls.flatMap Draft.Line.text := by
    rcases h with h | h
    · exact h ▸ hc
    · exact h ▸ List.mem_append_left _ hc
  obtain ⟨l,-,hc⟩ := List.mem_flatMap.mp hmem
  exact l.isLines_text c hc

lemma ofSource_lines (h : HasLines text (l :: ls)) : Yaml.Document.ofSource (.ofBytes (Text.utf8 text.toList)) =
    ⟨.mappingStart :: (Draft.events (l :: ls) ++ [.mappingEnd]),[],true,true⟩ := by
  obtain ⟨r,hr,htext⟩ := h.rows
  rw [Yaml.Source.ofBytes_lines h.isLines,htext,Yaml.Document.ofSource_rows _ hr]
  simp [mapping,Yaml.Entry.events,Draft.events,List.flatMap_map]

lemma not_isBlank_of_isLower {c : Char} (h : c.isLower ∨ c = '_') : Text.isBlank c = false := by
  have hn : 0x5f ≤ c.toNat ∧ c.toNat ≤ 0x7a := by
    rcases h with h | rfl
    · simp only [Char.isLower,Bool.and_eq_true,decide_eq_true_eq,UInt32.le_iff_toNat_le] at h
      exact ⟨Nat.le_trans (by decide) h.1,h.2⟩
    · decide
  have hall : ∀ n < 0x80, 0x5f ≤ n → Text.isBlank (Char.ofNat n) = false := by decide
  simpa using hall c.toNat (by omega) hn.1

/-- Lines begin with a letter. -/
lemma not_blank_of_lines (h : HasLines text (l :: ls)) : text.toList.all Text.isBlank = false := by
  obtain ⟨r,-,htext⟩ := h.rows
  obtain ⟨c,v,hname⟩ := List.exists_cons_of_ne_nil l.name_ne
  have hrows : (mapping l ls).rows ++ r = c :: (v ++ [':',' '] ++ l.field.spelling ++
      Yaml.Field.below 0 (mapping l ls).others ++ r) := by
    simp [mapping,Yaml.Entry.rows,Yaml.Field.line,Draft.Line.field,hname]
  rw [htext,hrows,List.all_cons,not_isBlank_of_isLower (l.isName_of_mem c (by simp [hname])),Bool.false_and]

/-- Other fields are passed over. -/
lemma fields_foreign (path : String) (hls : ∀ l ∈ ls, l.name ≠ "path") :
    d.fields fields path (n+ls.length) s ⟨Draft.events ls ++ rest,jumps⟩ = d.fields fields path n s ⟨rest,jumps⟩ := by
  induction ls with
  | nil => rfl
  | cons l ls ih =>
    have hname : String.ofList l.field.name = l.name := String.ofList_toList
    have hseen : fields.seen? s (String.ofList l.field.name) = none := by
      rw [hname]
      exact if_neg (hls l List.mem_cons_self)
    rw [Draft.events,List.flatMap_cons,List.append_assoc,List.length_cons,← Nat.add_assoc,
      Yaml.Document.fields_field,hseen]
    exact ih fun o ho => hls o (List.mem_cons_of_mem l ho)

lemma length_events (ls : List Draft.Line) : (Draft.events ls).length = 2*ls.length := by
  simp [Draft.events,Yaml.Field.events,List.length_flatMap,Nat.mul_comm]

/-- The path is read from its line. -/
lemma rootRecord_lines {path : String} (hpath : ∀ c ∈ path.toList, Yaml.isPrintable c)
    {before after : List Draft.Line} (hforeign : ∀ l ∈ before ++ after, l.name ≠ "path")
    (hd : d.events = .mappingStart :: (Draft.events (before ++ pathLine path hpath :: after) ++ [.mappingEnd])) :
    d.rootRecord fields = .ok (some path) := by
  rw [List.forall_mem_append] at hforeign
  have hlength := length_events (before ++ pathLine path hpath :: after)
  have hevents : Draft.events (before ++ pathLine path hpath :: after) ++ [Yaml.Event.mappingEnd] =
      Draft.events before ++ ((pathLine path hpath).field.events ++ (Draft.events after ++ [.mappingEnd])) := by
    simp [Draft.events]
  generalize hrest : Draft.events (before ++ pathLine path hpath :: after) ++ [Yaml.Event.mappingEnd] = r at *
  have hfuel : r.length+1 = before.length+after.length+2+1+after.length+1+before.length := by
    rw [← hrest,List.length_append,hlength,List.length_append,List.length_cons,List.length_singleton]
    omega
  have hname : String.ofList (pathLine path hpath).field.name = "path" := String.ofList_toList
  have hvalue : String.ofList (pathLine path hpath).field.text = path := String.ofList_toList
  have hread : d.fields fields "" (r.length+1) none ⟨r,0⟩ = .ok (some path,⟨[],0⟩) := by
    rw [hfuel,hevents,fields_foreign "" hforeign.1,
      Yaml.Document.fields_put (pathLine path hpath).field (by rw [hname]; rfl) (by rw [hvalue]; rfl),
      fields_foreign "" hforeign.2]
    exact Yaml.Document.fields_end
  have hrecord : d.record fields "" ⟨.mappingStart :: r,0⟩ = d.fields fields "" (r.length+1) none ⟨r,0⟩ := rfl
  rw [Yaml.Document.rootRecord,hd,hrecord,hread]
  rfl

theorem ofYaml_lines {path : String} (hpath : ∀ c ∈ path.toList, Yaml.isPrintable c) {before after : List Draft.Line}
    (hforeign : ∀ l ∈ before ++ after, l.name ≠ "path") (h : HasLines text (before ++ pathLine path hpath :: after)) :
    ofYaml text = .ok ⟨path⟩ := by
  obtain ⟨l,ls,hls⟩ : ∃ l ls, before ++ pathLine path hpath :: after = l :: ls :=
    List.exists_cons_of_ne_nil (by simp)
  have hread {d : Yaml.Document} := @rootRecord_lines d path hpath before after hforeign
  rw [hls] at h hread
  simp only [ofYaml,not_blank_of_lines h,Bool.false_eq_true,if_false,ofSource_lines h]
  rw [Yaml.Document.accept_whole rfl rfl,hread rfl]
  rfl

end Lines

/-- Configurations are written in JSON and read back, and both forms are read alike. -/
theorem forms_agree :
    (∀ c : Config, ofJson c.toJson = .ok c) ∧
    (∀ (document : String) (ms : List Json.Member), Json.Object document.toList ms → ReadsMembers document ms) ∧
    ∀ (path : String) (hpath : ∀ c ∈ path.toList, Yaml.isPrintable c) (before after : List Draft.Line) (text : String),
      (∀ l ∈ before ++ after, l.name ≠ "path") → HasLines text (before ++ pathLine path hpath :: after) →
      ofYaml text = .ok ⟨path⟩ ∧ ofJson (toJson ⟨path⟩) = .ok ⟨path⟩ :=
  ⟨ofJson_toJson,fun _ _ => readsMembers_of_object,fun _ hpath _ _ _ hforeign h =>
    ⟨ofYaml_lines hpath hforeign h,ofJson_toJson _⟩⟩

/-- A member with a value that is nested stands before the path and a member of the same name behind it. The path's name
is spelled with an escape. The path's line stands between two lines of one name as well, the last of which is open. -/
theorem forms_agree_between :
    let document := "\x7b\"id\": [\x7b\x7d,-1e5],\"p\\u0061th\":\"it's\",\"id\":null\x7d"
    let text := "id: ''\npath: 'it''s'\nid: '#'"
    (∃ ms, Json.Object document.toList ms ∧ ReadsMembers document ms) ∧ ofJson document = .ok ⟨"it's"⟩ ∧
      ofYaml text = .ok ⟨"it's"⟩ := by
  intro document text
  have hnone : Json.White [] := by simp [Json.White]
  have hblank : Json.White [' '] := by simp [Json.White,Json.IsWhite]
  have hdigits {c : Char} (h : c.isDigit) : Json.IsDigits [c] := ⟨List.cons_ne_nil c [],by simpa using h⟩
  have hid : Json.Spelling ['i','d'] "id".toList := Json.spelling_flatMap_writeChar ['i','d']
  have hpath : Json.Spelling ['p','\\','u','0','0','6','1','t','h'] "path".toList := by
    have hunit : Json.IsUnit ['0','0','6','1'] 'a'.toNat :=
      Json.isUnit_numeral (by decide) (by decide) (by decide) (by decide)
    exact .cons (.raw (by decide) (by decide) (by decide)) (.cons (.unit hunit)
      (Json.spelling_flatMap_writeChar ['t','h']))
  have hvalue : Json.Spelling ['i','t','\'','s'] "it's".toList := Json.spelling_flatMap_writeChar ['i','t','\'','s']
  have hnumber : Json.NumberText (['-'] ++ (['1'] ++ ([] ++ 'e' :: ([] ++ ['5'])))) :=
    .mk (.inr rfl) (.digits (hdigits rfl) (by decide)) .none (.some (.inl rfl) (.inl rfl) (hdigits rfl))
  have harray : Json.Phrase .value ['[','{','}',',','-','1','e','5',']'] :=
    .array (.moreItems (.item hnone (.emptyObject hnone) hnone) (.lastItem (.item hnone (.number hnumber) hnone)))
  let first : Json.Member := ⟨['i','d'],['[','{','}',',','-','1','e','5',']']⟩
  let second : Json.Member := ⟨['p','\\','u','0','0','6','1','t','h'],'"' :: (['i','t','\'','s'] ++ ['"'])⟩
  let third : Json.Member := ⟨['i','d'],"null".toList⟩
  have hobject : Json.Object document.toList [first,second,third] := by
    have hdocument : document.toList = '{' :: '"' :: (['i','d'] ++ '"' :: ':' :: ' ' ::
        (['[','{','}',',','-','1','e','5',']'] ++ ',' :: '"' :: (['p','\\','u','0','0','6','1','t','h'] ++ '"' :: ':' ::
        '"' :: (['i','t','\'','s'] ++ '"' :: ',' :: '"' :: (['i','d'] ++ '"' :: ':' :: "null".toList ++ ['}']))))) := by
      decide
    rw [hdocument]
    exact Json.Object.members hnone (.moreMembers (.member hnone hid.isBody hnone (.item hblank harray hnone))
      (.moreMembers (.member hnone hpath.isBody hnone (.item hnone (.text hvalue.isBody) hnone))
        (.lastMember (.member hnone hid.isBody hnone (.item hnone (.word (.inl rfl)) hnone))))) hnone
  have hforeign : ∀ m ∈ [first,third], IsForeign m := by
    have hne : "id" ≠ "path" := by decide
    simp only [List.forall_mem_cons]
    exact ⟨⟨"id",hid,hne⟩,⟨"id",hid,hne⟩,by simp⟩
  have hreads := forms_agree.2.1 document _ hobject
  have hlower : ∀ c ∈ "id".toList, c.isLower ∨ c = '_' := by
    rw [← List.all_iff_forall_prop]
    decide
  let line (value : String) (h : value.toList.all Yaml.isPrintable) : Draft.Line :=
    ⟨"id",value,by decide,hlower,by decide,List.all_eq_true.mp h⟩
  have hprintable : ∀ c ∈ "it's".toList, Yaml.isPrintable c := List.all_eq_true.mp (by decide)
  have hlines : HasLines text ([line "" (by decide)] ++ pathLine "it's" hprintable :: [line "#" (by decide)]) := by
    right
    simp only [List.singleton_append,List.flatMap_cons,List.flatMap_nil,Draft.Line.text,line,pathLine]
    decide
  have hothers : ∀ l ∈ [line "" (by decide)] ++ [line "#" (by decide)], l.name ≠ "path" := by simp [line]
  refine ⟨⟨_,hobject,hreads⟩,hreads.single [first] second [third] "it's" rfl hforeign hpath ⟨_,rfl,hvalue⟩,?_⟩
  exact (forms_agree.2.2 "it's" hprintable [line "" (by decide)] [line "#" (by decide)] text hothers hlines).1

/-- A name with half a pair is written by the rules and is not that of the path. The object is refused all the same. -/
theorem half_pair_refused :
    let document := "\x7b\"\\ud800\": 1\x7d"
    ∃ ms, Json.Object document.toList ms ∧ (∀ m ∈ ms, ¬m.IsNamed "path") ∧ ofJson document ≠ .ok {} := by
  intro document
  have hnone : Json.White [] := by simp [Json.White]
  have hblank : Json.White [' '] := by simp [Json.White,Json.IsWhite]
  have hbody : Json.Body ['\\','u','d','8','0','0'] :=
    .unit (Json.isUnit_numeral (by decide) (by decide) (by decide) (by decide)) .nil
  have hnumber : Json.NumberText ([] ++ (['1'] ++ ([] ++ []))) :=
    .mk (.inl rfl) (.digits ⟨by decide,by simp⟩ (by decide)) .none .none
  have hobject : Json.Object document.toList [⟨['\\','u','d','8','0','0'],['1']⟩] := by
    have hdocument : document.toList = '{' :: '"' :: (['\\','u','d','8','0','0'] ++ ['"',':',' ','1','}']) := by decide
    rw [hdocument]
    exact Json.Object.members hnone
      (.lastMember (.member hnone hbody hnone (.item hblank (.number hnumber) hnone))) hnone
  have hname (name : String) : ¬Json.Member.IsNamed ⟨['\\','u','d','8','0','0'],['1']⟩ name := by
    intro h
    have hread := Json.readText_spelling h []
    rw [Json.readText.eq_def] at hread
    cases hread
  refine ⟨_,hobject,?_,?_⟩
  · simpa using hname "path"
  · obtain ⟨fault,hfault⟩ := (readsMembers_of_object hobject).nameless _ List.mem_cons_self hname
    rw [hfault]
    intro h
    cases h

end Keyring.Config
