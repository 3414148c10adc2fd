import Keyring.Proofs.Records
import Keyring.Proofs.Yaml.Blank
import Keyring.Proofs.Yaml.Extension
import Keyring.Proofs.Yaml.Seam.Break

/-! What is read of a file with records put behind it. -/
namespace Keyring

open Yaml (Document Source Walk Event)

namespace Record

variable {d d' : Document} {path : String} {z : List (Event Nat)} {rs rs' : List Record} {bytes : Bytes}

lemma exists_of_read {w : Walk} {r : Record} {w' : Walk} (h : read d path w = .ok (r,w')) :
    ∃ p, d.record fields path w = .ok (p,w') ∧ p.complete path = .ok r := by
  obtain ⟨⟨p,v⟩,hp,h⟩ := Document.exists_of_bind h
  obtain ⟨r',hr,h⟩ := Document.exists_of_bind h
  cases h
  exact ⟨p,hp,hr⟩

lemma read_of_complete {w : Walk} {r : Record} {w' : Walk} {p : Partial} (hp : d.record fields path w = .ok (p,w'))
    (hr : p.complete path = .ok r) : read d path w = .ok (r,w') := by
  simp only [read,hp,hr,bind,Except.bind]

lemma takesNode_read (d : Document) (path : String) : Document.TakesNode (read d path) := by
  intro q z j r w fs hs hq hlength hnest h
  obtain ⟨p,hp,-⟩ := exists_of_read h
  exact Document.takesNode_record q z j p w fs hs hq hlength hnest hp

lemma carries_read (h : Document.Grows d d' z) (path : String) : Document.Carries z (read d path) (read d' path) := by
  intro q j r w hw
  obtain ⟨p,hp,hr⟩ := exists_of_read hw
  obtain ⟨q',hq',hp'⟩ := h.record q j p w hp
  exact ⟨q',hq',read_of_complete hp' hr⟩

/-- The records of a text are those of its list, if its document counts. -/
lemma readAll_eq_ok_iff : readAll bytes = .ok rs ↔ (Document.ofSource (.ofBytes bytes)).counts = true ∧
    (Document.ofSource (.ofBytes bytes)).rootList (read (Document.ofSource (.ofBytes bytes))) = .ok rs := by
  rw [readAll]
  generalize Document.ofSource (.ofBytes bytes) = d
  cases hroot : d.rootList (read d) with
  | error fault => simp [Document.accept,bind,Except.bind]
  | ok rs =>
    cases hcomplete : d.complete <;> cases halone : d.alone <;>
      simp [Document.accept,bind,Except.bind,Document.counts,hcomplete,halone,Document.malformed]

/-- Entries behind a text that leaves its list open are read behind what the text holds. -/
lemma rootList_append {g : List Char} (hg : g = [] ∨ g.getLast? = some '\n')
    (hcounts : (Document.ofSource ⟨g,[]⟩).counts = true) (hopen : Source.isOpen ⟨g,[]⟩ = true)
    (hroot : (Document.ofSource ⟨g,[]⟩).rootList (read (Document.ofSource ⟨g,[]⟩)) = .ok rs)
    {es : List Yaml.Entry} (hes : es ≠ []) (hreads : List.Forall₂ Reads es rs') :
    let d' := Document.ofSource ⟨g ++ es.flatMap Yaml.Entry.text,[]⟩
    d'.counts = true ∧ d'.rootList (read d') = .ok (rs ++ rs') := by
  intro d'
  obtain ⟨e,es,rfl⟩ := List.exists_cons_of_ne_nil hes
  have hentries (i j n : Nat) (hn : (e :: es).length < n) :
      Document.items (read d') n i ⟨(e :: es).flatMap Yaml.Entry.events ++ [.sequenceEnd],j⟩ = .ok (rs',⟨[],j⟩) :=
    items_of_reads d' hreads hn i [] j
  have hlength := Yaml.Entry.length_le_events Nat (e :: es)
  rcases Document.counts_append_of_open hg hcounts hopen e es with
    ⟨r,hmapping⟩ | ⟨hcounts',⟨t,hscalar,hlist⟩ | ⟨hgrows,hnest⟩⟩
  · rw [Document.rootList,hmapping] at hroot
    cases hroot
  · refine ⟨hcounts',?_⟩
    obtain rfl : rs = [] := by
      rw [Document.rootList,hscalar] at hroot
      simp only [true_and,true_or,if_true] at hroot
      split_ifs at hroot <;> cases hroot <;> rfl
    refine Document.rootList_sequence hlist (hentries 0 0 _ ?_)
    rw [List.length_append]
    exact Nat.lt_succ_of_le (Nat.le_succ_of_le hlength)
  · refine ⟨hcounts',?_⟩
    obtain ⟨r,hd,hd'⟩ := hgrows.events
    rw [Document.rootList,hd] at hroot
    obtain ⟨⟨l,w⟩,hitems,hroot⟩ := Document.exists_of_bind hroot
    cases hroot
    have hfuel : (r ++ [Event.sequenceEnd]).length+1+(e :: es).length ≤
        (r ++ ((e :: es).flatMap Yaml.Entry.events ++ [Event.sequenceEnd])).length+1 := by
      rw [List.length_append,List.length_append,List.length_append]
      omega
    obtain ⟨w',hitems'⟩ := Document.items_append (fun i => takesNode_read _ _) (fun i => carries_read hgrows _)
      (fun i j m hm => ⟨_,hentries i j m hm⟩) (hnest _ hd) hitems hfuel
    exact Document.rootList_sequence hd' hitems'

lemma exists_fault (h : (Document.ofSource (.ofBytes bytes)).counts = false) :
    ∃ fault, readAll bytes = .error fault := by
  cases hread : readAll bytes with
  | error fault => exact ⟨fault,rfl⟩
  | ok rs =>
    rw [(readAll_eq_ok_iff.mp hread).1] at h
    cases h

lemma margin_of_lacks (h : (Source.ofBytes bytes).margin.lacks 4 [] = false) : (Source.ofBytes bytes).margin = [] := by
  by_contra hne
  have hpos := Source.margin_of_not_whole hne
  rw [Yaml.Margin.lacks,List.take_nil,List.length_nil,decide_eq_false_iff_not] at h
  exact h hpos

/-- A text whose document counts is known to its end. -/
lemma margin_of_counts (h : (Document.ofSource (.ofBytes bytes)).counts = true) : (Source.ofBytes bytes).margin = [] :=
  margin_of_lacks (Document.exists_whole h).1

/-- A text known to its end, with its last line ended and records behind it. -/
lemma ofBytes_encodings (h : (Source.ofBytes bytes).margin = []) : ∃ joint, (joint = ['\n'] ∨ joint = [] ∧
      ((Source.ofBytes bytes).chars = [] ∨ (Source.ofBytes bytes).chars.getLast? = some '\n')) ∧
    ∀ ps : List (Eui64 × Key), Source.ofBytes (bytes ++ lineEnd bytes ++ ps.flatMap fun p => encode p.1 p.2) =
      ⟨(Source.ofBytes bytes).chars ++ joint ++ (ps.map entry).flatMap Yaml.Entry.text,[]⟩ := by
  obtain ⟨joint,hjoint,happend⟩ := Source.ofBytes_append h
  refine ⟨joint,hjoint,fun ps => ?_⟩
  rw [flatMap_encode]
  refine happend _ (isLines_entries ps) ?_
  cases ps with
  | nil => simp
  | cons p ps =>
    rw [List.map_cons,List.flatMap_cons,Yaml.Entry.text_append]
    simp

/-- A text whose document counts leaves its list open, or not, as it does with its last line ended. -/
lemma exists_ended (h : (Document.ofSource (.ofBytes bytes)).counts = true) :
    ∃ g, (g = [] ∨ g.getLast? = some '\n') ∧ Source.isOpen ⟨g,[]⟩ = Source.isOpen (.ofBytes bytes) ∧
      ∀ ps : List (Eui64 × Key), Source.ofBytes (bytes ++ lineEnd bytes ++ ps.flatMap fun p => encode p.1 p.2) =
        ⟨g ++ (ps.map entry).flatMap Yaml.Entry.text,[]⟩ := by
  have hmargin := margin_of_counts h
  obtain ⟨joint,hjoint,happend⟩ := ofBytes_encodings hmargin
  refine ⟨_,?_,?_,happend⟩
  · rcases hjoint with rfl | ⟨rfl,ht⟩
    · exact Or.inr List.getLast?_concat
    · rwa [List.append_nil]
  · obtain ⟨-,ts,pre,used,tags,j,as,hwhole⟩ := Document.exists_whole h
    generalize Source.ofBytes bytes = source at *
    obtain ⟨t,margin⟩ := source
    obtain rfl : margin = [] := hmargin
    rcases hjoint with rfl | ⟨rfl,-⟩
    · exact (Yaml.tokens_append_lf hwhole.streamEnd_mem hwhole.nesting_eq).2
    · rw [List.append_nil]

lemma readAll_eq_ok_iff_ended {g : List Char} (h : ∀ ps : List (Eui64 × Key), Source.ofBytes (bytes ++ lineEnd bytes ++
    ps.flatMap fun p => encode p.1 p.2) = ⟨g ++ (ps.map entry).flatMap Yaml.Entry.text,[]⟩) :
    readAll (bytes ++ lineEnd bytes) = .ok rs ↔ (Document.ofSource ⟨g,[]⟩).counts = true ∧
      (Document.ofSource ⟨g,[]⟩).rootList (read (Document.ofSource ⟨g,[]⟩)) = .ok rs := by
  have hnil := h []
  rw [List.flatMap_nil,List.append_nil,List.map_nil,List.flatMap_nil,List.append_nil] at hnil
  rw [readAll_eq_ok_iff,hnil]

/-- Records put behind a text that leaves its list open are read behind its own. -/
lemma readAll_append_of_open {rs₀ : List Record} (h : readAll bytes = .ok rs₀)
    (hended : readAll (bytes ++ lineEnd bytes) = .ok rs)
    (hopen : Source.isOpen (.ofBytes bytes) = true) (ps : List (Eui64 × Key)) :
    readAll (bytes ++ lineEnd bytes ++ ps.flatMap fun p => encode p.1 p.2) = .ok (rs ++ ps.map ofPair) := by
  by_cases hps : ps = []
  · subst hps
    simpa using hended
  obtain ⟨g,hg,hopen',hentries⟩ := exists_ended (readAll_eq_ok_iff.mp h).1
  rw [readAll_eq_ok_iff_ended hentries] at hended
  rw [readAll_eq_ok_iff,hentries ps]
  exact rootList_append hg hended.1 (hopen'.trans hopen) hended.2 (by simpa using hps) (forall₂_reads ps)

/-- Records put behind a text that does not leave its list open make it unreadable. -/
lemma readAll_append_of_closed {rs₀ : List Record} (h : readAll bytes = .ok rs₀)
    (hended : readAll (bytes ++ lineEnd bytes) = .ok rs) (hclosed : Source.isOpen (.ofBytes bytes) = false)
    {ps : List (Eui64 × Key)} (hps : ps ≠ []) :
    ∃ fault, readAll (bytes ++ lineEnd bytes ++ ps.flatMap fun p => encode p.1 p.2) = .error fault := by
  obtain ⟨g,hg,hopen',hentries⟩ := exists_ended (readAll_eq_ok_iff.mp h).1
  rw [readAll_eq_ok_iff_ended hentries] at hended
  refine exists_fault ?_
  rw [hentries ps]
  obtain ⟨p,ps,rfl⟩ := List.exists_cons_of_ne_nil hps
  exact Document.counts_append_of_closed hg hended.1 (hopen'.trans hclosed) (entry p) (ps.map entry)

section Blank

lemma exists_of_isBlankByte (h : bytes.all Text.isBlankByte = true) : ∃ t, bytes = Text.utf8 t ∧
    ∀ c ∈ t, c ∈ [' ','\t','\n','\u000c','\r'] := by
  induction bytes with
  | nil => exact ⟨[],rfl,by simp⟩
  | cons b bytes ih =>
    rw [List.all_cons,Bool.and_eq_true] at h
    obtain ⟨t,rfl,ht⟩ := ih h.2
    have hcons {c : Char} (hc : c ∈ [' ','\t','\n','\u000c','\r']) (hb : Text.utf8 [c] = [b]) :
        ∃ t', b :: Text.utf8 t = Text.utf8 t' ∧ ∀ c ∈ t', c ∈ [' ','\t','\n','\u000c','\r'] :=
      ⟨c :: t,by rw [← List.singleton_append,← hb,← Text.utf8_append]; rfl,List.forall_mem_cons.mpr ⟨hc,ht⟩⟩
    have hb := h.1
    simp only [Text.isBlankByte,Bool.or_eq_true,beq_iff_eq] at hb
    rcases hb with (((rfl | rfl) | rfl) | rfl) | rfl
    · exact hcons (c := ' ') (by simp) rfl
    · exact hcons (c := '\t') (by simp) rfl
    · exact hcons (c := '\n') (by simp) rfl
    · exact hcons (c := '\u000c') (by simp) rfl
    · exact hcons (c := '\r') (by simp) rfl

lemma eq_of_utf8_eq {t t' : List Char} (h : Text.utf8 t = Text.utf8 t') : t = t' := by
  have hdecode := congrArg Text.decodeUtf8 h
  rw [Text.decodeUtf8_utf8,Text.decodeUtf8_utf8] at hdecode
  exact congrArg Prod.fst hdecode

/-- The beginning of a text that is read as a whole is read as a whole. -/
lemma margin_of_append {t u : List Char} (h : (Source.ofBytes (Text.utf8 t ++ Text.utf8 u)).margin = []) :
    Source.ofBytes (Text.utf8 t) = ⟨Source.unifyBreaks t,[]⟩ ∧ ∀ c ∈ t, Source.isReadable c = true := by
  obtain ⟨v,hv,hreadable⟩ := Source.eq_utf8_of_margin h
  rw [← Text.utf8_append] at hv
  obtain rfl := eq_of_utf8_eq hv
  have ht : ∀ c ∈ t, Source.isReadable c = true := fun c hc => hreadable c (List.mem_append_left _ hc)
  exact ⟨Source.ofBytes_utf8 ht,ht⟩

lemma mem_of_mem_unifyBreaks {c : Char} {t : List Char} (h : c ∈ Source.unifyBreaks t) :
    c = '\n' ∨ c ∈ t ∧ c ≠ '\r' := by
  fun_induction Source.unifyBreaks t with
  | case1 => cases h
  | case2 r ih =>
    rcases List.mem_cons.mp h with rfl | h
    · exact Or.inl rfl
    · exact (ih h).imp_right fun h => ⟨List.mem_cons_of_mem _ (List.mem_cons_of_mem _ h.1),h.2⟩
  | case3 d r _ ih =>
    rcases List.mem_cons.mp h with rfl | h
    · split_ifs with hd
      · exact Or.inl rfl
      · exact Or.inr ⟨List.mem_cons_self,fun h => hd (Or.inl h)⟩
    · exact (ih h).imp_right fun h => ⟨List.mem_cons_of_mem _ h.1,h.2⟩

/-- A blank file is read as an empty list, which goes on behind it, unless it has tabs or form feeds. Then nothing is
read behind it. -/
lemma readAll_of_blank (h : bytes.all Text.isBlankByte = true) :
    Source.isOpen (.ofBytes bytes) = true ∧ readAll bytes = .ok [] ∨
      Source.isOpen (.ofBytes bytes) = false ∧ ∀ ps : List (Eui64 × Key),
        ∃ fault, readAll (bytes ++ lineEnd bytes ++ ps.flatMap fun p => encode p.1 p.2) = .error fault := by
  obtain ⟨t,rfl,ht⟩ := exists_of_isBlankByte h
  by_cases hmargin : (Source.ofBytes (Text.utf8 t)).margin = []
  · have hmargin' : (Source.ofBytes (Text.utf8 t ++ Text.utf8 [])).margin = [] := by
      rwa [Text.utf8_nil,List.append_nil]
    obtain ⟨hsource,hreadable⟩ := margin_of_append hmargin'
    have hspace : ∀ c ∈ Source.unifyBreaks t, Yaml.isSpace c = true := by
      intro c hc
      rcases mem_of_mem_unifyBreaks hc with rfl | ⟨hc,hcr⟩
      · rfl
      · have hblank := ht c hc
        simp only [List.mem_cons,List.not_mem_nil,or_false] at hblank
        rcases hblank with rfl | rfl | rfl | rfl | rfl
        · rfl
        · rfl
        · rfl
        · cases hreadable _ hc
        · exact absurd rfl hcr
    by_cases htab : '\t' ∈ Source.unifyBreaks t
    · refine Or.inr ⟨by rw [hsource,Yaml.isOpen_of_tab hspace htab],fun ps => exists_fault ?_⟩
      obtain ⟨joint,-,happend⟩ := ofBytes_encodings hmargin
      rw [happend ps,hsource,List.append_assoc,Document.ofSource,Yaml.tokens_of_tab hspace htab]
      rfl
    · obtain ⟨htokens,hopen⟩ := Yaml.tokens_of_isSpace hspace htab
      rw [readAll_eq_ok_iff,hsource,Document.ofSource,htokens]
      exact Or.inl ⟨hopen,rfl,rfl⟩
  · refine Or.inr ⟨Bool.eq_false_iff.mpr fun hopen => hmargin (margin_of_lacks (Yaml.lacks_of_isOpen hopen)),
      fun ps => exists_fault (Bool.eq_false_iff.mpr fun hcounts => hmargin ?_)⟩
    obtain ⟨u,hu⟩ : ∃ u, lineEnd (Text.utf8 t) ++ (ps.flatMap fun p => encode p.1 p.2) = Text.utf8 u := by
      rw [flatMap_encode,lineEnd]
      split_ifs
      · exact ⟨'\n' :: (ps.map entry).flatMap Yaml.Entry.text,rfl⟩
      · exact ⟨_,rfl⟩
    rw [List.append_assoc,hu] at hcounts
    rw [(margin_of_append (margin_of_counts hcounts)).1]

end Blank

lemma gateways_append {pub : PublicKeyMap} (i : Nat) (rs rs' : List Record) : gateways pub i (rs ++ rs') = (do
    let gs ← gateways pub i rs
    let gs' ← gateways pub (i+rs.length) rs'
    .ok (gs ++ gs')) := by
  induction rs generalizing i with
  | nil =>
    simp only [List.nil_append,gateways,List.length_nil,Nat.add_zero,bind,Except.bind]
    cases gateways pub i rs' <;> rfl
  | cons r rs ih =>
    have hlength : i+(r :: rs).length = i+1+rs.length := by
      rw [List.length_cons]
      omega
    rw [List.cons_append,gateways,gateways,ih,hlength]
    cases r.gateway pub i with
    | error e => rfl
    | ok g =>
      cases gateways pub (i+1) rs with
      | error e => rfl
      | ok gs =>
        simp only [bind,Except.bind]
        cases gateways pub (i+1+rs.length) rs' <;> rfl

end Record

namespace Gateway

variable {pub : PublicKeyMap} {bytes : Bytes} {gs : List Gateway} {ps : List (Eui64 × Key)}

/-- A text with records is not blank. -/
lemma not_blank_of_encodings (hps : ps ≠ []) (bytes : Bytes) :
    (bytes ++ ps.flatMap fun p => Record.encode p.1 p.2).all Text.isBlankByte = false := by
  obtain ⟨p,ps,rfl⟩ := List.exists_cons_of_ne_nil hps
  have hhead : Record.encode p.1 p.2 = 0x2d :: (Record.encode p.1 p.2).tail := rfl
  rw [List.flatMap_cons,hhead,List.all_append,List.cons_append,List.all_cons,
    show Text.isBlankByte 0x2d = false from rfl,
    Bool.false_and,Bool.and_false]

lemma exists_of_decode (h : bytes.all Text.isBlankByte = false) (hd : decode pub bytes = .ok gs) :
    ∃ rs, Record.readAll bytes = .ok rs ∧ Record.gateways pub 0 rs = .ok gs := by
  cases hread : Record.readAll bytes with
  | error fault =>
    rw [decode_of_fault h hread] at hd
    cases hd
  | ok rs => exact ⟨rs,rfl,by rwa [decode_of_readAll h hread] at hd⟩

lemma eq_nil_of_blank (h : bytes.all Text.isBlankByte = true) (hd : decode pub bytes = .ok gs) : gs = [] := by
  rw [decode,h,if_pos rfl] at hd
  cases hd
  rfl

lemma blank_ended (h : bytes.all Text.isBlankByte = true) : (bytes ++ lineEnd bytes).all Text.isBlankByte = true := by
  rw [List.all_append,h,lineEnd]
  split_ifs <;> rfl

/-- A file that is read, and also once its last line is ended: the records of the gateways are there, unless it is
blank and nothing can be read behind it. -/
lemma readAll_of_decode (h : decode pub bytes = .ok gs) (hended : decode pub (bytes ++ lineEnd bytes) = .ok gs) :
    (∃ rs₀ rs, Record.readAll bytes = .ok rs₀ ∧ Record.readAll (bytes ++ lineEnd bytes) = .ok rs ∧
        Record.gateways pub 0 rs = .ok gs) ∨
      Source.isOpen (.ofBytes bytes) = false ∧ ∀ ps : List (Eui64 × Key), ∃ fault,
        Record.readAll (bytes ++ lineEnd bytes ++ ps.flatMap fun p => Record.encode p.1 p.2) = .error fault := by
  by_cases hblank : bytes.all Text.isBlankByte = true
  · refine (Record.readAll_of_blank hblank).imp_left ?_
    rintro ⟨hopen,hread⟩
    obtain ⟨g,-,hopen',hentries⟩ := Record.exists_ended (Record.readAll_eq_ok_iff.mp hread).1
    have hsource := hentries []
    rw [List.flatMap_nil,List.append_nil,List.map_nil,List.flatMap_nil,List.append_nil] at hsource
    have hread' := (Record.readAll_of_blank (blank_ended hblank)).resolve_right fun hclosed => by
      rw [hsource,hopen',hopen] at hclosed
      cases hclosed.1
    obtain rfl := eq_nil_of_blank hblank h
    exact ⟨[],[],hread,hread'.2,rfl⟩
  · rw [Bool.not_eq_true] at hblank
    obtain ⟨rs₀,hread,-⟩ := exists_of_decode hblank h
    have hblank' : (bytes ++ lineEnd bytes).all Text.isBlankByte = false := by
      rw [List.all_append,hblank,Bool.false_and]
    obtain ⟨rs,hread',hgateways⟩ := exists_of_decode hblank' hended
    exact Or.inl ⟨rs₀,rs,hread,hread',hgateways⟩

/-- Gateways written behind a file that leaves its list open are read behind its own. -/
theorem decode_append_of_open (h : decode pub bytes = .ok gs) (hended : decode pub (bytes ++ lineEnd bytes) = .ok gs)
    (hopen : Source.isOpen (.ofBytes bytes) = true) (heven : ∀ p ∈ ps, (pub p.2).IsEven) :
    ∃ gs' : List Gateway, gs'.map .ok = (ps.map fun p => new pub p.1 p.2) ∧
      decode pub (bytes ++ lineEnd bytes ++ ps.flatMap fun p => Record.encode p.1 p.2) = .ok (gs ++ gs') := by
  by_cases hps : ps = []
  · subst hps
    exact ⟨[],rfl,by simpa using hended⟩
  obtain ⟨rs₀,rs,hread,hread',hgateways⟩ := (readAll_of_decode h hended).resolve_right fun hclosed => by
    rw [hopen] at hclosed
    cases hclosed.1
  obtain ⟨gs',hgs',hnew⟩ := Record.gateways_pairs heven (0+rs.length)
  refine ⟨gs',hnew,?_⟩
  rw [decode_of_readAll (not_blank_of_encodings hps _) (Record.readAll_append_of_open hread hread' hopen ps),
    Record.gateways_append,hgateways]
  simp only [bind,Except.bind,hgs']

/-- Behind a file that does not leave its list open, written gateways make it unreadable. -/
theorem decode_append_of_closed (h : decode pub bytes = .ok gs) (hended : decode pub (bytes ++ lineEnd bytes) = .ok gs)
    (hclosed : Source.isOpen (.ofBytes bytes) = false) (hps : ps ≠ []) : ∃ fault,
      decode pub (bytes ++ lineEnd bytes ++ ps.flatMap fun p => Record.encode p.1 p.2) =
        .error (.decode (.known (.records fault))) := by
  have hfault : ∃ fault, Record.readAll (bytes ++ lineEnd bytes ++ ps.flatMap fun p => Record.encode p.1 p.2) =
      .error fault := by
    rcases readAll_of_decode h hended with ⟨rs₀,rs,hread,hread',-⟩ | ⟨-,hfault⟩
    · exact Record.readAll_append_of_closed hread hread' hclosed hps
    · exact hfault ps
  obtain ⟨fault,hfault⟩ := hfault
  exact ⟨fault,decode_of_fault (not_blank_of_encodings hps _) hfault⟩

end Gateway
end Keyring
