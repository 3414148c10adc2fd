import Keyring.Proofs.Extension
import Keyring.Proofs.Yaml.LastEntry

/-! Files that end with a written record. Whatever stands before it, the record is the last one read, if the file can be
read. -/
namespace Keyring

open Yaml (Document Source)

namespace Record

variable {id : Eui64} {key : Key} {old : Bytes} {rs : List Record} {t r : List Char}

lemma isPlainWord_of_mem_written {c : Char} (ht : ∀ c ∈ t, Yaml.isPlainWord c) (hc : c ∈ written t) :
    c = '\'' ∨ Yaml.isPlainWord c := by
  rw [written] at hc
  split_ifs at hc
  · rw [List.mem_append,List.mem_cons,List.mem_singleton] at hc
    rcases hc with (rfl | hc) | rfl
    · exact .inl rfl
    · exact .inr (ht c hc)
    · exact .inl rfl
  · exact .inr (ht c hc)

lemma quotesWord_written (hne : t ≠ []) (ht : ∀ c ∈ t, Yaml.isPlainWord c) (hr : Yaml.QuotesWord r) :
    Yaml.QuotesWord (written t ++ r) := by
  rw [written]
  split_ifs
  · obtain ⟨c,t,rfl⟩ := List.exists_cons_of_ne_nil hne
    intro p z h hp
    cases p with
    | nil =>
      obtain ⟨-,rfl⟩ := List.cons.inj h
      exact ⟨c,_,rfl,ht c List.mem_cons_self⟩
    | cons d p =>
      obtain ⟨rfl,-⟩ := List.cons.inj h
      exact absurd List.mem_cons_self hp
  · refine hr.append fun hmem => ?_
    have hquote := ht _ hmem
    cases hquote

/-- The texts of a written record that are the same for all of them. -/
lemma not_mem_names {c : Char} (hc : c ∈ "- local_id: ".toList ++ ("\n  private_key: ".toList ++ ['\n'])) :
    c ∉ ['"',']','\x7d','\''] := by
  have hall : ("- local_id: ".toList ++ ("\n  private_key: ".toList ++ ['\n'])).all
      (fun c => c ∉ ['"',']','\x7d','\'']) = true := by decide +kernel
  simpa using List.all_eq_true.mp hall c hc

/-- A written record closes no brackets, and what it puts in quotes is a word. -/
lemma tame_entry (p : Eui64 × Key) : Yaml.Tame (entry p).text := by
  have hid : ∀ c ∈ p.1.toHex.toList, Yaml.isPlainWord c := Hex.isPlainWord_of_mem_encode
  have hkey : ∀ c ∈ p.2.toHex.toList, Yaml.isPlainWord c := Hex.isPlainWord_of_mem_encode
  have htext : (entry p).text = "- local_id: ".toList ++ (written p.1.toHex.toList ++
      ("\n  private_key: ".toList ++ (written p.2.toHex.toList ++ ['\n']))) := by
    rw [text_entry,ofPair,write_mk]
    simp only [List.append_assoc]
  have hwritten {t : List Char} (ht : ∀ c ∈ t, Yaml.isPlainWord c) {c : Char} (hc : c ∈ written t) :
      c ∉ ['"',']','\x7d'] := by
    rcases isPlainWord_of_mem_written ht hc with rfl | hc
    · decide
    · simp [Yaml.ne_of_isPlainWord (d := '"') hc rfl,Yaml.ne_of_isPlainWord (d := ']') hc rfl,
        Yaml.ne_of_isPlainWord (d := '\x7d') hc rfl]
  have hname {c : Char} (hc : c ∈ "- local_id: ".toList ∨ c ∈ "\n  private_key: ".toList ∨ c ∈ ['\n']) :
      c ∉ ['"',']','\x7d','\''] := not_mem_names (by rwa [List.mem_append,List.mem_append])
  have hall : ∀ c ∈ (entry p).text, c ∉ ['"',']','\x7d'] := by
    have hname' {c : Char} (hc : c ∈ "- local_id: ".toList ∨ c ∈ "\n  private_key: ".toList ∨ c ∈ ['\n']) :
      c ∉ ['"',']','\x7d'] := fun h => hname hc (List.mem_append_left ['\''] h)
    intro c hc
    rw [htext] at hc
    rcases List.mem_append.mp hc with hc | hc
    · exact hname' (.inl hc)
    rcases List.mem_append.mp hc with hc | hc
    · exact hwritten hid hc
    rcases List.mem_append.mp hc with hc | hc
    · exact hname' (.inr (.inl hc))
    rcases List.mem_append.mp hc with hc | hc
    · exact hwritten hkey hc
    · exact hname' (.inr (.inr hc))
  have hlast : Yaml.QuotesWord (['\n'] ++ []) := .append (by decide) fun p z h _ => by cases p <;> cases h
  refine ⟨⟨_,(entry p).text_append [] ▸ (List.append_nil _).symm⟩,fun h => hall _ h List.mem_cons_self,
    fun c hc =>
    ⟨fun h => hall c hc (by simp [h]),fun h => hall c hc (by simp [h])⟩,?_⟩
  rw [htext]
  refine .append (fun h => hname (.inl h) (by decide)) (quotesWord_written (toHex_ne p.1) hid ?_)
  exact .append (fun h => hname (.inr (.inl h)) (by decide)) (quotesWord_written (toHex_key_ne p.2) hkey hlast)

/-- What stands before a written record in a text that is known to its end is a text that is known to its end. -/
lemma margin_of_encode (h : (Source.ofBytes (old ++ lineEnd old ++ encode id key)).margin = []) :
    (Source.ofBytes old).margin = [] := by
  obtain ⟨t,ht,-⟩ := Source.eq_utf8_of_margin h
  obtain ⟨b,bytes,hb,hbytes⟩ : ∃ b bytes, ¬Text.IsTail b ∧ lineEnd old ++ encode id key = b :: bytes := by
    rw [lineEnd]
    split_ifs
    · exact ⟨0x0a,encode id key,by decide,rfl⟩
    · exact ⟨0x2d,_,by decide,rfl⟩
  rw [List.append_assoc,hbytes] at ht h
  obtain ⟨u,v,rfl,hv⟩ := Text.exists_utf8_of_append hb ht.symm
  rw [hv] at h
  rw [(margin_of_append h).1]

/-- Where items are read from the begin of a written record on, it is the only one. -/
lemma eq_of_items {d : Document} {p : Eui64 × Key} {n i j : Nat} {w : Yaml.Walk}
    (h : Document.items (read d) n i ⟨(entry p).events ++ [.sequenceEnd],j⟩ = .ok (rs,w)) : rs = [ofPair p] := by
  have hone : ∀ n, 1 < n → Document.items (read d) n i ⟨(entry p).events ++ [.sequenceEnd],j⟩ =
      .ok ([ofPair p],⟨[],j⟩) := by
    intro n hn
    have hitems := items_of_reads d (forall₂_reads [p]) hn i [] j
    rwa [List.map_singleton,List.flatMap_singleton] at hitems
  cases n with
  | zero => cases h
  | succ n =>
    cases n with
    | zero =>
      obtain ⟨⟨r,v⟩,-,h⟩ := Document.exists_of_bind h
      cases h
    | succ n =>
      rw [hone (n+2) (by omega)] at h
      cases h
      rfl

/-- The record that a file ends with is the last one that is read. -/
theorem readAll_last (h : readAll (old ++ lineEnd old ++ encode id key) = .ok rs) :
    ∃ rs', rs = rs' ++ [ofPair (id,key)] := by
  obtain ⟨hcounts,hroot⟩ := readAll_eq_ok_iff.mp h
  obtain ⟨joint,hjoint,happend⟩ := ofBytes_encodings (margin_of_encode (margin_of_counts hcounts))
  have hsource := happend [(id,key)]
  rw [List.flatMap_singleton,List.map_singleton,List.flatMap_singleton] at hsource
  have hg : (Source.ofBytes old).chars ++ joint = [] ∨ ((Source.ofBytes old).chars ++ joint).getLast? = some '\n' := by
    rcases hjoint with rfl | ⟨rfl,hended⟩
    · exact .inr List.getLast?_concat
    · rwa [List.append_nil]
  generalize (Source.ofBytes old).chars ++ joint = g at hsource hg
  rw [hsource] at hcounts hroot
  rcases Document.events_append_entry hg (tame_entry (id,key)) hcounts with ⟨r,hevents⟩ | ⟨r,hevents,hnest⟩
  · rw [Document.rootList,hevents] at hroot
    cases hroot
  generalize Document.ofSource ⟨g ++ (entry (id,key)).text,[]⟩ = d at *
  rw [Document.rootList,hevents] at hroot
  obtain ⟨⟨l,w⟩,hitems,hroot⟩ := Document.exists_of_bind hroot
  cases hroot
  obtain ⟨m,k,j,as,bs,rfl,hbs⟩ := Document.items_split (fun i => takesNode_read d _) hitems hnest
  exact ⟨as,by rw [eq_of_items hbs]⟩

end Record

namespace Gateway

variable {pub : PublicKeyMap} {id : Eui64} {key : Key} {old : Bytes} {gs : List Gateway}

/-- The gateway that was written last is the last one of the list. -/
theorem decode_last (heven : (pub key).IsEven)
    (h : decode pub (old ++ lineEnd old ++ Record.encode id key) = .ok gs) :
    ∃ gs' g, new pub id key = .ok g ∧ gs = gs' ++ [g] := by
  have hblank := not_blank_of_encodings (List.cons_ne_nil (id,key) []) (old ++ lineEnd old)
  rw [List.flatMap_singleton] at hblank
  obtain ⟨rs,hread,hgateways⟩ := exists_of_decode hblank h
  obtain ⟨rs',rfl⟩ := Record.readAll_last hread
  rw [Record.gateways_append] at hgateways
  have hone : ∀ p ∈ [(id,key)], (pub p.2).IsEven := by simpa using heven
  obtain ⟨gs₁,hgs₁,hnew⟩ := Record.gateways_pairs hone (0+rs'.length)
  obtain ⟨g,rfl⟩ : ∃ g, gs₁ = [g] := List.length_eq_one_iff.mp (by simpa using congrArg List.length hnew)
  rw [List.map_singleton] at hgs₁
  rw [hgs₁] at hgateways
  cases hfirst : Record.gateways pub 0 rs' with
  | error e =>
    rw [hfirst] at hgateways
    cases hgateways
  | ok gs' =>
    rw [hfirst] at hgateways
    cases hgateways
    exact ⟨gs',g,by simpa using hnew.symm,rfl⟩

end Gateway
end Keyring
