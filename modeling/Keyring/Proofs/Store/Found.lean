import Keyring.Proofs.LastRecord
import Keyring.Proofs.Store.Additions
import Keyring.Proofs.Store.Lookup

/-! What a store finds right behind an addition. Whatever it had in memory and whatever the file held, the list that it
reads then ends with the new gateway; a search for the local identifier gives it unless an earlier gateway of the file
has the same one. -/
namespace Keyring

namespace Gateway

variable {pub : PublicKeyMap} {id : Eui64} {key : Key} {old : Bytes} {gs gs' : List Gateway}

lemma lineEnd_ended (old : Bytes) : lineEnd (old ++ lineEnd old) = [] := by
  by_cases h : old ≠ [] ∧ old.getLast? ≠ some 0x0a
  · rw [show lineEnd old = [0x0a] from if_pos h,lineEnd,if_neg (by simp)]
  · rw [show lineEnd old = [] from if_neg h,List.append_nil,show lineEnd old = [] from if_neg h]

/-- What a file held, once its last line is ended, is what stands before the record that was put behind it. -/
lemma decode_written (heven : (pub key).IsEven) (hended : decode pub (old ++ lineEnd old) = .ok gs')
    (h : decode pub (old ++ lineEnd old ++ Record.encode id key) = .ok gs) :
    ∃ g, new pub id key = .ok g ∧ gs = gs' ++ [g] := by
  have hended' : decode pub (old ++ lineEnd old ++ lineEnd (old ++ lineEnd old)) = .ok gs' := by
    rw [lineEnd_ended,List.append_nil,hended]
  have hone : ∀ p ∈ [(id,key)], (pub p.2).IsEven := by simpa using heven
  have hwritten : old ++ lineEnd old ++ lineEnd (old ++ lineEnd old) ++
      ([(id,key)].flatMap fun p => Record.encode p.1 p.2) = old ++ lineEnd old ++ Record.encode id key := by
    rw [lineEnd_ended,List.append_nil,List.flatMap_singleton]
  cases hopen : Yaml.Source.isOpen (.ofBytes (old ++ lineEnd old)) with
  | true =>
    obtain ⟨gs₁,hgs₁,hdecode⟩ := decode_append_of_open hended hended' hopen hone
    obtain ⟨g,rfl⟩ : ∃ g, gs₁ = [g] := List.length_eq_one_iff.mp (by simpa using congrArg List.length hgs₁)
    rw [hwritten,h] at hdecode
    exact ⟨g,by simpa using hgs₁.symm,Except.ok.inj hdecode⟩
  | false =>
    obtain ⟨fault,hdecode⟩ := decode_append_of_closed hended hended' hopen (List.cons_ne_nil (id,key) [])
    rw [hwritten,h] at hdecode
    cases hdecode

end Gateway

namespace Store

variable {pub : PublicKeyMap} {fs : FileSystem} {s s' : Store} {path : String} {id : Eui64} {key : Key}
  {gs : List Gateway} {g : Gateway}

/-- A store that read the gateways `gs` and then the new one, `g`, behind an addition to these files. If the file could
be read with its last line ended, `gs` is what it held. -/
structure Added (pub : PublicKeyMap) (fs : FileSystem) (path : String) (id : Eui64) (key : Key) (gs : List Gateway)
    (g : Gateway) (s' : Store) : Prop where
  gateways : s'.gateways = gs ++ [g]
  identity : (pub key).identity = .ok ⟨g.networkId,g.thingsIxId⟩
  localId : g.localId = id
  key : g.key = key
  absent : fs.read path = .error .noSuchFile → gs = []
  present : ∀ old gs', fs.read path = .ok old → Gateway.decode pub (old ++ lineEnd old) = .ok gs' → gs = gs'

lemma Added.byLocalId_eq (h : Added pub fs path id key gs g s') (hfresh : ∀ g' ∈ gs, g'.localId ≠ id) :
    s'.byLocalId id = .ok g := by
  have hnone : gs.find? (·.localId = id) = none := List.find?_eq_none.mpr (by simpa using hfresh)
  rw [byLocalId,first_eq_ok_iff,h.gateways,List.find?_append,hnone]
  simp [h.localId]

lemma Added.byLocalId_earlier (h : Added pub fs path id key gs g s') {g' : Gateway}
    (hfirst : first (·.localId = id) gs = .ok g') : s'.byLocalId id = .ok g' := by
  rw [first_eq_ok_iff] at hfirst
  rw [byLocalId,first_eq_ok_iff,h.gateways,List.find?_append,hfirst]
  rfl

/-- An addition that succeeds passed all checks, and what it wrote was read. -/
lemma exists_of_add (h : (add pub fs s id key).result = .ok ()) :
    (∀ g ∈ s.gateways, g.localId ≠ id) ∧ (pub key).IsEven ∧ ∃ l gs, fs.target s.path = .ok l ∧
      Gateway.decode pub (writtenFile fs l id key).bytes = .ok gs ∧ (add pub fs s id key).store = ⟨s.path,gs⟩ := by
  have houtcome := outcome_add pub fs s id key
  generalize add pub fs s id key = a at h houtcome
  cases houtcome with
  | known | odd | unwritable | unreadable => cases h
  | @added l gs hfresh heven ht hd => exact ⟨hfresh,heven,l,gs,ht,hd,rfl⟩

/-- The list that an addition reads ends with the new gateway. -/
lemma exists_added (h : (add pub fs s id key).result = .ok ()) :
    ∃ gs g, Added pub fs s.path id key gs g (add pub fs s id key).store := by
  obtain ⟨-,heven,l,gs,htarget,hdecode,hstore⟩ := exists_of_add h
  obtain ⟨gs',g,hnew,rfl⟩ := Gateway.decode_last heven hdecode
  have hheld {gs₁ : List Gateway}
      (hended : Gateway.decode pub ((fs.file? l).elim [] (·.bytes) ++ lineEnd ((fs.file? l).elim [] (·.bytes))) =
        .ok gs₁) : gs' = gs₁ := by
    obtain ⟨g',-,heq⟩ := Gateway.decode_written heven hended hdecode
    exact (List.append_inj' heq rfl).1
  have hread := FileSystem.read_of_target htarget
  obtain ⟨hid,hkey⟩ := Gateway.fields_of_new hnew
  rw [hstore]
  refine ⟨gs',g,rfl,Gateway.identity_of_new hnew,hid,hkey,fun habsent => hheld ?_,fun old gs₁ hold hended => hheld ?_⟩
  · cases hf : fs.file? l with
    | none => rfl
    | some f =>
      rw [hread,hf] at habsent
      cases habsent
  · cases hf : fs.file? l with
    | none =>
      rw [hread,hf] at hold
      cases hold
    | some f =>
      rw [hread,hf] at hold
      cases hold
      exact hended

/-- Where an addition succeeds, the list in memory ends with the new gateway, of the identifier and the key that were
added; before it stands what the file held. A search for the local identifier then gives the first gateway of the list
that has it. That is the new one unless the file, which another store may have written, held an earlier one; if the
memory had all that the file held, it is the new one. A key that is drawn for an identifier that the file does not
hold is the key of the gateway that is given back. -/
theorem found_behind_addition (pub : PublicKeyMap) :
    (∀ (fs : FileSystem) (s : Store) (id : Eui64) (key : Key), (add pub fs s id key).result = .ok () →
      let s' := (add pub fs s id key).store
      ∃ gs g, Added pub fs s.path id key gs g s' ∧
        ((∀ g' ∈ gs, g'.localId ≠ id) → s'.byLocalId id = .ok g) ∧
        (∀ g', first (·.localId = id) gs = .ok g' → s'.byLocalId id = .ok g') ∧
        ((∀ g' ∈ gs, g' ∈ s.gateways) → s'.byLocalId id = .ok g)) ∧
    ∀ (fs : FileSystem) (s : Store) (id : Eui64) (source : KeySource pub) (found : Gateway),
      (generate pub fs s id source).result = .ok found →
      ∃ gs g, Added pub fs s.path id source.generate gs g (generate pub fs s id source).store ∧
        ((∀ g' ∈ gs, g'.localId ≠ id) → found = g) := by
  refine ⟨fun fs s id key h => ?_,fun fs s id source found h => ?_⟩
  · obtain ⟨gs,g,hadded⟩ := exists_added h
    exact ⟨gs,g,hadded,hadded.byLocalId_eq,fun g' => hadded.byLocalId_earlier,
      fun hknown => hadded.byLocalId_eq fun g' hg' => (exists_of_add h).1 g' (hknown g' hg')⟩
  · simp only [generate] at h ⊢
    cases hresult : (add pub fs s id source.generate).result with
    | error e =>
      rw [hresult] at h
      cases h
    | ok u =>
      obtain ⟨gs,g,hadded⟩ := exists_added hresult
      rw [hresult] at h
      refine ⟨gs,g,hadded,fun hfresh => ?_⟩
      exact Except.ok.inj (h.symm.trans (hadded.byLocalId_eq hfresh))

/-- The first addition of a store that was opened where there was no file. -/
lemma add_of_absent (heven : (pub key).IsEven) (id : Eui64) : ∃ g, Gateway.new pub id key = .ok g ∧
    (add pub {} ⟨"gateways.yaml",[]⟩ id key).result = .ok () ∧
    (add pub {} ⟨"gateways.yaml",[]⟩ id key).store = ⟨"gateways.yaml",[g]⟩ ∧
    (add pub {} ⟨"gateways.yaml",[]⟩ id key).files = single (Record.encode id key) := by
  obtain ⟨g,hg,hdecode⟩ := Gateway.decode_encode id heven
  have htarget : ({} : FileSystem).target "gateways.yaml" = .ok ["gateways.yaml"] := by decide
  rw [add_of_decode (s := ⟨"gateways.yaml",[]⟩) (l := ["gateways.yaml"]) (by simp) heven htarget hdecode]
  exact ⟨g,hg,rfl,rfl,rfl⟩

/-- An addition to a file of one record succeeds where the memory does not have the identifier, also if the record in
the file has it. -/
lemma add_of_record {first second : Key} (hfirst : (pub first).IsEven) (hsecond : (pub second).IsEven)
    (held id : Eui64) {memory : List Gateway} (hfresh : ∀ g ∈ memory, g.localId ≠ id) :
    ∃ g g', Gateway.new pub held first = .ok g ∧ Gateway.new pub id second = .ok g' ∧
      (add pub (single (Record.encode held first)) ⟨"gateways.yaml",memory⟩ id second).result = .ok () ∧
      (add pub (single (Record.encode held first)) ⟨"gateways.yaml",memory⟩ id second).store =
        ⟨"gateways.yaml",[g,g']⟩ := by
  have hboth : ∀ p ∈ [(held,first),(id,second)], (pub p.2).IsEven := by simpa using ⟨hfirst,hsecond⟩
  obtain ⟨gs,hdecode,hnew⟩ := Gateway.decode_encodings hboth
  obtain ⟨g,g',rfl⟩ : ∃ g g', gs = [g,g'] := List.length_eq_two.mp (by simpa using congrArg List.length hnew)
  have hbytes : (writtenFile (single (Record.encode held first)) ["gateways.yaml"] id second).bytes =
      [(held,first),(id,second)].flatMap fun p => Record.encode p.1 p.2 := by
    have hold : (writtenFile (single (Record.encode held first)) ["gateways.yaml"] id second).bytes =
        Record.encode held first ++ lineEnd (Record.encode held first) ++ Record.encode id second := rfl
    rw [hold,Record.lineEnd_encode]
    simp
  rw [← hbytes] at hdecode
  rw [add_of_decode (s := ⟨"gateways.yaml",memory⟩) hfresh hsecond (target_single _) hdecode]
  simp only [List.map_cons,List.map_nil,List.cons.injEq,and_true] at hnew
  exact ⟨g,g',hnew.1.symm,hnew.2.symm,rfl,rfl⟩

/-- Behind an addition to a file of one record, the list begins with the gateway of this record. -/
lemma Added.eq_singleton {first : Key} {held : Eui64} {g₀ : Gateway}
    (h : Added pub (single (Record.encode held first)) "gateways.yaml" id key gs g s') (hfirst : (pub first).IsEven)
    (hg₀ : Gateway.new pub held first = .ok g₀) : gs = [g₀] := by
  obtain ⟨g₁,hg₁,hdecode⟩ := Gateway.decode_encode held hfirst
  obtain rfl := Except.ok.inj (hg₁.symm.trans hg₀)
  apply h.present _ [g₁] (read_single _)
  rw [Record.lineEnd_encode,List.append_nil,hdecode]

/-- Another store wrote the file. A store that was opened before adds the identifier of the file's record with another
key and finds that record's gateway. One that read the file adds another identifier and finds the new gateway. So does
the first one when it draws the key, though the first key that it draws is odd. -/
theorem found_behind_addition_stale :
    let pub := Secp256k1.publicKey
    let stale : Store := ⟨"gateways.yaml",[]⟩
    let held : Eui64 := ⟨[0,1,2,3,4,5,6,7],rfl⟩
    let fresh : Eui64 := ⟨[0,1,2,3,4,5,6,0xff],rfl⟩
    let two : Key := ⟨2,by decide,by decide⟩
    let fs := single (Record.encode held .one)
    let a := add pub fs stale held two
    (a.result = .ok () ∧ ∃ gs g g', Added pub fs stale.path held two gs g a.store ∧
      first (·.localId = held) gs = .ok g' ∧ a.store.byLocalId held = .ok g' ∧ g'.key = .one) ∧
    (∃ s a, (openAt pub fs stale.path).2 = .ok s ∧ add pub fs s fresh two = a ∧ a.result = .ok () ∧
      ∃ gs g, Added pub fs s.path fresh two gs g a.store ∧ (∀ g' ∈ gs, g' ∈ s.gateways) ∧
        a.store.byLocalId fresh = .ok g) ∧
    ∃ (source : KeySource pub) (a : Addition Gateway) (found : Gateway), ¬(pub (source.draw 0)).IsEven ∧
      generate pub fs stale fresh source = a ∧ a.result = .ok found ∧
      ∃ gs g, Added pub fs stale.path fresh source.generate gs g a.store ∧ (∀ g' ∈ gs, g'.localId ≠ fresh) ∧
        found = g ∧ found.key = two := by
  intro pub stale held fresh two fs a
  have hone : (pub .one).IsEven := Secp256k1.isEven_publicKey_one
  have htwo : (pub two).IsEven := by decide +kernel
  have hodd : ¬(pub Key.one.neg).IsEven := by decide +kernel
  have hne : held ≠ fresh := by decide
  clear_value pub held fresh two
  obtain ⟨g₀,hg₀,hdecode⟩ := Gateway.decode_encode held hone
  obtain ⟨hid,hkey⟩ := Gateway.fields_of_new hg₀
  have hbefore : ∀ g' ∈ [g₀], g'.localId ≠ fresh := by simpa [hid] using hne
  have hadd {id : Eui64} {memory : List Gateway} (hid : ∀ g ∈ memory, g.localId ≠ id) :
      (add pub fs ⟨"gateways.yaml",memory⟩ id two).result = .ok () := by
    obtain ⟨-,-,-,-,hresult,-⟩ := add_of_record hone htwo held id hid
    exact hresult
  have hheld : a.result = .ok () := hadd nofun
  have hfresh : (add pub fs stale fresh two).result = .ok () := hadd nofun
  have hknown : (add pub fs ⟨"gateways.yaml",[g₀]⟩ fresh two).result = .ok () := hadd hbefore
  refine ⟨⟨hheld,?_⟩,⟨⟨"gateways.yaml",[g₀]⟩,_,?_,rfl,hknown,?_⟩,?_⟩
  · obtain ⟨gs,g,hadded,-,hearlier,-⟩ := (found_behind_addition pub).1 fs stale held two hheld
    obtain rfl := hadded.eq_singleton hone hg₀
    have hfirst : first (·.localId = held) [g₀] = .ok g₀ := by simp [first,hid]
    exact ⟨[g₀],g,g₀,hadded,hfirst,hearlier g₀ hfirst,hkey⟩
  · rw [openAt_of_read (read_single _),hdecode]
    rfl
  · obtain ⟨gs,g,hadded,-,-,hall⟩ := (found_behind_addition pub).1 fs ⟨"gateways.yaml",[g₀]⟩ fresh two hknown
    obtain rfl := hadded.eq_singleton hone hg₀
    exact ⟨[g₀],g,hadded,fun _ => id,hall fun _ => id⟩
  · let source : KeySource pub := ⟨fun i => if i = 0 then Key.one.neg else two,1,htwo⟩
    have hsource : source.generate = two := by
      rw [KeySource.generate,KeySource.firstFrom]
      refine (dif_neg hodd).trans ?_
      rw [KeySource.firstFrom]
      exact dif_pos htwo
    obtain ⟨gs,g,hadded,hnew,-⟩ := (found_behind_addition pub).1 fs stale fresh two hfresh
    obtain rfl := hadded.eq_singleton hone hg₀
    have hresult : (generate pub fs stale fresh source).result = .ok g := by
      simp only [generate,hsource,hfresh,hnew hbefore]
    obtain ⟨gs,g',hdrawn,hfound⟩ := (found_behind_addition pub).2 fs stale fresh source g hresult
    obtain rfl := hdrawn.eq_singleton hone hg₀
    exact ⟨source,_,g,hodd,rfl,hresult,[g₀],g',hdrawn,hbefore,hfound hbefore,hadded.key⟩

/-- A store that was opened before another one wrote the file adds the same identifier with a key of its own, and finds
the other key. So does one that draws its key. -/
theorem found_other_key :
    let pub := Secp256k1.publicKey
    let s : Store := ⟨"gateways.yaml",[]⟩
    let id := Id.zero .eui64
    let two : Key := ⟨2,by decide,by decide⟩
    let fs := (add pub {} s id .one).files
    (openAt pub {} s.path).2 = .ok s ∧ (add pub {} s id .one).result = .ok () ∧ (pub two).IsEven ∧
    (add pub fs s id two).result = .ok () ∧
    (∃ g, (add pub fs s id two).store.byLocalId id = .ok g ∧ g.key ≠ two) ∧
    ∃ (source : KeySource pub) (g : Gateway), source.generate = two ∧
      (generate pub fs s id source).result = .ok g ∧ g.key ≠ two := by
  intro pub s id two fs
  have hone : (pub .one).IsEven := Secp256k1.isEven_publicKey_one
  have htwo : (pub two).IsEven := by decide +kernel
  have hne : Key.one ≠ two := by decide
  have hopen : (openAt pub {} s.path).2 = .ok s := by
    have hread : ({} : FileSystem).read "gateways.yaml" = .error .noSuchFile := by decide
    simp only [openAt,reload,load,s,hread]
    rfl
  clear_value pub two
  obtain ⟨-,-,hresult,-,hfiles⟩ := add_of_absent hone id
  obtain ⟨g,g',hg,-,hresult',hstore⟩ := add_of_record hone htwo id id (List.forall_mem_nil _)
  obtain ⟨hid,hkey⟩ := Gateway.fields_of_new hg
  have hfs : fs = single (Record.encode id .one) := hfiles
  have hfound : (add pub fs s id two).store.byLocalId id = .ok g := by
    rw [hfs,hstore]
    simp [byLocalId,first,hid]
  have hresult'' : (add pub fs s id two).result = .ok () := by rw [hfs,hresult']
  have hkey' : g.key ≠ two := hkey ▸ hne
  let source : KeySource pub := ⟨fun _ => two,0,htwo⟩
  have hsource : source.generate = two := by
    rw [KeySource.generate,KeySource.firstFrom]
    exact dif_pos htwo
  refine ⟨hopen,hresult,htwo,hresult'',⟨g,hfound,hkey'⟩,source,g,hsource,?_,hkey'⟩
  simp only [generate,hsource,hresult'',hfound]

end Store
end Keyring
