import Keyring.Proofs.Store.Found

/-! Gateways with keys that are drawn. A search for an even key ends with the first one that there is, so no addition of
a drawn key is refused for the key; and behind records that stores wrote, every such addition succeeds unless the
identifier is known, and is found again. -/
namespace Keyring

variable {pub : PublicKeyMap}

namespace KeySource

/-- A search for an even key among those that are drawn from the place `i` on. The keys that were drawn in vain are
given in their order, and then the one that ended the search. -/
inductive Search (s : KeySource pub) : (i : Nat) → List Key → Key → Prop
  | found {i : Nat} (even : (pub (s.draw i)).IsEven) : Search s i [] (s.draw i)
  | missed {i : Nat} {keys : List Key} {key : Key} (odd : ¬(pub (s.draw i)).IsEven) (later : Search s (i+1) keys key) :
      Search s i (s.draw i :: keys) key

/-- The search from any place on ends at the first even key of all. -/
lemma exists_search (s : KeySource pub) (i : s.Open) : ∃ n, i.val ≤ n ∧ (∀ j < n, ¬(pub (s.draw j)).IsEven) ∧
    (pub (s.draw n)).IsEven ∧ s.firstFrom i = s.draw n ∧
    s.Search i.val ((List.range' i.val (n-i.val)).map s.draw) (s.firstFrom i) := by
  induction i using firstFrom.induct s with
  | case1 i heven =>
    refine ⟨i.val,Nat.le_refl _,i.property,heven,?_⟩
    rw [firstFrom,dif_pos heven,Nat.sub_self]
    exact ⟨rfl,.found heven⟩
  | case2 i hodd ih =>
    obtain ⟨n,hn,hbefore,heven,hfirst,hsearch⟩ := ih
    have hle : i.val+1 ≤ n := hn
    have hrange : List.range' i.val (n-i.val) = i.val :: List.range' (i.val+1) (n-(i.val+1)) := by
      rw [← List.range'_succ]
      congr 1
      omega
    refine ⟨n,by omega,hbefore,heven,?_⟩
    rw [firstFrom,dif_neg hodd,hrange,List.map_cons]
    exact ⟨hfirst,.missed hodd hsearch⟩

/-- Searches do not differ. -/
lemma Search.unique {s : KeySource pub} {i : Nat} {keys keys' : List Key} {key key' : Key} (h : s.Search i keys key)
    (h' : s.Search i keys' key') : keys = keys' ∧ key = key' := by
  induction h generalizing keys' key' with
  | found heven =>
    cases h' with
    | found => exact ⟨rfl,rfl⟩
    | missed hodd => exact absurd heven hodd
  | missed hodd _ ih =>
    cases h' with
    | found heven => exact absurd heven hodd
    | missed _ hlater =>
      obtain ⟨rfl,rfl⟩ := ih hlater
      exact ⟨rfl,rfl⟩

end KeySource

namespace Store

/-- The effect of adding a gateway with a drawn key to a file of which the bytes `old` are records. -/
structure GenerationEffect (pub : PublicKeyMap) (fs : FileSystem) (s : Store) (id : Eui64) (source : KeySource pub)
    (ps : List (Eui64 × Key)) (old : Bytes) (a : Addition Gateway) : Prop where
  ok_iff : (∃ found, a.result = .ok found) ↔ ∀ g ∈ s.gateways, g.localId ≠ id
  known : (∃ g ∈ s.gateways, g.localId = id) → a = ⟨s,fs,[],.error (.alreadyExists id)⟩
  appended : (∀ g ∈ s.gateways, g.localId ≠ id) →
    a.files.read s.path = .ok (old ++ Record.encode id source.generate) ∧
    ∃ gs g found, gs.map .ok = (ps.map fun p => Gateway.new pub p.1 p.2) ∧
      Gateway.new pub id source.generate = .ok g ∧ g.key = source.generate ∧
      (openAt pub a.files s.path).2 = .ok ⟨s.path,gs ++ [g]⟩ ∧ a.store = ⟨s.path,gs ++ [g]⟩ ∧
      a.result = .ok found ∧ found ∈ gs ++ [g] ∧ found.localId = id

variable {fs : FileSystem} {s : Store} {id : Eui64} {source : KeySource pub} {ps : List (Eui64 × Key)} {l : Location}

/-- Whatever a file holds, the key is not what an addition of a drawn key fails for. -/
lemma generate_ne_derivationFailed (fs : FileSystem) (s : Store) (id : Eui64) (source : KeySource pub)
    (cause : Cause IdentityFault) : (generate pub fs s id source).result ≠ .error (.derivationFailed cause) := by
  simp only [generate]
  cases hresult : (add pub fs s id source.generate).result with
  | error e =>
    intro h
    obtain rfl := Except.error.inj h
    exact ((addition_effect fs s id source.generate).odd_iff.mp ⟨cause,hresult⟩).2 source.isEven_generate
  | ok u =>
    intro h
    cases eq_notFound_of_first h

/-- A store that is opened on records holds their gateways. -/
lemma openAt_of_kept {session : Session} {path : String} (h : Session.Kept pub path l session ps) {gs : List Gateway}
    (hnew : gs.map .ok = ps.map fun p => Gateway.new pub p.1 p.2) :
    (openAt pub session.files path).2 = .ok ⟨path,gs⟩ := by
  obtain ⟨gs',hnew',hreload⟩ := h.reload ⟨path,[]⟩ rfl
  obtain rfl : gs' = gs := List.map_injective_iff.mpr (fun _ _ => Except.ok.inj) (hnew'.trans hnew.symm)
  simp only [openAt,hreload]

lemma read_of_written (h : Session.Kept pub s.path l ⟨fs,[]⟩ ps) (id : Eui64) {key : Key} (heven : (pub key).IsEven) :
    (fs.put l (writtenFile fs l id key)).read s.path =
      .ok ((ps.flatMap fun p => Record.encode p.1 p.2) ++ Record.encode id key) := by
  have hbytes := (h.written id heven).bytes
  rw [FileSystem.file?_put_self,List.flatMap_append,List.flatMap_singleton] at hbytes
  rw [FileSystem.read_put h.target,← hbytes]
  rfl

/-- Additions of drawn keys behind records that stores wrote. -/
lemma GenerationEffect.of_kept (h : Session.Kept pub s.path l ⟨fs,[]⟩ ps) (id : Eui64) (source : KeySource pub) :
    GenerationEffect pub fs s id source ps (ps.flatMap fun p => Record.encode p.1 p.2)
      (generate pub fs s id source) := by
  have hnot (hknown : ∃ g ∈ s.gateways, g.localId = id) : ¬∀ g ∈ s.gateways, g.localId ≠ id := fun hfresh =>
    hknown.elim fun g hg => hfresh g hg.1 hg.2
  rcases h.add (rfl : s.path = s.path) id source.generate with ⟨hknown,hadd⟩ | ⟨hfresh,⟨hodd,-⟩ | ⟨heven,gs,log,hnew,hadd⟩⟩
  · rw [generate,hadd]
    exact ⟨iff_of_false (by simp) (hnot hknown),fun _ => rfl,fun hfresh => absurd hfresh (hnot hknown)⟩
  · exact absurd source.isEven_generate hodd
  · obtain ⟨found,hfound,hid⟩ := Session.byLocalId_of_new s.path hnew
    have hmem : found ∈ gs := mem_of_find (s := ⟨s.path,gs⟩) (q := .localId id) hfound
    have hopen := openAt_of_kept (h.written id heven) hnew
    rw [List.map_append,List.map_eq_append_iff] at hnew
    obtain ⟨gs',last,rfl,hnew',hlast⟩ := hnew
    obtain ⟨g,rfl,hg⟩ := List.map_eq_singleton_iff.mp hlast
    simp only [generate,hadd,hfound]
    refine ⟨iff_of_true ⟨found,rfl⟩ hfresh,fun hknown => absurd hfresh (hnot hknown),fun _ => ?_⟩
    exact ⟨read_of_written h id heven,gs',g,found,hnew',hg.symm,(Gateway.fields_of_new hg.symm).2,hopen,rfl,rfl,hmem,hid⟩

/-- A search for an even key passes over the odd ones, and ends with the first even one. So an addition of a drawn key
is never refused for the key. Let a file be absent or empty, or let it hold any records that stores wrote. Then such an
addition succeeds exactly if the identifier is not in memory, whatever else is there, and otherwise changes nothing.
It appends one record and finds a gateway of its identifier; a store that is opened then holds the earlier gateways and
the new one. -/
theorem drawn_key_usable (pub : PublicKeyMap) :
    (∀ source : KeySource pub, ∃ n, (∀ j < n, ¬(pub (source.draw j)).IsEven) ∧ (pub (source.draw n)).IsEven ∧
      source.generate = source.draw n ∧
      ∀ keys key, source.Search 0 keys key ↔ keys = (List.range n).map source.draw ∧ key = source.generate) ∧
    (∀ (fs : FileSystem) (s : Store) (id : Eui64) (source : KeySource pub) (cause : Cause IdentityFault),
      (generate pub fs s id source).result ≠ .error (.derivationFailed cause)) ∧
    ∀ (fs : FileSystem) (s : Store) (id : Eui64) (source : KeySource pub) (l : Location) (ps : List (Eui64 × Key)),
      fs.target s.path = .ok l → (∀ p ∈ ps, (pub p.2).IsEven) →
      (fs.fileAt? s.path).elim [] (·.bytes) = (ps.flatMap fun p => Record.encode p.1 p.2) →
      GenerationEffect pub fs s id source ps ((fs.fileAt? s.path).elim [] (·.bytes)) (generate pub fs s id source) := by
  refine ⟨fun source => ?_,generate_ne_derivationFailed,fun fs s id source l ps htarget heven hbytes => ?_⟩
  · obtain ⟨n,-,hbefore,heven,hfirst,hsearch⟩ := source.exists_search ⟨0,fun _ h => absurd h (Nat.not_lt_zero _)⟩
    rw [Nat.sub_zero,← List.range_eq_range'] at hsearch
    exact ⟨n,hbefore,heven,hfirst,fun keys key => ⟨fun h => h.unique hsearch,fun ⟨hkeys,hkey⟩ => hkeys ▸ hkey ▸ hsearch⟩⟩
  · rw [hbytes]
    rw [FileSystem.fileAt?_of_target htarget] at hbytes
    exact .of_kept ⟨htarget,hbytes,heven,by simp,by simp⟩ id source

/-- The first key that is drawn is odd. The file, which another store wrote, holds the identifier already, but the
memory does not. -/
theorem drawn_key_usable_stale :
    let pub := Secp256k1.publicKey
    let id := Id.zero .eui64
    let ps := [(id,Key.one)]
    let fs := single (Record.encode id .one)
    let s : Store := ⟨"gateways.yaml",[]⟩
    fs.target s.path = .ok [s.path] ∧ (∀ p ∈ ps, (pub p.2).IsEven) ∧
    (fs.fileAt? s.path).elim [] (·.bytes) = (ps.flatMap fun p => Record.encode p.1 p.2) ∧
    ∃ source : KeySource pub, ¬(pub (source.draw 0)).IsEven ∧
      GenerationEffect pub fs s id source ps ((fs.fileAt? s.path).elim [] (·.bytes)) (generate pub fs s id source) := by
  have hone := Secp256k1.isEven_publicKey_one
  have hodd : ¬(Secp256k1.publicKey Key.one.neg).IsEven := by decide +kernel
  intro pub id ps fs s
  have htarget : fs.target s.path = .ok [s.path] := target_single _
  have heven : ∀ p ∈ ps, (pub p.2).IsEven := by simpa [ps] using hone
  have hbytes : (fs.fileAt? s.path).elim [] (·.bytes) = (ps.flatMap fun p => Record.encode p.1 p.2) := by
    rw [FileSystem.fileAt?_of_target htarget,List.flatMap_singleton]
    rfl
  let source : KeySource pub := ⟨fun i => if i = 0 then Key.one.neg else .one,1,hone⟩
  exact ⟨htarget,heven,hbytes,source,hodd,
    (drawn_key_usable pub).2.2 fs s id source [s.path] ps htarget heven hbytes⟩

end Store
end Keyring
