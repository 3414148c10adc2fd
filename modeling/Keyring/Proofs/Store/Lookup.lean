import Keyring.Proofs.Store.Interleaving

/-! What a store finds. A search gives the first gateway in memory that has the identifier. If the file of a store only
ever grows, what a store has found once it finds for good. -/
namespace Keyring

namespace Store

/-- What is searched for: one of the identifiers, or bytes from outside that should be one. -/
inductive Query where
  | localId (id : Eui64)
  | networkId (id : Eui64)
  | thingsIxId (id : ThingsIxId)
  | localIdBytes (bytes : Bytes)
  | networkIdBytes (bytes : Bytes)

def find (s : Store) : Query → Except Error Gateway
  | .localId id => s.byLocalId id
  | .networkId id => s.byNetworkId id
  | .thingsIxId id => s.byThingsIxId id
  | .localIdBytes bytes => s.byLocalIdBytes bytes
  | .networkIdBytes bytes => s.byNetworkIdBytes bytes

/-- A search gives the gateway at the least place where the property holds. Its only failure is that there is none. -/
structure IsFirst (p : Gateway → Prop) (gs : List Gateway) (found : Except Error Gateway) : Prop where
  found_iff : ∀ g, found = .ok g ↔
    ∃ i : Nat, gs[i]? = some g ∧ p g ∧ ∀ j : Nat, j < i → ∀ g', gs[j]? = some g' → ¬p g'
  failed_iff : ∀ e, found = .error e ↔ e = .notFound ∧ ∀ g ∈ gs, ¬p g

variable {s s' : Store} {q : Query} {g : Gateway}

lemma find?_eq_some_iff {p : Gateway → Prop} [DecidablePred p] {gs : List Gateway} :
    gs.find? (fun g => p g) = some g ↔
      ∃ i : Nat, gs[i]? = some g ∧ p g ∧ ∀ j : Nat, j < i → ∀ g', gs[j]? = some g' → ¬p g' := by
  rw [List.find?_eq_some_iff_getElem]
  constructor
  · rintro ⟨hg,i,hi,rfl,hbefore⟩
    refine ⟨i,List.getElem?_eq_getElem hi,by simpa using hg,fun j hj g' hg' => ?_⟩
    obtain ⟨hj',rfl⟩ := List.getElem?_eq_some_iff.mp hg'
    simpa using hbefore j hj
  · rintro ⟨i,hi,hg,hbefore⟩
    obtain ⟨hi',rfl⟩ := List.getElem?_eq_some_iff.mp hi
    refine ⟨by simpa using hg,i,hi',rfl,fun j hj => ?_⟩
    simpa using hbefore j hj _ (List.getElem?_eq_getElem (hj.trans hi'))

lemma isFirst_first (p : Gateway → Prop) [DecidablePred p] (gs : List Gateway) :
    IsFirst p gs (first (fun g => p g) gs) where
  found_iff g := by rw [first_eq_ok_iff,find?_eq_some_iff]
  failed_iff e := by
    constructor
    · intro h
      refine ⟨eq_notFound_of_first h,fun g hg hp => ?_⟩
      obtain ⟨g',-,hfound,-⟩ := exists_first (p := fun g => p g) hg (decide_eq_true hp)
      cases h.symm.trans hfound
    · rintro ⟨rfl,hnone⟩
      have hfind : gs.find? (fun g => p g) = none := by simpa using hnone
      rw [first,hfind]

lemma idOfBytes_of_length {bytes : Bytes} (h : bytes.length = 8) : idOfBytes bytes = .ok ⟨bytes,h⟩ := by
  simp [idOfBytes,Id.ofBytes,IdKind.width,h,Except.mapError]

lemma idOfBytes_of_length_ne {bytes : Bytes} (h : bytes.length ≠ 8) :
    idOfBytes bytes = .error (.invalidId 8 bytes.length) := by
  simp [idOfBytes,Id.ofBytes,IdKind.width,h,Except.mapError,Error.ofIdFault]

variable (s) in
/-- Bytes that are an identifier are searched for as that. -/
lemma byBytes_of_length {bytes : Bytes} (h : bytes.length = 8) :
    s.byLocalIdBytes bytes = s.byLocalId ⟨bytes,h⟩ ∧ s.byNetworkIdBytes bytes = s.byNetworkId ⟨bytes,h⟩ := by
  simp only [byLocalIdBytes,byNetworkIdBytes,idOfBytes_of_length h]
  exact ⟨rfl,rfl⟩

variable (s) in
/-- Other bytes are refused. -/
lemma byBytes_of_length_ne {bytes : Bytes} (h : bytes.length ≠ 8) :
    s.byLocalIdBytes bytes = .error (.invalidId 8 bytes.length) ∧
      s.byNetworkIdBytes bytes = .error (.invalidId 8 bytes.length) := by
  simp only [byLocalIdBytes,byNetworkIdBytes,idOfBytes_of_length_ne h]
  exact ⟨rfl,rfl⟩

/-- A query searches for a property, or it is refused whatever the store holds. -/
lemma find_cases (q : Query) :
    (∃ p, ∀ s : Store, s.find q = first p s.gateways) ∨ ∃ e, ∀ s : Store, s.find q = .error e := by
  cases q with
  | localId id => exact .inl ⟨(·.localId = id),fun _ => rfl⟩
  | networkId id => exact .inl ⟨(·.networkId = id),fun _ => rfl⟩
  | thingsIxId id => exact .inl ⟨(·.thingsIxId = id),fun _ => rfl⟩
  | localIdBytes bytes =>
    by_cases h : bytes.length = 8
    · exact .inl ⟨(·.localId = ⟨bytes,h⟩),fun s => (byBytes_of_length s h).1⟩
    · exact .inr ⟨_,fun s => (byBytes_of_length_ne s h).1⟩
  | networkIdBytes bytes =>
    by_cases h : bytes.length = 8
    · exact .inl ⟨(·.networkId = ⟨bytes,h⟩),fun s => (byBytes_of_length s h).2⟩
    · exact .inr ⟨_,fun s => (byBytes_of_length_ne s h).2⟩

/-- What is found does not change when the list grows at its end. -/
lemma find_of_prefix (h : s.gateways <+: s'.gateways) (hg : s.find q = .ok g) : s'.find q = .ok g := by
  rcases find_cases q with ⟨p,hp⟩ | ⟨e,he⟩
  · rw [hp,first_eq_ok_iff] at hg ⊢
    exact h.find?_eq_some hg
  · rw [he] at hg
    cases hg

lemma mem_of_find (hg : s.find q = .ok g) : g ∈ s.gateways := by
  rcases find_cases q with ⟨p,hp⟩ | ⟨e,he⟩
  · rw [hp,first_eq_ok_iff] at hg
    exact List.mem_of_find?_eq_some hg
  · rw [he] at hg
    cases hg

end Store

namespace Session

variable {pub : PublicKeyMap} {path : String} {l : Location} {s : Session} {ps : List (Eui64 × Key)}

/-- A store that is there is still there behind a request. -/
lemma Kept.exists_store? (h : Kept pub path l s ps) {name : String} {request : StoreRequest pub}
    (hr : Stays path request) {s' : Session} {log : List LogLine} (houtcome : Outcome s name request s' log)
    {st : Store} (hst : s.store? name = some st) : ∃ st', s'.store? name = some st' := by
  cases houtcome with
  | idle => exact ⟨st,hst⟩
  | unopened hopens hopen =>
    obtain rfl := hr.path_eq hopens
    obtain ⟨gs,-,hreload⟩ := h.reload ⟨_,[]⟩ rfl
    simp only [Store.openAt,hreload,Prod.mk.injEq,reduceCtorEq,and_false] at hopen
  | unconfigured htext herror =>
    subst htext
    obtain ⟨config,hconfig,-⟩ := hr
    cases hconfig.symm.trans herror
  | opened | reloaded | added => exact ⟨_,store?_setStore_self ..⟩

/-- The list of every store grows at its end only. -/
lemma Kept.store?_request (h : Kept pub path l s ps) (other : String) {request : StoreRequest pub}
    (hr : Stays path request) {name : String} {st : Store} (hst : s.store? name = some st) :
    ∃ st', (s.request other request).1.store? name = some st' ∧ st.gateways <+: st'.gateways := by
  by_cases hname : name = other
  · subst hname
    obtain ⟨st',hst'⟩ := h.exists_store? hr (outcome_request s name request) hst
    refine ⟨st',hst',?_⟩
    have heffect : StoreEffect name s (.request name request) st' := storeEffect_turn hst'
    by_cases hloads : Loads name s (.request name request)
    · have hkept := (h.request name hr).kept
      obtain ⟨gs,hload,hnew⟩ := hkept.load
      have hgs : gs = st'.gateways := by
        have hload' := heffect.loaded hloads
        rw [hkept.path_eq _ (mem_stores_of_store? hst')] at hload'
        exact Except.ok.inj (hload.symm.trans hload')
      rw [← hgs]
      refine prefix_of_map_ok ?_
      rw [hnew,List.map_append]
      exact (h.beginning _ (mem_stores_of_store? hst)).trans (List.prefix_append _ _)
    · cases Option.some.inj (hst.symm.trans (heffect.kept hloads))
      exact List.prefix_rfl
  · exact ⟨st,by rw [(outcome_request s other request).store?_of_ne hname,hst],List.prefix_rfl⟩

lemma Kept.store?_play (h : Kept pub path l s ps) {calls : List (String × StoreRequest pub)}
    (hcalls : ∀ c ∈ calls, Stays path c.2) {name : String} {st : Store} (hst : s.store? name = some st) :
    ∃ st', (Session.play s calls).1.store? name = some st' ∧ st.gateways <+: st'.gateways := by
  induction calls generalizing s ps st with
  | nil => exact ⟨st,hst,List.prefix_rfl⟩
  | cons c calls ih =>
    have hc := hcalls c List.mem_cons_self
    obtain ⟨st₁,hst₁,hgrown₁⟩ := h.store?_request c.1 hc hst
    obtain ⟨st₂,hst₂,hgrown₂⟩ :=
      ih (h.request c.1 hc).kept (fun d hd => hcalls d (List.mem_cons_of_mem c hd)) hst₁
    exact ⟨st₂,hst₂,hgrown₁.trans hgrown₂⟩

/-- No file can be written at the path, and every store is empty. -/
structure Barren (path : String) (s : Session) : Prop where
  target : ∃ e, s.files.target path = .error e
  path_eq : ∀ p ∈ s.stores, p.2.path = path
  empty : ∀ p ∈ s.stores, p.2.gateways = []

lemma Barren.load (h : Barren path s) {gs : List Gateway} (hload : Store.load pub s.files path = .ok gs) : gs = [] := by
  obtain ⟨e,he⟩ := h.target
  rw [Store.load_eq_ok_iff] at hload
  cases hread : s.files.read path with
  | ok bytes =>
    obtain ⟨l,-,hl,-⟩ := FileSystem.target_of_read hread
    rw [hl] at he
    cases he
  | error e' =>
    rw [hread] at hload
    exact hload.2

lemma Barren.setStore (h : Barren path s) (name : String) {st : Option Store}
    (hst : ∀ st' ∈ st, st'.path = path ∧ st'.gateways = []) : Barren path (s.setStore name st) where
  target := h.target
  path_eq p hp := by
    cases st with
    | none => exact h.path_eq p (List.mem_of_mem_filter hp)
    | some st =>
      rcases List.mem_cons.mp hp with rfl | hp
      · exact (hst st rfl).1
      · exact h.path_eq p (List.mem_of_mem_filter hp)
  empty p hp := by
    cases st with
    | none => exact h.empty p (List.mem_of_mem_filter hp)
    | some st =>
      rcases List.mem_cons.mp hp with rfl | hp
      · exact (hst st rfl).2
      · exact h.empty p (List.mem_of_mem_filter hp)

/-- No addition changes a file. -/
lemma Barren.add (h : Barren path s) {st : Store} (hpath : st.path = path) (hst : st.gateways = []) (id : Eui64)
    (key : Key) : (st.add pub s.files id key).files = s.files ∧ (st.add pub s.files id key).store = st := by
  obtain ⟨e,he⟩ := h.target
  have hfresh : ∀ g ∈ st.gateways, g.localId ≠ id := by simp [hst]
  by_cases heven : (pub key).IsEven
  · rw [Store.add_of_target_error hfresh heven (hpath ▸ he)]
    exact ⟨rfl,rfl⟩
  · rw [Store.add_of_odd hfresh heven]
    exact ⟨rfl,rfl⟩

lemma Barren.outcome (h : Barren path s) {name : String} {request : StoreRequest pub} (hr : Stays path request)
    {s' : Session} {log : List LogLine} (houtcome : Outcome s name request s' log) : Barren path s' := by
  have hstore {st : Store} (hst : s.store? name = some st) : st.path = path ∧ st.gateways = [] :=
    ⟨h.path_eq _ (mem_stores_of_store? hst),h.empty _ (mem_stores_of_store? hst)⟩
  cases houtcome with
  | idle => exact h
  | unopened | unconfigured => exact h.setStore name (by simp)
  | @opened p st log hopens hopen =>
    obtain rfl := hr.path_eq hopens
    have hok : (Store.openAt pub s.files p).2 = .ok st := by rw [hopen]
    obtain ⟨hload,hpath,-⟩ := Store.openAt_eq_ok hok
    exact h.setStore name (by simpa using ⟨hpath,h.load hload⟩)
  | @reloaded st hst =>
    obtain ⟨rfl,hempty⟩ := hstore hst
    refine h.setStore name ?_
    cases hload : Store.load pub s.files st.path with
    | ok gs => simp [Store.reload_of_load hload,h.load hload]
    | error e => simp [Store.reload_of_load_error hload,hempty]
  | @added st p hst =>
    obtain ⟨hfiles,hadd⟩ : (st.add pub s.files p.1 p.2).files = s.files ∧ (st.add pub s.files p.1 p.2).store = st :=
      h.add (hstore hst).1 (hstore hst).2 p.1 p.2
    rw [hfiles,hadd]
    exact h.setStore name (by simpa using hstore hst)

lemma Barren.play (h : Barren path s) {calls : List (String × StoreRequest pub)}
    (hcalls : ∀ c ∈ calls, Stays path c.2) : Barren path (Session.play s calls).1 := by
  induction calls generalizing s with
  | nil => exact h
  | cons c calls ih =>
    exact ih (h.outcome (hcalls c List.mem_cons_self) (outcome_request s c.1 c.2)) fun d hd => hcalls d (List.mem_cons_of_mem c hd)

/-- Searches give the first gateway that has the identifier, and stay with it. They fail only if there is none, and
bytes are searched for if they are an identifier. Let a file be absent or empty at first, and let any number of
stores be opened at its path and asked anything, in any order. If a search in one of them gives a gateway, then
the same search in the same store gives it behind any further requests. -/
theorem searches_first_stable :
    (∀ (s : Store) (id : Eui64), Store.IsFirst (·.localId = id) s.gateways (s.byLocalId id)) ∧
    (∀ (s : Store) (id : Eui64), Store.IsFirst (·.networkId = id) s.gateways (s.byNetworkId id)) ∧
    (∀ (s : Store) (id : ThingsIxId), Store.IsFirst (·.thingsIxId = id) s.gateways (s.byThingsIxId id)) ∧
    (∀ (s : Store) (bytes : Bytes) (h : bytes.length = 8),
      s.byLocalIdBytes bytes = s.byLocalId ⟨bytes,h⟩ ∧ s.byNetworkIdBytes bytes = s.byNetworkId ⟨bytes,h⟩) ∧
    (∀ (s : Store) (bytes : Bytes), bytes.length ≠ 8 →
      s.byLocalIdBytes bytes = .error (.invalidId 8 bytes.length) ∧
      s.byNetworkIdBytes bytes = .error (.invalidId 8 bytes.length)) ∧
    ∀ (fs : FileSystem) (path : String), (∀ bytes, fs.read path = .ok bytes → bytes = []) →
      ∀ calls more : List (String × StoreRequest pub), (∀ c ∈ calls ++ more, Stays path c.2) →
        ∀ name st q g, (play ⟨fs,[]⟩ calls).1.store? name = some st → st.find q = .ok g →
          ∃ st', (play (play ⟨fs,[]⟩ calls).1 more).1.store? name = some st' ∧ st'.find q = .ok g := by
  refine ⟨fun s id => Store.isFirst_first (·.localId = id) s.gateways,
    fun s id => Store.isFirst_first (·.networkId = id) s.gateways,
    fun s id => Store.isFirst_first (·.thingsIxId = id) s.gateways,fun s _ h => Store.byBytes_of_length s h,
    fun s _ h => Store.byBytes_of_length_ne s h,?_⟩
  intro fs path hempty calls more hcalls name st q g hst hg
  have hcalls₁ : ∀ c ∈ calls, Stays path c.2 := fun c hc => hcalls c (List.mem_append_left _ hc)
  have hcalls₂ : ∀ c ∈ more, Stays path c.2 := fun c hc => hcalls c (List.mem_append_right _ hc)
  cases htarget : fs.target path with
  | ok l =>
    have hbytes : (fs.file? l).elim [] (·.bytes) = [] := by
      rw [FileSystem.read_of_target htarget] at hempty
      cases hf : fs.file? l with
      | none => rfl
      | some f =>
        rw [hf] at hempty
        exact hempty f.bytes rfl
    have hstart : Kept pub path l ⟨fs,[]⟩ [] := ⟨htarget,hbytes,by simp,by simp,by simp⟩
    obtain ⟨st',hst',hgrown⟩ := (hstart.play hcalls₁).store?_play hcalls₂ hst
    exact ⟨st',hst',Store.find_of_prefix hgrown hg⟩
  | error e =>
    have hstart : Barren path ⟨fs,[]⟩ := ⟨⟨e,htarget⟩,by simp,by simp⟩
    have hmem := Store.mem_of_find hg
    rw [(hstart.play hcalls₁).empty _ (mem_stores_of_store? hst)] at hmem
    cases hmem

/-- What one store has found it still finds when another has added the same identifier. -/
theorem searches_first_stable_twice :
    let fs : FileSystem := {}
    let path := "gateways.yaml"
    let calls : List (String × StoreRequest Secp256k1.publicKey) :=
      [("first",.openPath path),("second",.openPath path),("first",.add (.zero _) .one)]
    let more : List (String × StoreRequest Secp256k1.publicKey) :=
      [("second",.add (.zero _) .one),("first",.reload)]
    let s := (play ⟨fs,[]⟩ calls).1
    (∀ bytes, fs.read path = .ok bytes → bytes = []) ∧ (∀ c ∈ calls ++ more, Stays path c.2) ∧
    ∃ st g, s.store? "first" = some st ∧ st.find (.localId (.zero _)) = .ok g ∧
      ∃ st', (play s more).1.store? "first" = some st' ∧ st'.find (.localId (.zero _)) = .ok g := by
  have heven := Secp256k1.isEven_publicKey_one
  generalize Secp256k1.publicKey = pub at heven ⊢
  generalize Key.one = key at heven ⊢
  intro fs path calls more s
  have hread : fs.read path = .error .noSuchFile := by decide
  have hempty : ∀ bytes, fs.read path = .ok bytes → bytes = [] := by simp [hread]
  have hcalls : ∀ c ∈ calls ++ more, Stays path c.2 := by simp [calls,more,Stays]
  have htarget : fs.target path = .ok [path] := by decide
  obtain ⟨g,hg,hdecode⟩ := Gateway.decode_encode (.zero _) heven
  have hopen : Store.openAt pub fs path = ([.loaded 0 path],.ok ⟨path,[]⟩) := by
    simp [Store.openAt,Store.reload,Store.load,hread]
  have hadd : Store.add pub fs ⟨path,[]⟩ (.zero _) key =
      ⟨⟨path,[g]⟩,_,[.added (.zero _) path,.loaded 1 path],.ok ()⟩ :=
    Store.add_of_decode (by simp) heven htarget
      (by simp only [Store.writtenFile,FileSystem.file?,fs,List.lookup_nil,Option.elim_none,lineEnd,hdecode,
        List.nil_append,ne_eq,not_true_eq_false,false_and,if_false])
  have hst : s.store? "first" = some ⟨path,[g]⟩ := by
    have hother : ("first" == "second") = false := by decide
    simp [s,play,calls,Session.request,opened,hopen,added,setStore,store?,List.lookup_cons,hother,hadd]
  have hfind : (⟨path,[g]⟩ : Store).find (.localId (.zero _)) = .ok g := by
    simp [Store.find,Store.byLocalId,Store.first,(Gateway.fields_of_new hg).1]
  exact ⟨hempty,hcalls,⟨path,[g]⟩,g,hst,hfind,
    searches_first_stable.2.2.2.2.2 fs path hempty calls more hcalls "first" _ (.localId (.zero _)) g hst hfind⟩

end Session
end Keyring
