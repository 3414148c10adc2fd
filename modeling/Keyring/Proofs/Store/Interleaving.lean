import Keyring.Proofs.Store.Memory

/-! Any number of stores at work on one file that was absent or empty at first, with their requests in any order. The
file is always the concatenation of the records that were accepted, and every store holds a beginning of it:
what it read when it last looked. -/
namespace Keyring

lemma KeySource.isEven_firstFrom {pub : PublicKeyMap} (s : KeySource pub) (i : s.Open) :
    (pub (s.firstFrom i)).IsEven := by
  induction i using KeySource.firstFrom.induct s with
  | case1 i h =>
    rw [firstFrom,dif_pos h]
    exact h
  | case2 i h ih =>
    rw [firstFrom,dif_neg h]
    exact ih

lemma KeySource.isEven_generate {pub : PublicKeyMap} (s : KeySource pub) : (pub s.generate).IsEven :=
  s.isEven_firstFrom _

namespace Session

variable {pub : PublicKeyMap}

/-- A request that opens no store elsewhere. -/
def Stays (path : String) : StoreRequest pub → Prop
  | .openPath p => p = path
  | .openConfig text => ∃ config, Config.ofYaml text = .ok config ∧ config.path = path
  | _ => True

lemma Stays.path_eq {path p : String} {request : StoreRequest pub} (h : Stays path request)
    (hopens : path? request = some p) : p = path := by
  cases request with
  | openPath => exact (Option.some.inj hopens).symm.trans h
  | openConfig text =>
    obtain ⟨config,hconfig,rfl⟩ := h
    rw [path?,hconfig] at hopens
    exact (Option.some.inj hopens).symm
  | _ => cases hopens

/-- What a request has added, if its answer tells that it was accepted. -/
def accepted : StoreRequest pub → Answer → List (Eui64 × Key)
  | .add id key,.done => [(id,key)]
  | .generate id source,.generated _ => [(id,source.generate)]
  | _,_ => []

/-- Requests to stores of any names, one after the other, and all that was accepted. -/
def play : Session → List (String × StoreRequest pub) → Session × List (Eui64 × Key)
  | s,[] => (s,[])
  | s,(name,request) :: calls =>
    let (next,_,answer) := s.request name request
    let (last,pairs) := play next calls
    (last,accepted request answer ++ pairs)

/-- How a request is answered. Opening and reading again succeed. An identifier in the store's own memory is refused
before the key is looked at, and otherwise nothing is refused but an odd key. -/
def Answers (s : Session) (name : String) (request : StoreRequest pub) (a : Answer) : Prop :=
  match request, s.store? name with
  | .openPath _,_ | .openConfig _,_ | .reload,some _ => a = .done
  | .reload,none | .add _ _,none | .generate _ _,none => a = .noStore
  | .add id key,some st =>
    (∃ g ∈ st.gateways, g.localId = id) ∧ a = .failed (.alreadyExists id) ∨
      (∀ g ∈ st.gateways, g.localId ≠ id) ∧
        (¬(pub key).IsEven ∧ (∃ fault, a = .failed (.derivationFailed fault)) ∨ (pub key).IsEven ∧ a = .done)
  | .generate id _,some st =>
    (∃ g ∈ st.gateways, g.localId = id) ∧ a = .failed (.alreadyExists id) ∨
      (∀ g ∈ st.gateways, g.localId ≠ id) ∧ ∃ g, a = .generated g ∧ g.localId = id

variable (pub) in
/-- The file at the place `l` of the path holds what was accepted, and every store a beginning of it. -/
structure Kept (path : String) (l : Location) (s : Session) (ps : List (Eui64 × Key)) : Prop where
  target : s.files.target path = .ok l
  bytes : (s.files.file? l).elim [] (·.bytes) = ps.flatMap fun p => Record.encode p.1 p.2
  even : ∀ p ∈ ps, (pub p.2).IsEven
  path_eq : ∀ p ∈ s.stores, p.2.path = path
  beginning : ∀ p ∈ s.stores, p.2.gateways.map .ok <+: ps.map fun p => Gateway.new pub p.1 p.2

variable {path : String} {l : Location} {s : Session} {ps : List (Eui64 × Key)}

lemma Kept.load (h : Kept pub path l s ps) : ∃ gs, Store.load pub s.files path = .ok gs ∧
    gs.map .ok = ps.map fun p => Gateway.new pub p.1 p.2 := by
  obtain ⟨gs,hgs,hnew⟩ := Gateway.decode_encodings h.even
  refine ⟨gs,?_,hnew⟩
  rw [← h.bytes] at hgs
  rw [Store.load,FileSystem.read_of_target h.target]
  cases hf : s.files.file? l with
  | none =>
    rw [hf] at hgs
    exact hgs
  | some f =>
    rw [hf] at hgs
    exact hgs

lemma mem_stores_of_store? {name : String} {st : Store} (h : s.store? name = some st) : (name,st) ∈ s.stores := by
  obtain ⟨l₁,l₂,hl,-⟩ := List.lookup_eq_some_iff.mp h
  rw [hl]
  simp

lemma Kept.setStore (h : Kept pub path l s ps) (name : String) {st : Store} (hpath : st.path = path)
    (hbeginning : st.gateways.map .ok <+: ps.map fun p => Gateway.new pub p.1 p.2) :
    Kept pub path l (s.setStore name (some st)) ps where
  target := h.target
  bytes := h.bytes
  even := h.even
  path_eq p hp := by
    simp only [Session.setStore,List.mem_cons,List.mem_filter] at hp
    rcases hp with rfl | hp
    · exact hpath
    · exact h.path_eq p hp.1
  beginning p hp := by
    simp only [Session.setStore,List.mem_cons,List.mem_filter] at hp
    rcases hp with rfl | hp
    · exact hbeginning
    · exact h.beginning p hp.1

/-- A store that reads the file holds all of it. -/
lemma Kept.reload (h : Kept pub path l s ps) (st : Store) (hpath : st.path = path) : ∃ gs,
    gs.map .ok = (ps.map fun p => Gateway.new pub p.1 p.2) ∧
      st.reload pub s.files = (⟨path,gs⟩,[.loaded gs.length path],.ok ()) := by
  obtain ⟨gs,hload,hnew⟩ := h.load
  subst hpath
  exact ⟨gs,hnew,Store.reload_of_load hload⟩

/-- The files with one more record in the file. -/
lemma Kept.written (h : Kept pub path l s ps) (id : Eui64) {key : Key} (heven : (pub key).IsEven) :
    Kept pub path l { s with files := s.files.put l (Store.writtenFile s.files l id key) } (ps ++ [(id,key)]) where
  target := FileSystem.target_put h.target l _
  bytes := by
    rw [FileSystem.file?_put_self]
    simp [Store.writtenFile,h.bytes,Record.lineEnd_encodings]
  even p hp := by
    rcases List.mem_append.mp hp with hp | hp
    · exact h.even p hp
    · cases List.mem_singleton.mp hp
      exact heven
  path_eq := h.path_eq
  beginning p hp := by
    rw [List.map_append]
    exact (h.beginning p hp).trans (List.prefix_append _ _)

/-- What an addition comes to. -/
lemma Kept.add (h : Kept pub path l s ps) {st : Store} (hpath : st.path = path) (id : Eui64) (key : Key) :
    (∃ g ∈ st.gateways, g.localId = id) ∧
        st.add pub s.files id key = ⟨st,s.files,[],.error (.alreadyExists id)⟩ ∨
      (∀ g ∈ st.gateways, g.localId ≠ id) ∧
        (¬(pub key).IsEven ∧ (∃ fault, st.add pub s.files id key = ⟨st,s.files,[],.error (.derivationFailed fault)⟩) ∨
          (pub key).IsEven ∧ ∃ gs log, gs.map .ok = ((ps ++ [(id,key)]).map fun p => Gateway.new pub p.1 p.2) ∧
            st.add pub s.files id key =
              ⟨⟨path,gs⟩,s.files.put l (Store.writtenFile s.files l id key),log,.ok ()⟩) := by
  by_cases hknown : ∃ g ∈ st.gateways, g.localId = id
  · exact Or.inl ⟨hknown,Store.add_of_known hknown⟩
  have hfresh : ∀ g ∈ st.gateways, g.localId ≠ id := fun g hg hid => hknown ⟨g,hg,hid⟩
  refine Or.inr ⟨hfresh,?_⟩
  by_cases heven : (pub key).IsEven
  · have hwritten := h.written id heven
    obtain ⟨gs,hgs,hnew⟩ := Gateway.decode_encodings hwritten.even
    rw [← hwritten.bytes,FileSystem.file?_put_self] at hgs
    subst hpath
    exact Or.inr ⟨heven,gs,_,hnew,Store.add_of_decode hfresh heven h.target hgs⟩
  · exact Or.inl ⟨heven,_,Store.add_of_odd hfresh heven⟩

variable (pub) in
/-- The store of the name, if there is one, holds all that was accepted, and no identifier was accepted twice. -/
def IsWhole (name : String) (s : Session) (ps : List (Eui64 × Key)) : Prop :=
  (∀ st, s.store? name = some st → st.gateways.map .ok = ps.map fun p => Gateway.new pub p.1 p.2) ∧
    (ps.map (·.1)).Nodup

/-- What a request keeps. -/
structure Step (path : String) (l : Location) (s : Session) (ps : List (Eui64 × Key)) (name : String)
    (request : StoreRequest pub) (s' : Session) (a : Answer) : Prop where
  kept : Kept pub path l s' (ps ++ accepted request a)
  answers : Answers s name request a
  whole : IsWhole pub name s ps → IsWhole pub name s' (ps ++ accepted request a)

/-- A request to no store. -/
lemma Kept.step_none (h : Kept pub path l s ps) {name : String} {request : StoreRequest pub}
    (haccepted : accepted request .noStore = []) (hanswers : Answers s name request .noStore) :
    Step path l s ps name request s .noStore where
  kept := by
    rw [haccepted,List.append_nil]
    exact h
  answers := hanswers
  whole hwhole := by
    rw [haccepted,List.append_nil]
    exact hwhole

/-- A request after which the store of the name holds the whole file, which is as before. -/
lemma Kept.step_reload (h : Kept pub path l s ps) {name : String} {request : StoreRequest pub} {gs : List Gateway}
    (hnew : gs.map .ok = ps.map fun p => Gateway.new pub p.1 p.2) (haccepted : accepted request .done = [])
    (hanswers : Answers s name request .done) :
    Step path l s ps name request (s.setStore name (some ⟨path,gs⟩)) .done where
  kept := by
    rw [haccepted,List.append_nil]
    exact h.setStore name rfl (hnew ▸ List.prefix_rfl)
  answers := hanswers
  whole hwhole := by
    rw [haccepted,List.append_nil]
    refine ⟨fun st hst => ?_,hwhole.2⟩
    rw [store?_setStore_self] at hst
    cases hst
    exact hnew

/-- A request that is refused. -/
lemma Kept.step_refused (h : Kept pub path l s ps) {name : String} {request : StoreRequest pub} {st : Store}
    {a : Answer} (hst : s.store? name = some st) (haccepted : accepted request a = [])
    (hanswers : Answers s name request a) :
    Step path l s ps name request ({ s with files := s.files }.setStore name (some st)) a where
  kept := by
    rw [haccepted,List.append_nil]
    have hmem := mem_stores_of_store? hst
    exact h.setStore name (h.path_eq _ hmem) (h.beginning _ hmem)
  answers := hanswers
  whole hwhole := by
    rw [haccepted,List.append_nil]
    refine ⟨fun st' hst' => ?_,hwhole.2⟩
    rw [store?_setStore_self] at hst'
    cases hst'
    exact hwhole.1 st hst

/-- A request that adds a record. -/
lemma Kept.step_added (h : Kept pub path l s ps) {name : String} {request : StoreRequest pub} {st : Store}
    {a : Answer} {id : Eui64} {key : Key} {gs : List Gateway} (hst : s.store? name = some st)
    (hfresh : ∀ g ∈ st.gateways, g.localId ≠ id) (heven : (pub key).IsEven)
    (hnew : gs.map .ok = (ps ++ [(id,key)]).map fun p => Gateway.new pub p.1 p.2)
    (haccepted : accepted request a = [(id,key)]) (hanswers : Answers s name request a) :
    Step path l s ps name request
      ({ s with files := s.files.put l (Store.writtenFile s.files l id key) }.setStore name (some ⟨path,gs⟩)) a where
  kept := by
    rw [haccepted]
    exact (h.written id heven).setStore name rfl (hnew ▸ List.prefix_rfl)
  answers := hanswers
  whole hwhole := by
    rw [haccepted]
    refine ⟨fun st' hst' => ?_,?_⟩
    · rw [store?_setStore_self] at hst'
      cases hst'
      exact hnew
    · -- All identifiers of the file are in the store's memory, where the new one is not.
      have hids : st.gateways.map (·.localId) = ps.map (·.1) := by
        rw [← Gateway.pairs_of_new (hwhole.1 st hst),List.map_map]
        rfl
      rw [List.map_append,List.nodup_append]
      refine ⟨hwhole.2,by simp,fun i hi j hj => ?_⟩
      rw [← hids] at hi
      obtain ⟨g,hg,rfl⟩ := List.mem_map.mp hi
      cases List.mem_singleton.mp hj
      exact hfresh g hg

lemma answers_reload {name : String} {st : Store} (hst : s.store? name = some st) :
    Answers s name (.reload : StoreRequest pub) .done := by
  simp only [Answers,hst]

lemma answers_add {name : String} {st : Store} (hst : s.store? name = some st) {id : Eui64} {key : Key} {a : Answer}
    (h : (∃ g ∈ st.gateways, g.localId = id) ∧ a = .failed (.alreadyExists id) ∨
      (∀ g ∈ st.gateways, g.localId ≠ id) ∧
        (¬(pub key).IsEven ∧ (∃ fault, a = .failed (.derivationFailed fault)) ∨ (pub key).IsEven ∧ a = .done)) :
    Answers s name (.add id key : StoreRequest pub) a := by
  simp only [Answers,hst]
  exact h

lemma answers_generate {name : String} {st : Store} (hst : s.store? name = some st) {id : Eui64}
    {source : KeySource pub} {a : Answer}
    (h : (∃ g ∈ st.gateways, g.localId = id) ∧ a = .failed (.alreadyExists id) ∨
      (∀ g ∈ st.gateways, g.localId ≠ id) ∧ ∃ g, a = .generated g ∧ g.localId = id) :
    Answers s name (.generate id source) a := by
  simp only [Answers,hst]
  exact h

/-- The gateway that was added last is found. -/
lemma byLocalId_of_new (path : String) {gs : List Gateway} {id : Eui64} {key : Key}
    (hnew : gs.map .ok = (ps ++ [(id,key)]).map fun p => Gateway.new pub p.1 p.2) :
    ∃ g, Store.byLocalId ⟨path,gs⟩ id = .ok g ∧ g.localId = id := by
  have hids : gs.map (·.localId) = (ps ++ [(id,key)]).map (·.1) := by
    rw [← Gateway.pairs_of_new hnew,List.map_map]
    rfl
  have hmem : id ∈ gs.map (·.localId) := by simp [hids]
  obtain ⟨g,hg,hid⟩ := List.mem_map.mp hmem
  obtain ⟨g',-,hfound,hid'⟩ := Store.exists_first (p := (·.localId = id)) hg (decide_eq_true hid)
  exact ⟨g',hfound,of_decide_eq_true hid'⟩

/-- Every request keeps the file well formed and the memories beginnings of it. -/
lemma Kept.request (h : Kept pub path l s ps) (name : String) {request : StoreRequest pub} (hr : Stays path request) :
    Step path l s ps name request (s.request name request).1 (s.request name request).2.2 := by
  cases request with
  | openPath p =>
    cases hr
    obtain ⟨gs,hnew,hreload⟩ := h.reload ⟨path,[]⟩ rfl
    have hopen : Store.openAt pub s.files path = ([.loaded gs.length path],.ok ⟨path,gs⟩) := by
      simp only [Store.openAt,hreload]
    simp only [Session.request,opened,hopen]
    exact h.step_reload hnew rfl rfl
  | openConfig text =>
    obtain ⟨config,hconfig,hpath⟩ := hr
    obtain ⟨gs,hnew,hreload⟩ := h.reload ⟨path,[]⟩ rfl
    have hopen : config.openStore pub s.files = ([.loaded gs.length path],.ok ⟨path,gs⟩) := by
      simp only [Config.openStore,hpath,Store.openAt,hreload]
    simp only [Session.request,hconfig,opened,hopen]
    exact h.step_reload hnew rfl rfl
  | reload =>
    cases hst : s.store? name with
    | none =>
      simp only [Session.request,hst]
      exact h.step_none rfl (by simp only [Answers,hst])
    | some st =>
      obtain ⟨gs,hnew,hreload⟩ := h.reload st (h.path_eq _ (mem_stores_of_store? hst))
      simp only [Session.request,hst,hreload]
      exact h.step_reload hnew rfl (answers_reload hst)
  | add id key =>
    cases hst : s.store? name with
    | none =>
      simp only [Session.request,hst]
      exact h.step_none rfl (by simp only [Answers,hst])
    | some st =>
      simp only [Session.request,hst,added]
      rcases h.add (h.path_eq _ (mem_stores_of_store? hst)) id key with
        ⟨hknown,hadd⟩ | ⟨hfresh,⟨hodd,fault,hadd⟩ | ⟨heven,gs,log,hnew,hadd⟩⟩
      · rw [hadd]
        exact h.step_refused hst rfl (answers_add hst (Or.inl ⟨hknown,rfl⟩))
      · rw [hadd]
        exact h.step_refused hst rfl (answers_add hst (Or.inr ⟨hfresh,Or.inl ⟨hodd,fault,rfl⟩⟩))
      · rw [hadd]
        exact h.step_added hst hfresh heven hnew rfl (answers_add hst (Or.inr ⟨hfresh,Or.inr ⟨heven,rfl⟩⟩))
  | generate id source =>
    cases hst : s.store? name with
    | none =>
      simp only [Session.request,hst]
      exact h.step_none rfl (by simp only [Answers,hst])
    | some st =>
      simp only [Session.request,hst,added]
      rcases h.add (h.path_eq _ (mem_stores_of_store? hst)) id source.generate with
        ⟨hknown,hadd⟩ | ⟨hfresh,⟨hodd,-,-⟩ | ⟨heven,gs,log,hnew,hadd⟩⟩
      · rw [Store.generate,hadd]
        exact h.step_refused hst rfl (answers_generate hst (Or.inl ⟨hknown,rfl⟩))
      · exact absurd source.isEven_generate hodd
      · obtain ⟨g,hg,hid⟩ := byLocalId_of_new path hnew
        simp only [Store.generate,hadd,hg]
        exact h.step_added hst hfresh heven hnew rfl (answers_generate hst (Or.inr ⟨hfresh,g,rfl,hid⟩))

/-- Any number of requests keep the file well formed and the memories beginnings of it. -/
lemma Kept.play (h : Kept pub path l s ps) {calls : List (String × StoreRequest pub)}
    (hcalls : ∀ c ∈ calls, Stays path c.2) :
    Kept pub path l (Session.play s calls).1 (ps ++ (Session.play s calls).2) := by
  induction calls generalizing s ps with
  | nil => simpa [Session.play] using h
  | cons c calls ih =>
    have hstep := h.request c.1 (hcalls c List.mem_cons_self)
    have hrest := ih hstep.kept fun d hd => hcalls d (List.mem_cons_of_mem c hd)
    simpa [Session.play] using hrest

/-- If all requests go to one name, its store holds the whole file. -/
lemma IsWhole.play {name : String} (h : Kept pub path l s ps) (hwhole : IsWhole pub name s ps)
    {calls : List (String × StoreRequest pub)} (hcalls : ∀ c ∈ calls, Stays path c.2)
    (hname : ∀ c ∈ calls, c.1 = name) : IsWhole pub name (Session.play s calls).1 (ps ++ (Session.play s calls).2) := by
  induction calls generalizing s ps with
  | nil => simpa [Session.play] using hwhole
  | cons c calls ih =>
    have hstep := h.request c.1 (hcalls c List.mem_cons_self)
    have hc := hname c List.mem_cons_self
    have hrest := ih hstep.kept (hc ▸ hstep.whole (hc ▸ hwhole))
      (fun d hd => hcalls d (List.mem_cons_of_mem c hd)) fun d hd => hname d (List.mem_cons_of_mem c hd)
    simpa [Session.play] using hrest

lemma prefix_of_map_ok {gs hs : List Gateway}
    (h : gs.map (.ok : Gateway → Except IdentityFault Gateway) <+: hs.map .ok) : gs <+: hs :=
  (List.prefix_map_iff_of_injective fun _ _ h => Except.ok.inj h).mp h

/-- No interleaving of stores loses or damages a record. Let a file at a path in a directory be absent or empty at
first, and let any number of stores be opened at this path and asked anything, in any order. Then the file is the
concatenation of the records that were accepted, in the order of the requests; it is read as these gateways;
every store has a beginning of them in memory; every further request is answered as `Answers` tells, and
behind any further requests the gateways are still there, at their places. If there is one store only, no
identifier is there twice. -/
theorem interleaved_stores {fs : FileSystem} {path : String} {l : Location} (htarget : fs.target path = .ok l)
    (hempty : (fs.fileAt? path).elim [] (·.bytes) = []) {calls : List (String × StoreRequest pub)}
    (hcalls : ∀ c ∈ calls, Stays path c.2) :
    let s := (play ⟨fs,[]⟩ calls).1
    let ps := (play ⟨fs,[]⟩ calls).2
    (s.files.fileAt? path).elim [] (·.bytes) = ps.flatMap (fun p => Record.encode p.1 p.2) ∧
    ∃ gs, Store.load pub s.files path = .ok gs ∧ gs.map .ok = (ps.map fun p => Gateway.new pub p.1 p.2) ∧
      (∀ p ∈ s.stores, p.2.path = path ∧ p.2.gateways <+: gs) ∧
      (∀ name (request : StoreRequest pub), Stays path request →
        Answers s name request (s.request name request).2.2) ∧
      (∀ more : List (String × StoreRequest pub), (∀ c ∈ more, Stays path c.2) →
        ∃ gs', Store.load pub (play s more).1.files path = .ok gs' ∧ gs <+: gs') ∧
      ((∃ name, ∀ c ∈ calls, c.1 = name) → (gs.map (·.localId)).Nodup) := by
  rw [FileSystem.fileAt?_of_target htarget] at hempty
  have hstart : Kept pub path l ⟨fs,[]⟩ [] :=
    ⟨htarget,hempty,by simp,by simp,by simp⟩
  have hkept := hstart.play hcalls
  rw [List.nil_append] at hkept
  obtain ⟨gs,hload,hnew⟩ := hkept.load
  refine ⟨?_,gs,hload,hnew,?_,fun name request hr => (hkept.request name hr).answers,?_,?_⟩
  · rw [FileSystem.fileAt?_of_target hkept.target]
    exact hkept.bytes
  · exact fun p hp => ⟨hkept.path_eq p hp,prefix_of_map_ok (hnew ▸ hkept.beginning p hp)⟩
  · intro more hmore
    obtain ⟨gs',hload',hnew'⟩ := (hkept.play hmore).load
    refine ⟨gs',hload',prefix_of_map_ok ?_⟩
    rw [hnew,hnew',List.map_append]
    exact List.prefix_append _ _
  · rintro ⟨name,hname⟩
    have hwhole : IsWhole pub name ⟨fs,[]⟩ [] := ⟨by simp [store?],List.nodup_nil⟩
    have hids := (hwhole.play hstart hcalls hname).2
    rw [List.nil_append,← Gateway.pairs_of_new hnew,List.map_map] at hids
    exact hids

/-- Two stores that both add the same identifier, the second one without having read what the first one added. -/
theorem interleaved_stores_twice :
    let fs : FileSystem := {}
    let path := "gateways.yaml"
    let calls : List (String × StoreRequest Secp256k1.publicKey) :=
      [("first",.openPath path),("second",.openPath path),("first",.add (.zero _) .one),("second",.add (.zero _) .one)]
    fs.target path = .ok [path] ∧ (fs.fileAt? path).elim [] (·.bytes) = [] ∧ (∀ c ∈ calls, Stays path c.2) ∧
    let s := (play ⟨fs,[]⟩ calls).1
    let ps := (play ⟨fs,[]⟩ calls).2
    (s.files.fileAt? path).elim [] (·.bytes) = ps.flatMap (fun p => Record.encode p.1 p.2) ∧
    ∃ gs, Store.load Secp256k1.publicKey s.files path = .ok gs ∧
      gs.map .ok = (ps.map fun p => Gateway.new Secp256k1.publicKey p.1 p.2) ∧
      (∀ p ∈ s.stores, p.2.path = path ∧ p.2.gateways <+: gs) ∧
      (∀ name (request : StoreRequest Secp256k1.publicKey), Stays path request →
        Answers s name request (s.request name request).2.2) ∧
      (∀ more : List (String × StoreRequest Secp256k1.publicKey), (∀ c ∈ more, Stays path c.2) →
        ∃ gs', Store.load Secp256k1.publicKey (play s more).1.files path = .ok gs' ∧ gs <+: gs') ∧
      ((∃ name, ∀ c ∈ calls, c.1 = name) → (gs.map (·.localId)).Nodup) := by
  have htarget : ({} : FileSystem).target "gateways.yaml" = .ok ["gateways.yaml"] := by decide
  have hempty : ((({} : FileSystem).fileAt? "gateways.yaml").elim [] (·.bytes)) = [] := by decide
  have hcalls : ∀ c ∈ ([("first",.openPath "gateways.yaml"),("second",.openPath "gateways.yaml"),
      ("first",.add (.zero _) .one),("second",.add (.zero _) .one)] :
      List (String × StoreRequest Secp256k1.publicKey)), Stays "gateways.yaml" c.2 := by
    simp [Stays]
  exact ⟨htarget,hempty,hcalls,interleaved_stores htarget hempty hcalls⟩

end Session
end Keyring
