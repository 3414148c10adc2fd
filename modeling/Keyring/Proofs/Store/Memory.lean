import Keyring.Proofs.Records
import Keyring.Proofs.Store.Effect
import Mathlib

/-! What stores hold in memory. Whatever is asked of them, and whatever others do to the files in between, the list of a
store is all that its file held when the store last read it, and every gateway there has the identity of its
key. -/
namespace Keyring

namespace Gateway

variable {pub : PublicKeyMap} {id : Eui64} {key : Key} {g : Gateway}

variable (pub) in
/-- The key is a scalar of the group with an even public key, and the identifiers are those that it gives. -/
structure Coherent (g : Gateway) : Prop where
  scalar : 1 ≤ g.key.scalar ∧ g.key.scalar ≤ groupOrder - 1
  even : (pub g.key).IsEven
  thingsIxId : g.thingsIxId.bytes = (pub g.key).compressed.drop 1
  networkId : g.networkId.bytes = (Sha256.digest (pub g.key).compressed).take 8

lemma coherent_of_new (h : new pub id key = .ok g) : g.Coherent pub := by
  have heven := even_of_new h
  rw [new_of_even heven] at h
  cases h
  exact ⟨⟨key.pos,Nat.le_sub_one_of_lt key.lt_order⟩,heven,rfl,rfl⟩

end Gateway

namespace Record

variable {pub : PublicKeyMap} {g : Gateway}

lemma coherent_of_gateway {i : Nat} {r : Record} (h : r.gateway pub i = .ok g) : g.Coherent pub := by
  simp only [gateway] at h
  cases hkey : Key.ofHex r.privateKey with
  | error fault => simp [hkey] at h
  | ok key =>
    simp only [hkey] at h
    cases hnew : Gateway.new pub r.localId key with
    | error fault => simp [hnew] at h
    | ok g' =>
      simp only [hnew,Except.ok.injEq] at h
      exact h ▸ Gateway.coherent_of_new hnew

lemma coherent_of_gateways {i : Nat} {rs : List Record} {gs : List Gateway} (h : gateways pub i rs = .ok gs) :
    ∀ g ∈ gs, g.Coherent pub := by
  induction rs generalizing i gs with
  | nil =>
    cases h
    simp
  | cons r rs ih =>
    simp only [gateways,bind,Except.bind] at h
    cases hr : r.gateway pub i with
    | error e => simp [hr] at h
    | ok g =>
      cases hrs : gateways pub (i+1) rs with
      | error e => simp [hr,hrs] at h
      | ok gs' =>
        simp only [hr,hrs,Except.ok.injEq] at h
        subst h
        exact List.forall_mem_cons.mpr ⟨coherent_of_gateway hr,ih hrs⟩

end Record

/-- Whatever a file holds, the gateways that are read from it are coherent. -/
lemma Gateway.coherent_of_decode {pub : PublicKeyMap} {bytes : Bytes} {gs : List Gateway}
    (h : decode pub bytes = .ok gs) : ∀ g ∈ gs, g.Coherent pub := by
  simp only [decode] at h
  split at h
  · cases h
    simp
  · split at h
    · cases h
    · exact Record.coherent_of_gateways h

namespace Store

variable {pub : PublicKeyMap} {fs : FileSystem} {s s' : Store} {log : List LogLine}

/-- What a file holds for a store: its gateways, or none if there is no file. -/
lemma load_eq_ok_iff {path : String} {gs : List Gateway} : load pub fs path = .ok gs ↔
    match fs.read path with
    | .ok bytes => Gateway.decode pub bytes = .ok gs
    | .error e => e = .noSuchFile ∧ gs = [] := by
  rw [load]
  cases fs.read path with
  | ok bytes => exact Iff.rfl
  | error e => by_cases he : e = .noSuchFile <;> simp [he,eq_comm]

lemma coherent_of_load {path : String} {gs : List Gateway} (h : load pub fs path = .ok gs) :
    ∀ g ∈ gs, g.Coherent pub := by
  rw [load_eq_ok_iff] at h
  split at h
  · exact Gateway.coherent_of_decode h
  · simp [h.2]

variable (pub) in
/-- What a store does with its list: all that the file holds takes its place, and the log tells so, or it is kept. -/
inductive Refreshes (files : FileSystem) (s : Store) : Store → List LogLine → Prop
  | loaded {gs : List Gateway} {log : List LogLine} : load pub files s.path = .ok gs →
      .loaded gs.length s.path ∈ log → Refreshes files s ⟨s.path,gs⟩ log
  | kept {log : List LogLine} : (∀ count path, .loaded count path ∉ log) → Refreshes files s s log

lemma refreshes_reload (fs : FileSystem) (s : Store) :
    Refreshes pub fs s (s.reload pub fs).1 (s.reload pub fs).2.1 := by
  cases h : load pub fs s.path with
  | ok gs =>
    rw [reload_of_load h]
    exact .loaded h List.mem_cons_self
  | error e =>
    rw [reload_of_load_error h]
    exact .kept (by simp)

lemma AdditionOutcome.refreshes {id : Eui64} {key : Key} {a : Addition Unit}
    (h : AdditionOutcome pub fs s id key a) : Refreshes pub a.files s a.store a.log := by
  cases h with
  | known | odd | unwritable | unreadable => exact .kept (by simp)
  | added hfresh heven ht hd =>
    refine .loaded ?_ (by simp)
    rw [load_eq_ok_iff,read_writtenFile ht]
    exact hd

/-- A store that opens holds all of its file. -/
lemma openAt_eq_ok {path : String} (h : (openAt pub fs path).2 = .ok s) :
    load pub fs path = .ok s.gateways ∧ s.path = path ∧ .loaded s.gateways.length s.path ∈ (openAt pub fs path).1 := by
  rw [openAt_eq] at h ⊢
  cases hload : load pub fs path with
  | ok gs =>
    rw [reload_of_load (s := ⟨path,[]⟩) hload] at h ⊢
    cases h
    exact ⟨rfl,rfl,List.mem_cons_self⟩
  | error e =>
    rw [reload_of_load_error (s := ⟨path,[]⟩) hload] at h
    cases h

end Store

namespace Session

variable {pub : PublicKeyMap}

/-- What happens next: something is asked of a store, or someone else changes the files. -/
inductive Turn (pub : PublicKeyMap) where
  | request (name : String) (request : StoreRequest pub)
  | edit (edit : Edit)

/-- The session behind a turn, and what the stores tell. -/
def turn (s : Session) : Turn pub → Session × List LogLine
  | .request name request => ((s.request name request).1,(s.request name request).2.1)
  | .edit edit => ((s.afterEdit edit).1,[])

/-- The session behind any number of turns. -/
def after (s : Session) (turns : List (Turn pub)) : Session := turns.foldl (fun s t => (s.turn t).1) s

/-- Whether the turn reads the file of the store of a name, as the log tells. -/
def Loads (name : String) (s : Session) (t : Turn pub) : Prop :=
  (∃ request, t = .request name request) ∧ ∃ count path, .loaded count path ∈ (s.turn t).2

/-- Whether none of the turns does. -/
def Idle (name : String) : Session → List (Turn pub) → Prop
  | _,[] => True
  | s,t :: ts => ¬Loads name s t ∧ Idle name (s.turn t).1 ts

variable {s : Session} {name : String} {st : Store}

lemma after_append (s : Session) (ts us : List (Turn pub)) : s.after (ts ++ us) = (s.after ts).after us :=
  List.foldl_append

lemma idle_append {ts us : List (Turn pub)} (h : Idle name s ts) (hu : Idle name (s.after ts) us) :
    Idle name s (ts ++ us) := by
  induction ts generalizing s with
  | nil => exact hu
  | cons t ts ih => exact ⟨h.1,ih h.2 hu⟩

lemma store?_setStore_self (s : Session) (name : String) (st : Option Store) :
    (s.setStore name st).store? name = st := by
  cases st with
  | some st => simp [store?,setStore]
  | none =>
    rw [store?,setStore,List.lookup_eq_none_iff]
    intro p hp
    have hne : p.1 ≠ name := by simpa using (List.mem_filter.mp hp).2
    simpa using hne.symm

lemma store?_setStore_of_ne {other : String} (h : name ≠ other) (s : Session) (st : Option Store) :
    (s.setStore other st).store? name = s.store? name := by
  have hfilter (stores : List (String × Store)) :
      (stores.filter fun p => p.1 ≠ other).lookup name = stores.lookup name := by
    induction stores with
    | nil => rfl
    | cons p stores ih =>
      by_cases hp : p.1 = other
      · have hname : (name == p.1) = false := beq_eq_false_iff_ne.mpr (hp ▸ h)
        rw [List.filter_cons_of_neg (by simp [hp]),ih,List.lookup_cons,hname]
      · rw [List.filter_cons_of_pos (by simp [hp]),List.lookup_cons,List.lookup_cons,ih]
  have hname : (name == other) = false := beq_eq_false_iff_ne.mpr h
  cases st with
  | some st =>
    rw [store?,setStore,List.lookup_cons,hname]
    exact hfilter s.stores
  | none => exact hfilter s.stores

/-- Where a request opens a store. -/
def path? : StoreRequest pub → Option String
  | .openPath path => some path
  | .openConfig text => (Config.ofYaml text).toOption.map (·.path)
  | _ => none

/-- What a request asks to add. -/
def pair? : StoreRequest pub → Option (Eui64 × Key)
  | .add id key => some (id,key)
  | .generate id source => some (id,source.generate)
  | _ => none

/-- All that a request can make of a session, and what it tells: a store is opened or not, the text to configure it
cannot be read, there is no store of the name, or there is one, which reads its file again or adds a pair. -/
inductive Outcome (s : Session) (name : String) (request : StoreRequest pub) : Session → List LogLine → Prop
  | opened {path : String} {st : Store} {log : List LogLine} : path? request = some path →
      Store.openAt pub s.files path = (log,.ok st) → Outcome s name request (s.setStore name (some st)) log
  | unopened {path : String} {e : Error} {log : List LogLine} : path? request = some path →
      Store.openAt pub s.files path = (log,.error e) → Outcome s name request (s.setStore name none) log
  | unconfigured {text : String} {e : Error} : request = .openConfig text → Config.ofYaml text = .error e →
      Outcome s name request (s.setStore name none) []
  | idle : s.store? name = none → Outcome s name request s []
  | reloaded {st : Store} : s.store? name = some st →
      Outcome s name request (s.setStore name (some (st.reload pub s.files).1)) (st.reload pub s.files).2.1
  | added {st : Store} {p : Eui64 × Key} : s.store? name = some st → pair? request = some p →
      Outcome s name request
        ({ s with files := (st.add pub s.files p.1 p.2).files }.setStore name (some (st.add pub s.files p.1 p.2).store))
        (st.add pub s.files p.1 p.2).log

lemma outcome_opened {request : StoreRequest pub} {path : String} (h : path? request = some path) :
    Outcome s name request (s.opened name (Store.openAt pub s.files path)).1
      (s.opened name (Store.openAt pub s.files path)).2.1 := by
  rcases hopen : Store.openAt pub s.files path with ⟨log,e | st⟩
  · exact .unopened h hopen
  · exact .opened h hopen

lemma outcome_request (s : Session) (name : String) (request : StoreRequest pub) :
    Outcome s name request (s.request name request).1 (s.request name request).2.1 := by
  cases request with
  | openPath path => exact outcome_opened rfl
  | openConfig text =>
    cases hconfig : Config.ofYaml text with
    | ok config =>
      simp only [Session.request,hconfig]
      exact outcome_opened (by rw [path?,hconfig]; rfl)
    | error e =>
      simp only [Session.request,hconfig]
      exact .unconfigured rfl hconfig
  | reload =>
    cases hst : s.store? name with
    | none =>
      simp only [Session.request,hst]
      exact .idle hst
    | some st =>
      simp only [Session.request,hst]
      exact .reloaded hst
  | add id key =>
    cases hst : s.store? name with
    | none =>
      simp only [Session.request,hst]
      exact .idle hst
    | some st =>
      simp only [Session.request,hst]
      exact @Outcome.added _ s name (.add id key) st (id,key) hst rfl
  | generate id source =>
    cases hst : s.store? name with
    | none =>
      simp only [Session.request,hst]
      exact .idle hst
    | some st =>
      simp only [Session.request,hst]
      exact @Outcome.added _ s name (.generate id source) st (id,source.generate) hst rfl

variable {s' : Session} {request : StoreRequest pub} {log : List LogLine}

/-- A request to one store leaves those of other names alone. -/
lemma Outcome.store?_of_ne {other : String} (h : Outcome s other request s' log) (hname : name ≠ other) :
    s'.store? name = s.store? name := by
  cases h with
  | idle => rfl
  | _ => exact store?_setStore_of_ne hname ..

/-- The store of the name has read its file, and tells so, or it is as before. -/
lemma Outcome.read_or_kept (h : Outcome s name request s' log) (hst : s'.store? name = some st) :
    (.loaded st.gateways.length st.path ∈ log ∧ Store.load pub s'.files st.path = .ok st.gateways) ∨
      (∀ count path, .loaded count path ∉ log) ∧ s.store? name = some st := by
  have hrefreshed {fs : FileSystem} {old new : Store} (hold : s.store? name = some old)
      (hnew : Store.Refreshes pub fs old new log) :
      (.loaded new.gateways.length new.path ∈ log ∧ Store.load pub fs new.path = .ok new.gateways) ∨
        (∀ count path, .loaded count path ∉ log) ∧ s.store? name = some new := by
    cases hnew with
    | loaded hload hlog => exact .inl ⟨hlog,hload⟩
    | kept hlog => exact .inr ⟨hlog,hold⟩
  cases h with
  | idle hnone => simp [hnone] at hst
  | unopened | unconfigured => simp [store?_setStore_self] at hst
  | @opened path _ _ _ hopen =>
    cases (store?_setStore_self ..).symm.trans hst
    have hok : (Store.openAt pub s.files path).2 = .ok st := by rw [hopen]
    obtain ⟨hload,rfl,hlog⟩ := Store.openAt_eq_ok hok
    rw [hopen] at hlog
    exact .inl ⟨hlog,hload⟩
  | reloaded hold =>
    cases (store?_setStore_self ..).symm.trans hst
    exact hrefreshed hold (Store.refreshes_reload ..)
  | added hold =>
    cases (store?_setStore_self ..).symm.trans hst
    exact hrefreshed hold (Store.outcome_add ..).refreshes

/-- What a turn does to the store of a name, if it has one then: it reads its file, as the log tells, and holds all of
it; or it is as before, and nothing was read. -/
structure StoreEffect (name : String) (s : Session) (t : Turn pub) (st : Store) : Prop where
  loaded : Loads name s t → Store.load pub (s.turn t).1.files st.path = .ok st.gateways
  kept : ¬Loads name s t → s.store? name = some st

lemma StoreEffect.of_load {t : Turn pub} (hlog : .loaded st.gateways.length st.path ∈ (s.turn t).2)
    (hload : Store.load pub (s.turn t).1.files st.path = .ok st.gateways) (ht : ∃ request, t = .request name request) :
    StoreEffect name s t st where
  loaded _ := hload
  kept h := absurd ⟨ht,_,_,hlog⟩ h

lemma StoreEffect.of_kept {t : Turn pub} (h : ¬Loads name s t) (hst : s.store? name = some st) :
    StoreEffect name s t st where
  loaded hloads := absurd hloads h
  kept _ := hst

/-- One turn. -/
lemma storeEffect_turn {t : Turn pub} (h : (s.turn t).1.store? name = some st) : StoreEffect name s t st := by
  cases t with
  | edit e =>
    have hstores : (s.afterEdit e).1.stores = s.stores := by
      rw [afterEdit]
      split <;> rfl
    refine .of_kept (by rintro ⟨⟨request,hr⟩,-⟩; cases hr) ?_
    rw [← h,turn,store?,store?,hstores]
  | request other request =>
    by_cases hname : name = other
    · subst hname
      rcases (outcome_request s name request).read_or_kept h with ⟨hlog,hload⟩ | ⟨hlog,hst⟩
      · exact .of_load hlog hload ⟨request,rfl⟩
      · exact .of_kept (fun ⟨_,count,path,hmem⟩ => hlog count path hmem) hst
    · -- The stores of other names are left alone.
      refine .of_kept (by rintro ⟨⟨r,hr⟩,-⟩; cases hr; exact hname rfl) ?_
      rw [← h,turn,(outcome_request s other request).store?_of_ne hname]

/-- The store of a name last read its file at one of the turns, as the log tells, and these were the files then. -/
def LastRead (name : String) (s : Session) (turns : List (Turn pub)) (files : FileSystem) : Prop :=
  ∃ before t later, turns = before ++ t :: later ∧ Loads name (s.after before) t ∧
    Idle name (s.after (before ++ [t])) later ∧ files = (s.after (before ++ [t])).files

lemma exists_lastRead (fs : FileSystem) (turns : List (Turn pub)) {name : String} {st : Store}
    (h : (after ⟨fs,[]⟩ turns).store? name = some st) :
    ∃ files, LastRead name ⟨fs,[]⟩ turns files ∧ Store.load pub files st.path = .ok st.gateways := by
  induction turns using List.reverseRecOn generalizing st with
  | nil => cases h
  | append_singleton turns t ih =>
    have hafter : after ⟨fs,[]⟩ (turns ++ [t]) = ((after ⟨fs,[]⟩ turns).turn t).1 := after_append ..
    have heffect := storeEffect_turn (hafter ▸ h)
    by_cases hloads : Loads name (after ⟨fs,[]⟩ turns) t
    · exact ⟨_,⟨turns,t,[],rfl,hloads,trivial,rfl⟩,hafter ▸ heffect.loaded hloads⟩
    · obtain ⟨files,⟨before,t',later,rfl,hfirst,hidle,hfiles⟩,hload⟩ := ih (heffect.kept hloads)
      refine ⟨files,⟨before,t',later ++ [t],by simp,hfirst,idle_append hidle ⟨?_,trivial⟩,hfiles⟩,hload⟩
      rw [← after_append]
      simpa using hloads

/-- The list of a store is never torn. Let anything be asked of any number of stores, in any order, and let the files be
changed from outside at any time. The list of a store that is open then is all that its file held when the store
last read it, whatever has failed since, and every gateway in it is coherent. -/
theorem memory_of_lastRead (fs : FileSystem) (turns : List (Turn pub)) {name : String} {st : Store}
    (h : (after ⟨fs,[]⟩ turns).store? name = some st) :
    (∃ files, LastRead name ⟨fs,[]⟩ turns files ∧
      match files.read st.path with
      | .ok bytes => Gateway.decode pub bytes = .ok st.gateways
      | .error e => e = .noSuchFile ∧ st.gateways = []) ∧
    ∀ g ∈ st.gateways, g.Coherent pub := by
  obtain ⟨files,hread,hload⟩ := exists_lastRead fs turns h
  exact ⟨⟨files,hread,Store.load_eq_ok_iff.mp hload⟩,Store.coherent_of_load hload⟩

/-- A store whose file has become a directory since. Reading it again fails, and the list is kept. -/
theorem memory_of_lastRead_directory :
    let path := "gateways.yaml"
    let fs : FileSystem := { files := [([path],⟨Record.encode (.zero _) .one,0o600⟩)] }
    let turns : List (Turn Secp256k1.publicKey) := [.request "first" (.openPath path),.edit (.remove path),
      .edit (.makeDirectory path),.request "first" .reload]
    ∃ g, Gateway.new Secp256k1.publicKey (.zero _) .one = .ok g ∧
      (after ⟨fs,[]⟩ turns).store? "first" = some ⟨path,[g]⟩ ∧
      (∃ files, LastRead "first" ⟨fs,[]⟩ turns files ∧
        match files.read path with
        | .ok bytes => Gateway.decode Secp256k1.publicKey bytes = .ok [g]
        | .error e => e = .noSuchFile ∧ [g] = []) ∧
      ∀ g' ∈ [g], g'.Coherent Secp256k1.publicKey := by
  have heven := Secp256k1.isEven_publicKey_one
  generalize Secp256k1.publicKey = pub at heven ⊢
  generalize Key.one = key at heven ⊢
  intro path fs turns
  obtain ⟨g,hg,hdecode⟩ := Gateway.decode_encode (.zero _) heven
  refine ⟨g,hg,?_⟩
  have htarget : fs.target path = .ok [path] :=
    @FileSystem.target_put {} path [path] (by decide) [path] ⟨Record.encode (.zero _) key,0o600⟩
  have hload : Store.load pub fs path = .ok [g] := by
    rw [Store.load_eq_ok_iff,FileSystem.read_of_target htarget]
    exact hdecode
  have hopen : ((⟨fs,[]⟩ : Session).turn (.request "first" (.openPath path) : Turn pub)).1 =
      ⟨fs,[("first",⟨path,[g]⟩)]⟩ := by
    simp only [turn,Session.request,Store.openAt,Store.reload,hload]
    rfl
  have hremove : fs.remove path = some {} := by
    obtain ⟨hresolve,hdirectory⟩ := (FileSystem.target_eq_ok_iff fs).mp htarget
    simp [FileSystem.remove,hresolve,hdirectory,fs,FileSystem.file?]
  have hmake : ({} : FileSystem).makeDirectory path = some { directories := [[path]] } := by
    obtain ⟨hresolve,hdirectory⟩ :=
      (FileSystem.target_eq_ok_iff {}).mp (by decide : ({} : FileSystem).target path = .ok [path])
    simp [FileSystem.makeDirectory,FileSystem.freeName,hresolve,hdirectory,FileSystem.file?]
  have hreload : Store.load pub { directories := [[path]] } path =
      .error (.unavailable .isADirectory) := by
    have hread : ({ directories := [[path]] } : FileSystem).read path = .error .isADirectory := by decide
    rw [Store.load,hread]
    exact if_neg (by decide)
  have hst : (after ⟨fs,[]⟩ turns).store? "first" = some ⟨path,[g]⟩ := by
    simp only [turns,after,List.foldl_cons,List.foldl_nil,hopen]
    simp only [turn,afterEdit,edit,hremove,hmake,Session.request,store?,List.lookup_cons_self]
    simp [Store.reload,hreload,setStore]
  exact ⟨hst,@memory_of_lastRead _ fs turns "first" ⟨path,[g]⟩ hst⟩

end Session
end Keyring
