import Keyring.Proofs.Encoding
import Keyring.Proofs.Files
import Keyring.Session

/-! The exact effect of a store's operations on its file, its memory and its log. An addition fails before it
writes, and then nothing has changed; or it writes one record at the end of the file, and only what it
reads there afterwards decides about the memory. Opening and reading again change no file. -/
namespace Keyring.Store

variable (pub : PublicKeyMap)

/-- The effect of adding a gateway. -/
structure AdditionEffect (fs : FileSystem) (s : Store) (id : Eui64) (key : Key) (a : Addition Unit) :
    Prop where
  /-- The identifier is looked for in memory, before the key is looked at. -/
  exists_iff : a.result = .error (.alreadyExists id) ↔ ∃ g ∈ s.gateways, g.localId = id
  exists_only : ∀ other, a.result = .error (.alreadyExists other) → other = id
  odd_iff : (∃ fault, a.result = .error (.derivationFailed fault)) ↔
    (∀ g ∈ s.gateways, g.localId ≠ id) ∧ ¬(pub key).IsEven
  system_iff : ∀ e, a.result = .error (.system e) ↔
    (∀ g ∈ s.gateways, g.localId ≠ id) ∧ (pub key).IsEven ∧ fs.target s.path = .error e
  unchanged : ∀ e, a.result = .error e → e.precedesWriting →
    a.files = fs ∧ a.store = s ∧ a.log = []
  /-- The record stands on a line of its own behind the bytes `old` of the file, if there was one. Whether
  the list that is kept is a new one depends on the new bytes alone. -/
  written : (∀ e, a.result = .error e → ¬e.precedesWriting) →
    ∃ l, fs.target s.path = .ok l ∧
      let old := (fs.file? l).elim [] (·.bytes)
      let new := old ++ lineEnd old ++ Record.encode id key
      a.files.read s.path = .ok new ∧
      a.files.file? l = some ⟨new,(fs.file? l).elim 0o600 (·.mode)⟩ ∧
      (∀ m ≠ l, a.files.file? m = fs.file? m) ∧ a.files.directories = fs.directories ∧
      match Gateway.decode pub new with
      | .ok gateways => a.result = .ok () ∧ a.store = ⟨s.path,gateways⟩ ∧
          a.log = [.added id s.path,.loaded gateways.length s.path]
      | .error e => a.result = .error e ∧ e.isOfContents ∧ a.store = s ∧ a.log = [.added id s.path]

/-- The effect of reading a store's file, with what it holds. -/
structure LoadEffect (fs : FileSystem) (s : Store) (r : Store × List LogLine × Except Error Unit) :
    Prop where
  absent : fs.read s.path = .error .noSuchFile →
    r = (⟨s.path,[]⟩,[.loaded 0 s.path],.ok ())
  unavailable : ∀ e, e ≠ .noSuchFile → fs.read s.path = .error e → r = (s,[],.error (.unavailable e))
  decoded : ∀ bytes gateways, fs.read s.path = .ok bytes → Gateway.decode pub bytes = .ok gateways →
    r = (⟨s.path,gateways⟩,[.loaded gateways.length s.path],.ok ())
  refused : ∀ bytes e, fs.read s.path = .ok bytes → Gateway.decode pub bytes = .error e →
    r = (s,[],.error e) ∧ e.isOfContents

variable {pub} {fs : FileSystem} {s : Store} {id : Eui64} {key : Key} {g : Gateway} {l : Location}

lemma reload_of_load {gateways : List Gateway} (h : load pub fs s.path = .ok gateways) :
    reload pub fs s = (⟨s.path,gateways⟩,[.loaded gateways.length s.path],.ok ()) := by
  simp [reload,h]

lemma reload_of_load_error {e : Error} (h : load pub fs s.path = .error e) :
    reload pub fs s = (s,[],.error e) := by
  simp [reload,h]

/-- What reading a store's file again does to the store. -/
theorem reload_effect (fs : FileSystem) (s : Store) : LoadEffect pub fs s (reload pub fs s) where
  absent h := reload_of_load (by simp [load,h])
  unavailable e he h := reload_of_load_error (by simp [load,h,he])
  decoded bytes gateways h hd := reload_of_load (by simp [load,h,hd])
  refused bytes e h hd := ⟨reload_of_load_error (by simp [load,h,hd]),
    Gateway.isOfContents_of_decode hd⟩

/-- Opening a store reads its file into an empty one. -/
lemma openAt_eq (fs : FileSystem) (path : String) :
    openAt pub fs path = ((reload pub fs ⟨path,[]⟩).2.1,
      (reload pub fs ⟨path,[]⟩).2.2.map fun _ => (reload pub fs ⟨path,[]⟩).1) := by
  simp only [openAt]
  rcases reload pub fs ⟨path,[]⟩ with ⟨st,log,result⟩
  cases result <;> rfl

lemma any_localId_iff : (s.gateways.any fun g => g.localId = id) = true ↔
    ∃ g ∈ s.gateways, g.localId = id := by
  simp

lemma add_of_known (h : ∃ g ∈ s.gateways, g.localId = id) :
    add pub fs s id key = ⟨s,fs,[],.error (.alreadyExists id)⟩ := by
  simp only [add,any_localId_iff.mpr h,if_true]

lemma add_of_odd (h : ∀ g ∈ s.gateways, g.localId ≠ id) (hodd : ¬(pub key).IsEven) :
    add pub fs s id key = ⟨s,fs,[],.error (.derivationFailed (.known (.lead (pub key).lead)))⟩ := by
  have hn : ¬(s.gateways.any fun g => g.localId = id) = true := by simpa using h
  simp only [add,if_neg hn,Gateway.new_of_odd hodd]
  rfl

lemma add_of_target_error {e : SystemError} (h : ∀ g ∈ s.gateways, g.localId ≠ id)
    (heven : (pub key).IsEven) (ht : fs.target s.path = .error e) :
    add pub fs s id key = ⟨s,fs,[],.error (.system e)⟩ := by
  have hn : ¬(s.gateways.any fun g => g.localId = id) = true := by simpa using h
  simp only [add,if_neg hn,Gateway.new_of_even heven,FileSystem.extend_of_target_error ht]

/-- The file behind an addition that writes. -/
def writtenFile (fs : FileSystem) (l : Location) (id : Eui64) (key : Key) : File :=
  let old := (fs.file? l).elim [] (·.bytes)
  ⟨old ++ lineEnd old ++ Record.encode id key,(fs.file? l).elim 0o600 (·.mode)⟩

lemma extend_tail (ht : fs.target s.path = .ok l) (hg : Gateway.new pub id key = .ok g) :
    fs.extend s.path fileMode (tail g) = .ok (fs.put l (writtenFile fs l id key)) := by
  rw [FileSystem.extend_of_target ht,writtenFile,FileSystem.fileOr]
  cases fs.file? l <;> simp [tail_of_new hg,fileMode]

lemma read_writtenFile (ht : fs.target s.path = .ok l) :
    (fs.put l (writtenFile fs l id key)).read s.path = .ok (writtenFile fs l id key).bytes :=
  FileSystem.read_put ht _

/-- An addition that writes ends with what comes of reading the file again. -/
lemma add_of_target {r : Store × List LogLine × Except Error Unit} (h : ∀ g ∈ s.gateways, g.localId ≠ id)
    (heven : (pub key).IsEven) (ht : fs.target s.path = .ok l)
    (hreload : reload pub (fs.put l (writtenFile fs l id key)) s = r) : add pub fs s id key =
      ⟨r.1,fs.put l (writtenFile fs l id key),.added id r.1.path :: r.2.1,r.2.2⟩ := by
  have hn : ¬(s.gateways.any fun g => g.localId = id) = true := by simpa using h
  have hg : Gateway.new pub id key = _ := Gateway.new_of_even heven
  simp only [add,if_neg hn,hg,extend_tail ht hg,hreload]

/-- An addition whose file can be read afterwards. -/
lemma add_of_decode {gateways : List Gateway} (h : ∀ g ∈ s.gateways, g.localId ≠ id)
    (heven : (pub key).IsEven) (ht : fs.target s.path = .ok l)
    (hd : Gateway.decode pub (writtenFile fs l id key).bytes = .ok gateways) :
    add pub fs s id key = ⟨⟨s.path,gateways⟩,fs.put l (writtenFile fs l id key),
      [.added id s.path,.loaded gateways.length s.path],.ok ()⟩ :=
  add_of_target h heven ht ((reload_effect _ s).decoded _ _ (read_writtenFile ht) hd)

/-- An addition whose file cannot be read afterwards. -/
lemma add_of_decode_error {e : Error} (h : ∀ g ∈ s.gateways, g.localId ≠ id)
    (heven : (pub key).IsEven) (ht : fs.target s.path = .ok l)
    (hd : Gateway.decode pub (writtenFile fs l id key).bytes = .error e) :
    add pub fs s id key = ⟨s,fs.put l (writtenFile fs l id key),[.added id s.path],.error e⟩ :=
  add_of_target h heven ht ((reload_effect _ s).refused _ _ (read_writtenFile ht) hd).1

variable (pub fs s id key) in
/-- The ways of an addition, in the order of its checks, with all that comes of each. -/
inductive AdditionOutcome : Addition Unit → Prop
  | known : (∃ g ∈ s.gateways, g.localId = id) → AdditionOutcome ⟨s,fs,[],.error (.alreadyExists id)⟩
  | odd : (∀ g ∈ s.gateways, g.localId ≠ id) → ¬(pub key).IsEven →
      AdditionOutcome ⟨s,fs,[],.error (.derivationFailed (.known (.lead (pub key).lead)))⟩
  | unwritable {e : SystemError} : (∀ g ∈ s.gateways, g.localId ≠ id) → (pub key).IsEven →
      fs.target s.path = .error e → AdditionOutcome ⟨s,fs,[],.error (.system e)⟩
  | unreadable {l : Location} {e : Error} : (∀ g ∈ s.gateways, g.localId ≠ id) → (pub key).IsEven →
      fs.target s.path = .ok l → Gateway.decode pub (writtenFile fs l id key).bytes = .error e →
      AdditionOutcome ⟨s,fs.put l (writtenFile fs l id key),[.added id s.path],.error e⟩
  | added {l : Location} {gateways : List Gateway} : (∀ g ∈ s.gateways, g.localId ≠ id) → (pub key).IsEven →
      fs.target s.path = .ok l → Gateway.decode pub (writtenFile fs l id key).bytes = .ok gateways →
      AdditionOutcome ⟨⟨s.path,gateways⟩,fs.put l (writtenFile fs l id key),
        [.added id s.path,.loaded gateways.length s.path],.ok ()⟩

variable (pub) in
lemma outcome_add (fs : FileSystem) (s : Store) (id : Eui64) (key : Key) :
    AdditionOutcome pub fs s id key (add pub fs s id key) := by
  by_cases hknown : ∃ g ∈ s.gateways, g.localId = id
  · rw [add_of_known hknown]
    exact .known hknown
  have hfresh : ∀ g ∈ s.gateways, g.localId ≠ id := fun g hg hid => hknown ⟨g,hg,hid⟩
  by_cases heven : (pub key).IsEven
  case neg =>
    rw [add_of_odd hfresh heven]
    exact .odd hfresh heven
  cases ht : fs.target s.path with
  | error e =>
    rw [add_of_target_error hfresh heven ht]
    exact .unwritable hfresh heven ht
  | ok l =>
    cases hd : Gateway.decode pub (writtenFile fs l id key).bytes with
    | error e =>
      rw [add_of_decode_error hfresh heven ht hd]
      exact .unreadable hfresh heven ht hd
    | ok gateways =>
      rw [add_of_decode hfresh heven ht hd]
      exact .added hfresh heven ht hd

/-- An addition that fails before it writes. -/
lemma AdditionEffect.of_failure {e : Error} (he : e.precedesWriting)
    (hexists : e = .alreadyExists id ↔ ∃ g ∈ s.gateways, g.localId = id)
    (honly : ∀ other, e = .alreadyExists other → other = id)
    (hodd : (∃ fault, e = .derivationFailed fault) ↔
      (∀ g ∈ s.gateways, g.localId ≠ id) ∧ ¬(pub key).IsEven)
    (hsystem : ∀ c, e = .system c ↔
      (∀ g ∈ s.gateways, g.localId ≠ id) ∧ (pub key).IsEven ∧ fs.target s.path = .error c) :
    AdditionEffect pub fs s id key ⟨s,fs,[],.error e⟩ where
  exists_iff := by simpa using hexists
  exists_only := by simpa using honly
  odd_iff := by simpa using hodd
  system_iff := by simpa using hsystem
  unchanged _ _ _ := ⟨rfl,rfl,rfl⟩
  written h := absurd he (h e rfl)

variable (id key) in
/-- What an addition that writes leaves in the files. -/
lemma files_written (ht : fs.target s.path = .ok l) :
    let a := fs.put l (writtenFile fs l id key)
    let old := (fs.file? l).elim [] (·.bytes)
    let new := old ++ lineEnd old ++ Record.encode id key
    a.read s.path = .ok new ∧ a.file? l = some ⟨new,(fs.file? l).elim 0o600 (·.mode)⟩ ∧
      (∀ m ≠ l, a.file? m = fs.file? m) ∧ a.directories = fs.directories :=
  ⟨read_writtenFile ht,FileSystem.file?_put_self _ _ _,
    fun _ hm => FileSystem.file?_put_of_ne _ hm _,rfl⟩

/-- An addition that writes fails for what the file holds then, if at all. -/
lemma AdditionEffect.of_written {a : Addition Unit} (h : ∀ g ∈ s.gateways, g.localId ≠ id) (heven : (pub key).IsEven)
    (ht : fs.target s.path = .ok l) (hfiles : a.files = fs.put l (writtenFile fs l id key))
    (hlater : ∀ e, a.result = .error e → e.isOfContents)
    (hread : match Gateway.decode pub (writtenFile fs l id key).bytes with
      | .ok gateways => a.result = .ok () ∧ a.store = ⟨s.path,gateways⟩ ∧
          a.log = [.added id s.path,.loaded gateways.length s.path]
      | .error e => a.result = .error e ∧ e.isOfContents ∧ a.store = s ∧ a.log = [.added id s.path]) :
    AdditionEffect pub fs s id key a where
  exists_iff := by
    refine iff_of_false (fun he => ?_) (fun ⟨g,hg,hid⟩ => h g hg hid)
    cases hlater _ he
  exists_only other he := by cases hlater _ he
  odd_iff := by
    refine iff_of_false (fun ⟨fault,he⟩ => ?_) (fun hodd => hodd.2 heven)
    cases hlater _ he
  system_iff e := by
    refine iff_of_false (fun he => ?_) (fun he => ?_)
    · cases hlater _ he
    · rw [ht] at he
      cases he.2.2
  unchanged e he hp := by
    have hc := hlater e he
    cases e <;> cases hp <;> cases hc
  written _ := by
    obtain ⟨hbytes,hfile,hothers,hdirectories⟩ := files_written id key ht
    rw [hfiles]
    exact ⟨l,ht,hbytes,hfile,hothers,hdirectories,hread⟩

lemma AdditionOutcome.effect {a : Addition Unit} (h : AdditionOutcome pub fs s id key a) :
    AdditionEffect pub fs s id key a := by
  cases h with
  | known hknown =>
    obtain ⟨g,hg,hid⟩ := hknown
    exact .of_failure rfl (iff_of_true rfl ⟨g,hg,hid⟩) (fun _ he => by cases he; rfl)
      (iff_of_false (fun ⟨_,he⟩ => by cases he) (fun hn => hn.1 g hg hid))
      (fun _ => iff_of_false (fun he => by cases he) (fun hn => hn.1 g hg hid))
  | odd hfresh hodd =>
    exact .of_failure rfl (iff_of_false (fun he => by cases he) fun ⟨g,hg,hid⟩ => hfresh g hg hid)
      (fun _ he => by cases he) (iff_of_true ⟨_,rfl⟩ ⟨hfresh,hodd⟩)
      (fun _ => iff_of_false (fun he => by cases he) (fun hn => hodd hn.2.1))
  | unwritable hfresh heven ht =>
    refine .of_failure rfl (iff_of_false (fun he => by cases he) fun ⟨g,hg,hid⟩ => hfresh g hg hid)
      (fun _ he => by cases he) (iff_of_false (fun ⟨_,he⟩ => by cases he) (fun hn => hn.2 heven)) fun c => ?_
    rw [ht]
    constructor
    · rintro ⟨⟩
      exact ⟨hfresh,heven,rfl⟩
    · rintro ⟨-,-,⟨⟩⟩
      rfl
  | unreadable hfresh heven ht hd =>
    have hc := Gateway.isOfContents_of_decode hd
    exact .of_written hfresh heven ht rfl (fun _ he => by cases he; exact hc) (by simp only [hd,hc,and_self])
  | added hfresh heven ht hd =>
    exact .of_written hfresh heven ht rfl (fun _ he => by cases he) (by simp only [hd,and_self])

/-- Which of its ways an addition goes, and what comes of it. -/
lemma addition_effect (fs : FileSystem) (s : Store) (id : Eui64) (key : Key) :
    AdditionEffect pub fs s id key (add pub fs s id key) :=
  (outcome_add pub fs s id key).effect

/-- Every operation of a store has its exact effect, for every list in memory, every state of the files,
every identifier and every key. Only an addition changes a file. -/
theorem operations_effect :
    (∀ (fs : FileSystem) (s : Store) (id : Eui64) (key : Key),
      AdditionEffect pub fs s id key (add pub fs s id key)) ∧
    (∀ (fs : FileSystem) (s : Store), LoadEffect pub fs s (reload pub fs s)) ∧
    (∀ (fs : FileSystem) (path : String), openAt pub fs path =
      ((reload pub fs ⟨path,[]⟩).2.1,(reload pub fs ⟨path,[]⟩).2.2.map fun _ =>
        (reload pub fs ⟨path,[]⟩).1)) ∧
    ∀ (session : Session) (name path : String),
      (session.request name (.openPath path : StoreRequest pub)).1.files = session.files ∧
      (session.request name (.reload : StoreRequest pub)).1.files = session.files := by
  refine ⟨addition_effect,reload_effect,openAt_eq,fun session name path => ⟨?_,?_⟩⟩
  · simp only [Session.request,Session.opened]
    split <;> rfl
  · simp only [Session.request]
    split <;> rfl

end Keyring.Store
