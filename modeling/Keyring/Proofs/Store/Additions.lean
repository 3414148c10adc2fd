import Keyring.Proofs.Extension
import Keyring.Proofs.Store.Interleaving

/-! What one store appends to a file that it did not write. Where the file leaves its list open, every addition is read
back, and no identifier is appended twice. Where it does not, the first addition makes the file unreadable, and the
store goes on appending what its memory does not hold. -/
namespace Keyring

/-- The bytes `old` of a file with records behind them. -/
def written (old : Bytes) (ps : List (Eui64 × Key)) : Bytes :=
  if ps = [] then old else old ++ lineEnd old ++ ps.flatMap fun p => Record.encode p.1 p.2

lemma lineEnd_append {b : Bytes} (h : b ≠ []) (a : Bytes) : lineEnd (a ++ b) = lineEnd b := by
  simp [lineEnd,h,List.getLast?_append_of_ne_nil a h]

lemma written_append (old : Bytes) (ps : List (Eui64 × Key)) (p : Eui64 × Key) :
    written old ps ++ lineEnd (written old ps) ++ Record.encode p.1 p.2 = written old (ps ++ [p]) := by
  by_cases hps : ps = []
  · subst hps
    simp [written]
  · have hne : (ps.flatMap fun p => Record.encode p.1 p.2) ≠ [] := by
      obtain ⟨p,ps,rfl⟩ := List.exists_cons_of_ne_nil hps
      rw [List.flatMap_cons]
      exact List.append_ne_nil_of_left_ne_nil (List.cons_ne_nil 0x2d _) _
    have hend : lineEnd (written old ps) = [] := by
      rw [written,if_neg hps,lineEnd_append hne,Record.lineEnd_encodings]
    rw [hend,List.append_nil,written,written,if_neg hps,if_neg (by simp),List.flatMap_append,List.flatMap_singleton,
      List.append_assoc]

variable {pub : PublicKeyMap} {old : Bytes} {gs : List Gateway} {ps : List (Eui64 × Key)}

variable (pub) in
/-- The file reads as these gateways, and also once its last line is ended. -/
structure Settled (old : Bytes) (gs : List Gateway) : Prop where
  decode : Gateway.decode pub old = .ok gs
  ended : Gateway.decode pub (old ++ lineEnd old) = .ok gs

lemma Settled.written_of_open (h : Settled pub old gs) (hopen : Yaml.Source.isOpen (.ofBytes old) = true)
    (heven : ∀ p ∈ ps, (pub p.2).IsEven) :
    ∃ gs' : List Gateway, gs'.map .ok = (ps.map fun p => Gateway.new pub p.1 p.2) ∧
      Gateway.decode pub (written old ps) = .ok (gs ++ gs') := by
  by_cases hps : ps = []
  · subst hps
    exact ⟨[],rfl,by rw [written,if_pos rfl,List.append_nil,h.decode]⟩
  · rw [written,if_neg hps]
    exact Gateway.decode_append_of_open h.decode h.ended hopen heven

lemma Settled.written_of_closed (h : Settled pub old gs) (hclosed : Yaml.Source.isOpen (.ofBytes old) = false)
    (hps : ps ≠ []) : ∃ fault, Gateway.decode pub (written old ps) = .error (.decode (.known (.records fault))) := by
  rw [written,if_neg hps]
  exact Gateway.decode_append_of_closed h.decode h.ended hclosed hps

namespace Store

variable {fs : FileSystem} {s : Store} {path : String} {id : Eui64} {key : Key}

/-- The file of an addition that writes. -/
lemma bytes_writtenFile {l : Location} {f : File} (hf : fs.file? l = some f) (hbytes : f.bytes = written old ps)
    (id : Eui64) (key : Key) : (writtenFile fs l id key).bytes = written old (ps ++ [(id,key)]) := by
  rw [writtenFile,hf,← written_append,← hbytes]
  rfl

lemma openAt_of_read {bytes : Bytes} (h : fs.read path = .ok bytes) :
    (openAt pub fs path).2 = (Gateway.decode pub bytes).map fun gs => ⟨path,gs⟩ := by
  rw [openAt_eq,reload,load,h]
  cases hd : Gateway.decode pub bytes <;> simp [hd,Except.map]

/-- Whether an addition to a store that was just opened succeeds depends on whether the file leaves its list open. If
so, the new gateway is the last one, in memory and for every store opened later. If not, the addition fails when its
record is written, and so does opening the file from then on. -/
theorem add_of_opened (hread : fs.read path = .ok old) (hopened : (openAt pub fs path).2 = .ok s)
    (hended : Gateway.decode pub (old ++ lineEnd old) = Gateway.decode pub old)
    (hfresh : ∀ g ∈ s.gateways, g.localId ≠ id)
    (heven : (pub key).IsEven) :
    let a := s.add pub fs id key
    a.files.read path = .ok (old ++ lineEnd old ++ Record.encode id key) ∧
    (Yaml.Source.isOpen (.ofBytes old) = true → ∃ g, Gateway.new pub id key = .ok g ∧ a.result = .ok () ∧
      a.store = ⟨path,s.gateways ++ [g]⟩ ∧ (openAt pub a.files path).2 = .ok a.store) ∧
    (Yaml.Source.isOpen (.ofBytes old) = false → ∃ fault, a.result = .error (.decode (.known (.records fault))) ∧
      a.store = s ∧ (openAt pub a.files path).2 = .error (.decode (.known (.records fault)))) := by
  obtain ⟨hload,hpath,-⟩ := openAt_eq_ok hopened
  rw [load_eq_ok_iff,hread] at hload
  have hsettled : Settled pub old s.gateways := ⟨hload,hended.trans hload⟩
  obtain ⟨l,f,htarget,hf,hbytes⟩ := FileSystem.target_of_read hread
  have hone : ∀ p ∈ [(id,key)], (pub p.2).IsEven := by simpa using heven
  have hwritten : (writtenFile fs l id key).bytes = written old [(id,key)] :=
    bytes_writtenFile hf (show f.bytes = written old [] by rw [hbytes]; rfl) id key
  have hnew : written old [(id,key)] = old ++ lineEnd old ++ Record.encode id key := by simp [written]
  obtain ⟨path',gs⟩ := s
  obtain rfl : path' = path := hpath
  have hread' : (fs.put l (writtenFile fs l id key)).read path' = .ok (writtenFile fs l id key).bytes :=
    read_writtenFile (s := ⟨path',gs⟩) htarget
  rw [hwritten] at hread'
  cases hopen : Yaml.Source.isOpen (.ofBytes old) with
  | true =>
    obtain ⟨gs',hgs',hdecode⟩ := hsettled.written_of_open hopen hone
    obtain ⟨g,rfl⟩ : ∃ g, gs' = [g] := List.length_eq_one_iff.mp (by simpa using congrArg List.length hgs')
    rw [add_of_decode hfresh heven htarget (hwritten ▸ hdecode)]
    refine ⟨by rw [hread',hnew],fun _ => ⟨g,?_,rfl,rfl,?_⟩,by simp⟩
    · simpa using hgs'.symm
    · rw [openAt_of_read hread',hdecode]
      rfl
  | false =>
    obtain ⟨fault,hdecode⟩ := hsettled.written_of_closed hopen (List.cons_ne_nil (id,key) [])
    rw [add_of_decode_error hfresh heven htarget (hwritten ▸ hdecode)]
    refine ⟨by rw [hread',hnew],by simp,fun _ => ⟨fault,rfl,rfl,?_⟩⟩
    rw [openAt_of_read hread',hdecode]
    rfl

/-- The only file there is. -/
def single (bytes : Bytes) : FileSystem := { files := [(["gateways.yaml"],⟨bytes,0o600⟩)] }

lemma target_single (bytes : Bytes) : (single bytes).target "gateways.yaml" = .ok ["gateways.yaml"] :=
  @FileSystem.target_put {} "gateways.yaml" ["gateways.yaml"] (by decide) ["gateways.yaml"] ⟨bytes,0o600⟩

lemma read_single (bytes : Bytes) : (single bytes).read "gateways.yaml" = .ok bytes := by
  rw [FileSystem.read_of_target (target_single bytes)]
  rfl

lemma openAt_single {bytes : Bytes} (h : bytes.all Text.isBlankByte = false) (hread : Record.readAll bytes = .ok []) :
    (openAt pub (single bytes) "gateways.yaml").2 = .ok ⟨"gateways.yaml",[]⟩ := by
  rw [openAt_of_read (read_single bytes),Gateway.decode_of_readAll h hread]
  rfl

/-- A file that holds nothing but a comment. -/
theorem add_of_opened_comment :
    let pub := Secp256k1.publicKey
    let old := Text.utf8 "# keys\n".toList
    let s : Store := ⟨"gateways.yaml",[]⟩
    (single old).read s.path = .ok old ∧ (openAt pub (single old) s.path).2 = .ok s ∧
    Gateway.decode pub (old ++ lineEnd old) = Gateway.decode pub old ∧ (∀ g ∈ s.gateways, g.localId ≠ .zero _) ∧
    (pub .one).IsEven ∧
    let a := s.add pub (single old) (.zero _) .one
    a.files.read s.path = .ok (old ++ lineEnd old ++ Record.encode (.zero _) .one) ∧
    (Yaml.Source.isOpen (.ofBytes old) = true → ∃ g, Gateway.new pub (.zero _) .one = .ok g ∧ a.result = .ok () ∧
      a.store = ⟨s.path,s.gateways ++ [g]⟩ ∧ (openAt pub a.files s.path).2 = .ok a.store) ∧
    (Yaml.Source.isOpen (.ofBytes old) = false → ∃ fault, a.result = .error (.decode (.known (.records fault))) ∧
      a.store = s ∧ (openAt pub a.files s.path).2 = .error (.decode (.known (.records fault)))) := by
  intro pub old s
  have hread := read_single old
  have hopened : (openAt pub (single old) s.path).2 = .ok s := openAt_single (by decide) (by decide +kernel)
  have hended : Gateway.decode pub (old ++ lineEnd old) = Gateway.decode pub old := by
    rw [show lineEnd old = [] by decide,List.append_nil]
  have hfresh : ∀ g ∈ s.gateways, g.localId ≠ .zero _ := by simp [s]
  exact ⟨hread,hopened,hended,hfresh,Secp256k1.isEven_publicKey_one,
    add_of_opened hread hopened hended hfresh Secp256k1.isEven_publicKey_one⟩

/-- A file that holds a null. It opens as an empty list, and an addition makes it unreadable. -/
theorem add_to_null :
    let pub := Secp256k1.publicKey
    let old := Text.utf8 "~\n".toList
    let s : Store := ⟨"gateways.yaml",[]⟩
    (single old).read s.path = .ok old ∧ (openAt pub (single old) s.path).2 = .ok s ∧ (pub .one).IsEven ∧
    let a := s.add pub (single old) (.zero _) .one
    a.result = .error (.decode (.known (.records ⟨"",.wrongKind⟩))) ∧ a.store = s ∧
      (openAt pub a.files s.path).2 = .error (.decode (.known (.records ⟨"",.wrongKind⟩))) := by
  intro pub old s
  refine ⟨read_single old,openAt_single (by decide) (by decide +kernel),Secp256k1.isEven_publicKey_one,?_⟩
  have hbytes : (writtenFile (single old) ["gateways.yaml"] (.zero _) .one).bytes =
      old ++ lineEnd old ++ Record.encode (.zero _) .one := rfl
  have hdecode : Gateway.decode pub (writtenFile (single old) ["gateways.yaml"] (.zero _) .one).bytes =
      .error (.decode (.known (.records ⟨"",.wrongKind⟩))) := by
    rw [hbytes]
    exact Gateway.decode_of_fault (by decide +kernel) (by decide +kernel)
  rw [add_of_decode_error (s := s) (by simp [s]) Secp256k1.isEven_publicKey_one (target_single old) hdecode]
  refine ⟨rfl,rfl,?_⟩
  rw [openAt_of_read (read_writtenFile (s := s) (target_single old)),hdecode]
  rfl

end Store

namespace Session

variable {path name : String} {l : Location} {s : Session} {memory : List Gateway}

/-- A request to a store that is open. -/
def IsUse : StoreRequest pub → Prop
  | .openPath _ | .openConfig _ => False
  | _ => True

/-- What a store appends that knows these identifiers. It comes to know those that it appends only if it can read
them. -/
def appends (readable : Bool) : (known : List Eui64) → List (StoreRequest pub) → List (Eui64 × Key)
  | _,[] => []
  | known,r :: rs => match pair? r with
    | none => appends readable known rs
    | some p =>
      if p.1 ∉ known ∧ (pub p.2).IsEven then p :: appends readable (if readable then p.1 :: known else known) rs
      else appends readable known rs

/-- The store of the name has these gateways in memory, and its file is what it was with the pairs behind it. -/
structure Appended (old : Bytes) (ps : List (Eui64 × Key)) (name path : String) (l : Location) (s : Session)
    (memory : List Gateway) : Prop where
  target : s.files.target path = .ok l
  file : ∃ f, s.files.file? l = some f ∧ f.bytes = written old ps
  store : s.store? name = some ⟨path,memory⟩

variable (pub) in
/-- The memory of a store that has read these bytes. -/
def refreshed (memory : List Gateway) (bytes : Bytes) : List Gateway :=
  match Gateway.decode pub bytes with
  | .ok gs => gs
  | .error _ => memory

namespace Appended

lemma read (h : Appended old ps name path l s memory) : s.files.read path = .ok (written old ps) := by
  obtain ⟨f,hf,hbytes⟩ := h.file
  rw [FileSystem.read_of_target h.target,hf,← hbytes]

lemma setStore (h : Appended old ps name path l s memory) (memory' : List Gateway) :
    Appended old ps name path l (s.setStore name (some ⟨path,memory'⟩)) memory' :=
  ⟨h.target,h.file,store?_setStore_self ..⟩

/-- Reading the file again. -/
lemma reload (h : Appended old ps name path l s memory) : Appended old ps name path l
    (s.request name (.reload : StoreRequest pub)).1 (refreshed pub memory (written old ps)) := by
  have hload : Store.load pub s.files path = Gateway.decode pub (written old ps) := by rw [Store.load,h.read]
  simp only [request,h.store,refreshed]
  cases hd : Gateway.decode pub (written old ps) with
  | ok gs =>
    rw [Store.reload_of_load (s := ⟨path,memory⟩) (hload.trans hd)]
    exact h.setStore gs
  | error e =>
    rw [Store.reload_of_load_error (s := ⟨path,memory⟩) (hload.trans hd)]
    exact h.setStore memory

/-- An addition that is refused before it writes. -/
lemma add_of_refused (h : Appended old ps name path l s memory) {id : Eui64} {key : Key}
    (hp : ¬((∀ g ∈ memory, g.localId ≠ id) ∧ (pub key).IsEven)) :
    let a := Store.add pub s.files ⟨path,memory⟩ id key
    Appended old ps name path l ({ s with files := a.files }.setStore name (some a.store)) memory := by
  by_cases hknown : ∃ g ∈ memory, g.localId = id
  · rw [Store.add_of_known hknown]
    exact h.setStore memory
  · have hfresh : ∀ g ∈ memory, g.localId ≠ id := fun g hg hid => hknown ⟨g,hg,hid⟩
    rw [Store.add_of_odd hfresh fun heven => hp ⟨hfresh,heven⟩]
    exact h.setStore memory

/-- An addition that writes. -/
lemma add_of_fresh (h : Appended old ps name path l s memory) {id : Eui64} {key : Key}
    (hfresh : ∀ g ∈ memory, g.localId ≠ id) (heven : (pub key).IsEven) :
    let a := Store.add pub s.files ⟨path,memory⟩ id key
    Appended old (ps ++ [(id,key)]) name path l ({ s with files := a.files }.setStore name (some a.store))
      (refreshed pub memory (written old (ps ++ [(id,key)]))) := by
  obtain ⟨f,hf,hbytes⟩ := h.file
  have hwritten := Store.bytes_writtenFile hf hbytes id key
  have hput (memory' : List Gateway) : Appended old (ps ++ [(id,key)]) name path l
      ({ s with files := s.files.put l (Store.writtenFile s.files l id key) }.setStore name (some ⟨path,memory'⟩))
        memory' :=
    ⟨FileSystem.target_put h.target l _,⟨_,FileSystem.file?_put_self _ _ _,hwritten⟩,store?_setStore_self ..⟩
  simp only [refreshed]
  cases hd : Gateway.decode pub (written old (ps ++ [(id,key)])) with
  | ok gs =>
    rw [Store.add_of_decode (s := ⟨path,memory⟩) hfresh heven h.target (hwritten ▸ hd)]
    exact hput gs
  | error e =>
    rw [Store.add_of_decode_error (s := ⟨path,memory⟩) hfresh heven h.target (hwritten ▸ hd)]
    exact hput memory

/-- A request to add a pair, which generates the key or has it given. -/
lemma exists_add (h : Appended old ps name path l s memory) {r : StoreRequest pub} {p : Eui64 × Key}
    (hp : pair? r = some p) :
    let a := Store.add pub s.files ⟨path,memory⟩ p.1 p.2
    (s.request name r).1 = { s with files := a.files }.setStore name (some a.store) := by
  cases r with
  | openPath => cases hp
  | openConfig => cases hp
  | reload => cases hp
  | add id key =>
    cases hp
    simp only [request,h.store,added]
  | generate id source =>
    cases hp
    simp only [request,h.store,added]
    rfl

end Appended

lemma appends_of_none {readable : Bool} {known : List Eui64} {r : StoreRequest pub} (h : pair? r = none)
    (rs : List (StoreRequest pub)) : appends readable known (r :: rs) = appends readable known rs := by
  rw [appends,h]

lemma appends_of_some {readable : Bool} {known : List Eui64} {r : StoreRequest pub} {p : Eui64 × Key}
    (h : pair? r = some p)
    (rs : List (StoreRequest pub)) : appends readable known (r :: rs) =
      if p.1 ∉ known ∧ (pub p.2).IsEven then p :: appends readable (if readable then p.1 :: known else known) rs
      else appends readable known rs := by
  rw [appends,h]

/-- What is read back is not appended again. -/
lemma nodup_appends (known : List Eui64) (rs : List (StoreRequest pub)) :
    ((appends true known rs).map (·.1)).Nodup ∧ ∀ p ∈ appends true known rs, p.1 ∉ known := by
  induction rs generalizing known with
  | nil => exact ⟨List.nodup_nil,by simp [appends]⟩
  | cons r rs ih =>
    cases hp : pair? r with
    | none =>
      rw [appends_of_none hp]
      exact ih known
    | some p =>
      rw [appends_of_some hp]
      by_cases hfresh : p.1 ∉ known ∧ (pub p.2).IsEven
      · rw [if_pos hfresh,if_pos rfl]
        obtain ⟨hnodup,hmem⟩ := ih (p.1 :: known)
        refine ⟨List.nodup_cons.mpr ⟨fun hp => ?_,hnodup⟩,List.forall_mem_cons.mpr ⟨hfresh.1,fun q hq hknown => ?_⟩⟩
        · obtain ⟨q,hq,heq⟩ := List.mem_map.mp hp
          exact hmem q hq (heq ▸ List.mem_cons_self)
        · exact hmem q hq (List.mem_cons_of_mem _ hknown)
      · rw [if_neg hfresh]
        exact ih known

/-- What cannot be read back is appended as often as it is asked for. -/
lemma appends_unread (known : List Eui64) (rs : List (StoreRequest pub)) : appends false known rs =
    (rs.filterMap pair?).filter fun p => p.1 ∉ known ∧ (pub p.2).IsEven := by
  induction rs with
  | nil => rfl
  | cons r rs ih =>
    cases hp : pair? r with
    | none => rw [appends_of_none hp,List.filterMap_cons_none hp,ih]
    | some p =>
      rw [appends_of_some hp,List.filterMap_cons_some hp,List.filter_cons,if_neg Bool.false_ne_true,ih]
      simp only [decide_eq_true_eq]

lemma eq_reload {r : StoreRequest pub} (hr : IsUse r) (hp : pair? r = none) : r = .reload := by
  cases r with
  | openPath => cases hr
  | openConfig => cases hr
  | reload => rfl
  | add => cases hp
  | generate => cases hp

lemma ids_of_new {gs : List Gateway} (h : gs.map .ok = ps.map fun p => Gateway.new pub p.1 p.2) :
    gs.map (·.localId) = ps.map (·.1) := by
  rw [← Gateway.pairs_of_new h,List.map_map]
  rfl

lemma fresh_iff {id : Eui64} : (∀ g ∈ gs, g.localId ≠ id) ↔ id ∉ gs.map (·.localId) := by simp

lemma play_cons (s : Session) (name : String) (r : StoreRequest pub) (rs : List (StoreRequest pub)) :
    (play s ((r :: rs).map fun r => (name,r))).1 = (play (s.request name r).1 (rs.map fun r => (name,r))).1 := rfl

variable {rs : List (StoreRequest pub)}

/-- A store whose file leaves its list open appends what is new, and holds all of it. -/
lemma Appended.play_of_open (hsettled : Settled pub old gs) (hopen : Yaml.Source.isOpen (.ofBytes old) = true)
    {gs' : List Gateway} (h : Appended old ps name path l s (gs ++ gs'))
    (hnew : gs'.map .ok = ps.map fun p => Gateway.new pub p.1 p.2) (heven : ∀ p ∈ ps, (pub p.2).IsEven)
    {known : List Eui64} (hknown : ∀ id, id ∈ known ↔ id ∈ (gs ++ gs').map (·.localId)) (hrs : ∀ r ∈ rs, IsUse r) :
    ∃ gs'', Appended old (ps ++ appends true known rs) name path l (Session.play s (rs.map fun r => (name,r))).1
      (gs ++ gs'') ∧
      gs''.map .ok = (ps ++ appends true known rs).map fun p => Gateway.new pub p.1 p.2 := by
  induction rs generalizing s ps gs' known with
  | nil => exact ⟨gs',by simpa [appends,Session.play] using h,by simpa [appends] using hnew⟩
  | cons r rs ih =>
    have hrs' : ∀ r ∈ rs, IsUse r := fun r hr => hrs r (List.mem_cons_of_mem _ hr)
    rw [play_cons]
    cases hp : pair? r with
    | none =>
      obtain rfl := eq_reload (hrs r List.mem_cons_self) hp
      obtain ⟨gs₂,hgs₂,hdecode⟩ := hsettled.written_of_open hopen heven
      obtain rfl : gs₂ = gs' := List.map_injective_iff.mpr (fun _ _ => Except.ok.inj) (hgs₂.trans hnew.symm)
      have hreload : Appended old ps name path l (s.request name (.reload : StoreRequest pub)).1 _ := h.reload
      rw [refreshed,hdecode] at hreload
      rw [appends_of_none hp]
      exact ih hreload hnew heven hknown hrs'
    | some p =>
      rw [appends_of_some hp,h.exists_add hp]
      have hfresh : (∀ g ∈ gs ++ gs', g.localId ≠ p.1) ↔ p.1 ∉ known := by rw [hknown,fresh_iff]
      by_cases hp' : p.1 ∉ known ∧ (pub p.2).IsEven
      · rw [if_pos hp',if_pos rfl]
        have heven' : ∀ q ∈ ps ++ [p], (pub q.2).IsEven := by
          intro q hq
          rcases List.mem_append.mp hq with hq | hq
          · exact heven q hq
          · cases List.mem_singleton.mp hq
            exact hp'.2
        obtain ⟨gs₂,hgs₂,hdecode⟩ := hsettled.written_of_open hopen heven'
        have hadd := h.add_of_fresh (hfresh.mpr hp'.1) hp'.2
        rw [refreshed,hdecode] at hadd
        have hknown' : ∀ id, id ∈ p.1 :: known ↔ id ∈ (gs ++ gs₂).map (·.localId) := by
          intro id
          rw [List.mem_cons,hknown,List.map_append,List.map_append,ids_of_new hgs₂,ids_of_new hnew,List.map_append]
          simp only [List.mem_append,List.map_cons,List.map_nil,List.mem_singleton]
          tauto
        obtain ⟨gs'',happended,hnew'⟩ := ih hadd hgs₂ heven' hknown' hrs'
        rw [List.append_assoc,List.singleton_append] at happended hnew'
        exact ⟨gs'',happended,hnew'⟩
      · rw [if_neg hp']
        have hrefused : ¬((∀ g ∈ gs ++ gs', g.localId ≠ p.1) ∧ (pub p.2).IsEven) :=
          fun hfresh' => hp' ⟨hfresh.mp hfresh'.1,hfresh'.2⟩
        exact ih (h.add_of_refused hrefused) hnew heven hknown hrs'

/-- A store whose file does not leave its list open appends what it did not hold at first, and reads none of it. -/
lemma Appended.play_of_closed (hsettled : Settled pub old gs) (hclosed : Yaml.Source.isOpen (.ofBytes old) = false)
    (h : Appended old ps name path l s gs) (hrs : ∀ r ∈ rs, IsUse r) :
    Appended old (ps ++ appends false (gs.map (·.localId)) rs) name path l
      (Session.play s (rs.map fun r => (name,r))).1 gs := by
  have hrefreshed (ps : List (Eui64 × Key)) : refreshed pub gs (written old ps) = gs := by
    rw [refreshed]
    by_cases hps : ps = []
    · rw [written,if_pos hps,hsettled.decode]
    · obtain ⟨fault,hdecode⟩ := hsettled.written_of_closed hclosed hps
      rw [hdecode]
  induction rs generalizing s ps with
  | nil => simpa [appends,Session.play] using h
  | cons r rs ih =>
    have hrs' : ∀ r ∈ rs, IsUse r := fun r hr => hrs r (List.mem_cons_of_mem _ hr)
    rw [play_cons]
    cases hp : pair? r with
    | none =>
      obtain rfl := eq_reload (hrs r List.mem_cons_self) hp
      rw [appends_of_none hp]
      exact ih (hrefreshed ps ▸ h.reload) hrs'
    | some p =>
      rw [appends_of_some hp,h.exists_add hp]
      by_cases hp' : p.1 ∉ gs.map (·.localId) ∧ (pub p.2).IsEven
      · rw [if_pos hp',if_neg Bool.false_ne_true,← List.singleton_append,← List.append_assoc]
        have hadd := h.add_of_fresh (fresh_iff.mpr hp'.1) hp'.2
        rw [hrefreshed] at hadd
        exact ih hadd hrs'
      · rw [if_neg hp']
        exact ih (h.add_of_refused fun hfresh => hp' ⟨fresh_iff.mp hfresh.1,hfresh.2⟩) hrs'

/-- What a store appends to the file that it opened, whatever it is asked and whatever is answered. Where the file
leaves its list open, no identifier is appended twice, and none that was there. Where it does not, a pair is appended
as often as it is asked for, unless its identifier was there at first or its key is odd. -/
theorem appended_of_opened {fs : FileSystem} {st : Store} (hread : fs.read path = .ok old)
    (hopened : (Store.openAt pub fs path).2 = .ok st)
    (hended : Gateway.decode pub (old ++ lineEnd old) = Gateway.decode pub old) (name : String)
    (hrs : ∀ r ∈ rs, IsUse r) :
    let known := st.gateways.map (·.localId)
    let ps := appends (Yaml.Source.isOpen (.ofBytes old)) known rs
    (play ⟨fs,[(name,st)]⟩ (rs.map fun r => (name,r))).1.files.read path = .ok (written old ps) ∧
    (Yaml.Source.isOpen (.ofBytes old) = true → (ps.map (·.1)).Nodup ∧ ∀ p ∈ ps, p.1 ∉ known) ∧
    (Yaml.Source.isOpen (.ofBytes old) = false →
      ps = (rs.filterMap pair?).filter fun p => p.1 ∉ known ∧ (pub p.2).IsEven) := by
  intro known ps
  obtain ⟨hload,hpath,-⟩ := Store.openAt_eq_ok hopened
  rw [Store.load_eq_ok_iff,hread] at hload
  have hsettled : Settled pub old st.gateways := ⟨hload,hended.trans hload⟩
  obtain ⟨l,f,htarget,hf,hbytes⟩ := FileSystem.target_of_read hread
  have hstart : Appended old [] name path l ⟨fs,[(name,st)]⟩ st.gateways := by
    refine ⟨htarget,⟨f,hf,by rw [hbytes,written,if_pos rfl]⟩,?_⟩
    rw [store?,List.lookup_cons_self,← hpath]
  cases hopen : Yaml.Source.isOpen (.ofBytes old) with
  | true =>
    have hknown : ∀ id, id ∈ known ↔ id ∈ (st.gateways ++ []).map Gateway.localId := by simp [known]
    rw [← List.append_nil st.gateways] at hstart
    obtain ⟨gs'',happended,-⟩ := hstart.play_of_open hsettled hopen rfl (by simp) hknown hrs
    refine ⟨?_,fun _ => ?_,by simp⟩
    · simpa [ps,hopen] using happended.read
    · simpa only [ps,hopen] using nodup_appends known rs
  | false =>
    have happended := hstart.play_of_closed hsettled hopen hrs
    refine ⟨?_,by simp,fun _ => ?_⟩
    · simpa [ps,hopen,known] using happended.read
    · simpa only [ps,hopen] using appends_unread known rs

/-- One identifier twice, behind a comment. -/
theorem appended_of_opened_comment :
    let pub := Secp256k1.publicKey
    let old := Text.utf8 "# keys\n".toList
    let st : Store := ⟨"gateways.yaml",[]⟩
    let rs : List (StoreRequest pub) := [.add (.zero _) .one,.reload,.add (.zero _) .one]
    (Store.single old).read st.path = .ok old ∧ (Store.openAt pub (Store.single old) st.path).2 = .ok st ∧
    Gateway.decode pub (old ++ lineEnd old) = Gateway.decode pub old ∧ (∀ r ∈ rs, IsUse r) ∧
    let known := st.gateways.map (·.localId)
    let ps := appends (Yaml.Source.isOpen (.ofBytes old)) known rs
    (play ⟨Store.single old,[("first",st)]⟩ (rs.map fun r => ("first",r))).1.files.read st.path = .ok (written old ps) ∧
    (Yaml.Source.isOpen (.ofBytes old) = true → (ps.map (·.1)).Nodup ∧ ∀ p ∈ ps, p.1 ∉ known) ∧
    (Yaml.Source.isOpen (.ofBytes old) = false →
      ps = (rs.filterMap pair?).filter fun p => p.1 ∉ known ∧ (pub p.2).IsEven) := by
  intro pub old st rs
  have hread := Store.read_single old
  have hopened : (Store.openAt pub (Store.single old) st.path).2 = .ok st :=
    Store.openAt_single (by decide) (by decide +kernel)
  have hended : Gateway.decode pub (old ++ lineEnd old) = Gateway.decode pub old := by
    rw [show lineEnd old = [] by decide,List.append_nil]
  have hrs : ∀ r ∈ rs, IsUse r := by simp [rs,IsUse]
  exact ⟨hread,hopened,hended,hrs,appended_of_opened hread hopened hended "first" hrs⟩

/-- One identifier twice, behind a null: both records are appended. -/
theorem appended_twice_to_null :
    let pub := Secp256k1.publicKey
    let old := Text.utf8 "~\n".toList
    let st : Store := ⟨"gateways.yaml",[]⟩
    let rs : List (StoreRequest pub) := [.add (.zero _) .one,.add (.zero _) .one]
    (Store.openAt pub (Store.single old) st.path).2 = .ok st ∧
    (play ⟨Store.single old,[("first",st)]⟩ (rs.map fun r => ("first",r))).1.files.read st.path =
      .ok (old ++ Record.encode (.zero _) .one ++ Record.encode (.zero _) .one) := by
  intro pub old st rs
  have hopened : (Store.openAt pub (Store.single old) st.path).2 = .ok st :=
    Store.openAt_single (by decide) (by decide +kernel)
  have hline : lineEnd old = [] := by decide
  have hrecords : Record.readAll old = .ok [] := by decide +kernel
  have hdecode : Gateway.decode pub old = .ok [] := by
    rw [Gateway.decode_of_readAll (by decide) hrecords]
    rfl
  have hsettled : Settled pub old [] := ⟨hdecode,by rw [hline,List.append_nil,hdecode]⟩
  have hstart : Appended old [] "first" st.path [st.path] ⟨Store.single old,[("first",st)]⟩ [] :=
    ⟨Store.target_single old,⟨_,rfl,rfl⟩,rfl⟩
  have hrs : ∀ r ∈ rs, IsUse r := by simp [rs,IsUse]
  have happended := hstart.play_of_closed hsettled (by decide +kernel) hrs
  refine ⟨hopened,?_⟩
  have heven : (pub .one).IsEven := Secp256k1.isEven_publicKey_one
  rw [happended.read,appends_unread]
  simp [rs,pair?,heven,written,hline]

end Session
end Keyring
