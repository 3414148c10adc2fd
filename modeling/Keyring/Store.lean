import Keyring.Config
import Keyring.FileSystem
import Keyring.KeySource
import Keyring.Record

/-! A store: the gateways of one file, held in memory. Gateways are only ever added, at the end of the
file, and after each one the whole file is read again. Two stores on one file may add the same local
identifier; a search then finds the gateway that comes first. -/
namespace Keyring

/-- What a store tells about its work. -/
inductive LogLine where
  | loaded (count : Nat) (path : String)
  | added (id : Eui64) (path : String)
  deriving DecidableEq

def LogLine.text : LogLine → String
  | loaded count path => "DEBUG loaded " ++ toString count ++ " gateway(s) from " ++ path
  | added id path => "INFO added gateway " ++ id.toHex ++ " to " ++ path

structure Store where
  path : String
  gateways : List Gateway

namespace Store

variable (pub : PublicKeyMap)

/-- The gateways of the file at a path. A file that is not there holds none. -/
def load (fs : FileSystem) (path : String) : Except Error (List Gateway) :=
  match fs.read path with
  | .ok bytes => Gateway.decode pub bytes
  | .error e => if e = .noSuchFile then .ok [] else .error (.unavailable e)

/-- Reads the file again. If that fails, the store stays as it is. -/
def reload (fs : FileSystem) (s : Store) : Store × List LogLine × Except Error Unit :=
  match load pub fs s.path with
  | .ok gateways => ({ s with gateways := gateways },[.loaded gateways.length s.path],.ok ())
  | .error e => (s,[],.error e)

def openAt (fs : FileSystem) (path : String) : List LogLine × Except Error Store :=
  match reload pub fs ⟨path,[]⟩ with
  | (s,log,.ok _) => (log,.ok s)
  | (_,log,.error e) => (log,.error e)

/-- The first gateway with a property. -/
def first (p : Gateway → Bool) (gs : List Gateway) : Except Error Gateway :=
  match gs.find? p with
  | some g => .ok g
  | none => .error .notFound

theorem first_eq_ok_iff {p : Gateway → Bool} {gs : List Gateway} {g : Gateway} :
    first p gs = .ok g ↔ gs.find? p = some g := by
  rw [first]
  cases gs.find? p <;> simp

theorem eq_notFound_of_first {p : Gateway → Bool} {gs : List Gateway} {e : Error} (h : first p gs = .error e) :
    e = .notFound := by
  rw [first] at h
  split at h
  · cases h
  · exact (Except.error.inj h).symm

/-- Where a gateway has the property, one is found. -/
theorem exists_first {p : Gateway → Bool} {gs : List Gateway} {g : Gateway} (hg : g ∈ gs) (hp : p g) :
    ∃ g' ∈ gs, first p gs = .ok g' ∧ p g' := by
  cases h : gs.find? p with
  | none => exact absurd hp (List.find?_eq_none.mp h g hg)
  | some g' => exact ⟨g',List.mem_of_find?_eq_some h,first_eq_ok_iff.mpr h,List.find?_some h⟩

def byLocalId (s : Store) (id : Eui64) : Except Error Gateway := first (·.localId = id) s.gateways

def byNetworkId (s : Store) (id : Eui64) : Except Error Gateway := first (·.networkId = id) s.gateways

def byThingsIxId (s : Store) (id : ThingsIxId) : Except Error Gateway := first (·.thingsIxId = id) s.gateways

/-- The identifier of bytes that came from outside. -/
def idOfBytes (bytes : Bytes) : Except Error Eui64 := (Id.ofBytes .eui64 bytes).mapError .ofIdFault

def byLocalIdBytes (s : Store) (bytes : Bytes) : Except Error Gateway := do
  let id ← idOfBytes bytes
  s.byLocalId id

def byNetworkIdBytes (s : Store) (bytes : Bytes) : Except Error Gateway := do
  let id ← idOfBytes bytes
  s.byNetworkId id

/-- The mode of a store's file, when a store makes it. -/
def fileMode : Nat := 0o600

/-- What is put after the bytes of a file to add a gateway: its record, on a line of its own. -/
def tail (g : Gateway) (old : Bytes) : Bytes :=
  (if old.getLast?.all (· = 0x0a) then [] else [0x0a]) ++ g.encode

/-- What came of adding a gateway. -/
structure Addition (α : Type) where
  store : Store
  files : FileSystem
  log : List LogLine
  result : Except Error α

/-- Adds a gateway, unless the store knows its local identifier. -/
def add (fs : FileSystem) (s : Store) (id : Eui64) (key : Key) : Addition Unit :=
  let failed (e : Error) : Addition Unit := ⟨s,fs,[],.error e⟩
  if s.gateways.any (·.localId = id) then failed (.alreadyExists id)
  else match Gateway.new pub id key with
    | .error fault => failed (.ofIdentityFault fault)
    | .ok g => match fs.extend s.path fileMode (tail g) with
      | .error e => failed (.system e)
      | .ok fs =>
        let (s,log,result) := reload pub fs s
        ⟨s,fs,.added id s.path :: log,result⟩

/-- Adds a gateway with a new key, and looks it up. -/
def generate (fs : FileSystem) (s : Store) (id : Eui64) (source : KeySource pub) : Addition Gateway :=
  let a := add pub fs s id source.generate
  { a with result := match a.result with
    | .ok _ => a.store.byLocalId id
    | .error e => .error e }

def shown (s : Store) : String :=
  "YamlFileStore \x7b path: " ++ Text.quoted s.path ++ ", gateways: [" ++
    String.intercalate ", " (s.gateways.map (·.shown pub)) ++ "] \x7d"

end Store

/-- Opens the store that a configuration names. -/
def Config.openStore (pub : PublicKeyMap) (fs : FileSystem) (config : Config) :
    List LogLine × Except Error Store :=
  Store.openAt pub fs config.path

end Keyring
