import Keyring.Store

/-! Any number of stores at work on the same files, and edits of the files from outside. -/
namespace Keyring

/-- What is asked of one store. -/
inductive StoreRequest (pub : PublicKeyMap) where
  | openPath (path : String)
  | openConfig (text : String)
  | reload
  | add (id : Eui64) (key : Key)
  | generate (id : Eui64) (source : KeySource pub)

/-- A change of the files by someone else. -/
inductive Edit where
  | write (path : String) (bytes : Bytes)
  | append (path : String) (bytes : Bytes)
  | remove (path : String)
  | makeDirectory (path : String)
  | removeDirectory (path : String)

/-- What a request came to. -/
inductive Answer where
  | noStore
  | done
  | generated (g : Gateway)
  | failed (e : Error)

structure Session where
  files : FileSystem := {}
  stores : List (String × Store) := []

namespace Session

/-- The mode of files that are edited from outside. -/
def editMode : Nat := 0o644

def edit (fs : FileSystem) : Edit → Option FileSystem
  | .write path bytes => (fs.write path ⟨bytes,editMode⟩).toOption
  | .append path bytes =>
    (fs.write path ⟨((fs.fileAt? path).map (·.bytes)).getD [] ++ bytes,editMode⟩).toOption
  | .remove path => fs.remove path
  | .makeDirectory path => fs.makeDirectory path
  | .removeDirectory path => fs.removeDirectory path

/-- The edited files, and whether the edit could be made. -/
def afterEdit (s : Session) (e : Edit) : Session × Bool :=
  match edit s.files e with
  | some fs => ({ s with files := fs },true)
  | none => (s,false)

def store? (s : Session) (name : String) : Option Store := s.stores.lookup name

/-- The session with a store, or with none, of that name. -/
def setStore (s : Session) (name : String) (store : Option Store) : Session :=
  let others := s.stores.filter (·.1 ≠ name)
  { s with stores := match store with
    | some st => (name,st) :: others
    | none => others }

variable {pub : PublicKeyMap}

/-- Keeps a store that was opened. After a failure no store has the name. -/
def opened (s : Session) (name : String) (result : List LogLine × Except Error Store) :
    Session × List LogLine × Answer :=
  match result.2 with
  | .ok st => (s.setStore name (some st),result.1,.done)
  | .error e => (s.setStore name none,result.1,.failed e)

/-- What is known of an addition to the store of a name. -/
def added {α : Type} (s : Session) (name : String) (a : Store.Addition α) (answer : α → Answer) :
    Session × List LogLine × Answer :=
  ({ s with files := a.files }.setStore name (some a.store),a.log,
    match a.result with
    | .ok x => answer x
    | .error e => .failed e)

/-- Carries out a request to the store of a name. -/
def request (s : Session) (name : String) : StoreRequest pub → Session × List LogLine × Answer
  | .openPath path => s.opened name (Store.openAt pub s.files path)
  | .openConfig text => match Config.ofYaml text with
    | .ok config => s.opened name (config.openStore pub s.files)
    | .error e => s.opened name ([],.error e)
  | .reload => match s.store? name with
    | none => (s,[],.noStore)
    | some st =>
      let (st,log,result) := st.reload pub s.files
      (s.setStore name (some st),log,match result with
        | .ok _ => .done
        | .error e => .failed e)
  | .add id key => match s.store? name with
    | none => (s,[],.noStore)
    | some st => s.added name (st.add pub s.files id key) fun _ => .done
  | .generate id source => match s.store? name with
    | none => (s,[],.noStore)
    | some st => s.added name (st.generate pub s.files id source) .generated

end Session
end Keyring
