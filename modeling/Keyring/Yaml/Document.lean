import Keyring.Yaml.Event
import Keyring.Yaml.Tokens

/-! The first document of a text. -/
namespace Keyring.Yaml

/-- The leads that need no directive. -/
def defaultTags : Expected.Tags := [(['!'],['!']),(['!','!'],"tag:yaml.org,2002:".toList)]

/-- The directives before a document, and the tokens after them. -/
def directives (version : Bool) (tags : Expected.Tags) : List Token → Option (Expected.Tags × List Token)
  | .version major minor :: r =>
    if version ∨ major ≠ 1 ∨ minor ≠ 1 ∧ minor ≠ 2 then none else directives true tags r
  | .tagDirective handle lead :: r =>
    if (tags.lookup handle).isSome then none else directives version (tags ++ [(handle,lead)]) r
  | r => some (tags ++ defaultTags,r)

/-- Tokens that end a document, or stand before the next one. -/
def isBetween : Token → Bool
  | .version _ _ | .tagDirective _ _ | .documentStart | .documentEnd | .streamEnd => true
  | _ => false

/-- The events of a document behind its start mark. -/
def contentEvents (tags : Expected.Tags) : List Token → List Anchored × Option (List Token)
  | [] => ([],none)
  | t :: r => if isBetween t then ([.empty],some (t :: r)) else Expected.events tags (t :: r)

/-- The events of the first document, and the tokens after them. A stream without a document counts as
one whose node is left out. -/
def firstEvents : List Token → List Anchored × Option (List Token)
  | [] => ([],none)
  | .streamEnd :: r => ([.empty],some (.streamEnd :: r))
  | t :: r => match t with
    | .version _ _ | .tagDirective _ _ | .documentStart => match directives false [] (t :: r) with
      | some (tags,.documentStart :: r) => contentEvents tags r
      | _ => ([],none)
    | _ => Expected.events defaultTags (t :: r)

structure Document where
  events : List (Event Nat)
  /-- Where the nodes are that aliases refer to, latest first. -/
  places : List (Nat × Nat)
  /-- Whether the document goes on to its end. -/
  complete : Bool
  /-- Whether no other document follows. -/
  alone : Bool

/-- Numbers the anchors and puts the numbers for the aliases' names, as far as the names are known.
A new anchor has the number of names known before; a name defined again thereby gets another number,
which a later name may share. -/
def resolve (names : List (List Char × Nat)) (places : List (Nat × Nat)) (position : Nat) :
    List Anchored → List (Event Nat) × List (Nat × Nat) × Bool
  | [] => ([],places,true)
  | a :: r =>
    let (names,places) := match a.anchor with
      | none => (names,places)
      | some name =>
        let n := names.length
        ((name,n) :: names.filter (·.1 ≠ name),(n,position) :: places)
    let goOn (e : Event Nat) :=
      let (events,places,known) := resolve names places (position+1) r
      (e :: events,places,known)
    match a.event with
    | .alias name => match names.lookup name with
      | some n => goOn (.alias n)
      | none => ([],places,false)
    | .scalar tag text plain => goOn (.scalar tag text plain)
    | .sequenceStart => goOn .sequenceStart
    | .sequenceEnd => goOn .sequenceEnd
    | .mappingStart => goOn .mappingStart
    | .mappingEnd => goOn .mappingEnd

/-- Whether only document ends follow. -/
def nothingFollows : List Token → Bool
  | .documentEnd :: r => nothingFollows r
  | .streamEnd :: _ => true
  | _ => false

def Document.ofTokens (ts : List Token) : Document :=
  let (anchored,after) := firstEvents ts
  let (events,places,known) := resolve [] [] 0 anchored
  { events := events, places := places,
    complete := known && match after with | some (_ :: _) => true | _ => false,
    alone := nothingFollows (after.getD []) }

def Document.ofSource (s : Source) : Document := .ofTokens (tokens s).1

end Keyring.Yaml
