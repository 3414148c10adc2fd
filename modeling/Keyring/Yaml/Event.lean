import Keyring.Yaml.Cursor

/-! The nodes of a document as a sequence of events. -/
namespace Keyring.Yaml

/-- An alias refers to its node by a value of `ref`. -/
inductive Event (ref : Type) where
  | alias (target : ref)
  | scalar (tag : Option (List Char)) (text : List Char) (plain : Bool)
  | sequenceStart
  | sequenceEnd
  | mappingStart
  | mappingEnd
  deriving DecidableEq

/-- An event with the anchor of the node that it begins. -/
structure Anchored where
  anchor : Option (List Char)
  event : Event (List Char)

/-- A node left out. -/
def Anchored.empty : Anchored := ⟨none,.scalar none [] true⟩

/-- What is expected next. -/
inductive Expected where
  /-- A node. One that follows the indicator of a key or a value may be a sequence without
  indentation. -/
  | node (block indentless : Bool)
  | blockSequence
  | indentlessSequence
  | blockKey
  | blockValue
  | flowSequence (first : Bool)
  | pairKey
  | pairValue
  | pairEnd
  | flowKey (first : Bool)
  | flowValue (omitted : Bool)
  deriving DecidableEq

namespace Expected

/-- The leads that tag handles stand for. -/
abbrev Tags := List (List Char × List Char)

def resolveTag (tags : Tags) (handle suffix : List Char) : Option (List Char) :=
  if handle = [] then some suffix else (tags.lookup handle).map (· ++ suffix)

/-- The anchor and the tag of a node, in either order. -/
def properties (tags : Tags) : List Token → Option (Option (List Char) × Option (List Char) × List Token)
  | .anchor a :: .tag h s :: r => (resolveTag tags h s).map fun t => (some a,some t,r)
  | .tag h s :: .anchor a :: r => (resolveTag tags h s).map fun t => (some a,some t,r)
  | .anchor a :: r => some (some a,none,r)
  | .tag h s :: r => (resolveTag tags h s).map fun t => (none,some t,r)
  | r => some (none,none,r)

/-- An event, what is expected after it, and the tokens left. -/
abbrev Step := List Anchored × List Expected × List Token

def nodeStep (tags : Tags) (block indentless : Bool) (ts : List Token) : Option Step :=
  match ts with
  | .alias name :: r => some ([⟨none,.alias name⟩],[],r)
  | _ => do
    let (anchor,tag,r) ← properties tags ts
    let opens (e : Event (List Char)) (next : Expected) (r : List Token) : Option Step :=
      some ([⟨anchor,e⟩],[next],r)
    match r with
    | [] => none
    | t :: r' =>
      if indentless ∧ t = .blockEntry then opens .sequenceStart .indentlessSequence r
      else match t,block with
        | .scalar text plain,_ =>
          some ([⟨anchor,.scalar tag text plain⟩],[],r')
        | .flowSequenceStart,_ => opens .sequenceStart (.flowSequence true) r'
        | .flowMappingStart,_ => opens .mappingStart (.flowKey true) r'
        | .blockSequenceStart,true => opens .sequenceStart .blockSequence r'
        | .blockMappingStart,true => opens .mappingStart .blockKey r'
        | _,_ =>
          if anchor.isSome ∨ tag.isSome then some ([⟨anchor,.scalar tag [] true⟩],[],r) else none

/-- A node, or an omitted one if one of the tokens `ends` follows. -/
def nodeUnless (ends : List Token) (as : Expected) (next : Expected) (r : List Token) : Option Step :=
  match r with
  | [] => none
  | t :: _ => if t ∈ ends then some ([.empty],[next],r) else some ([],[as,next],r)

def step (tags : Tags) : Expected → List Token → Option Step
  | _,[] => none
  | node block indentless,ts => nodeStep tags block indentless ts
  | blockSequence,t :: r => match t with
    | .blockEntry => nodeUnless [.blockEntry,.blockEnd] (node true false) blockSequence r
    | .blockEnd => some ([⟨none,.sequenceEnd⟩],[],r)
    | _ => none
  | indentlessSequence,t :: r => match t with
    | .blockEntry =>
      nodeUnless [.blockEntry,.key,.value,.blockEnd] (node true false) indentlessSequence r
    | _ => some ([⟨none,.sequenceEnd⟩],[],t :: r)
  | blockKey,t :: r => match t with
    | .key => nodeUnless [.key,.value,.blockEnd] (node true true) blockValue r
    | .blockEnd => some ([⟨none,.mappingEnd⟩],[],r)
    | _ => none
  | blockValue,t :: r => match t with
    | .value => nodeUnless [.key,.value,.blockEnd] (node true true) blockKey r
    | _ => some ([.empty],[blockKey],t :: r)
  | flowSequence first,t :: r => do
    if t = .flowSequenceEnd then some ([⟨none,.sequenceEnd⟩],[],r)
    else
      let r ← if first then some (t :: r) else if t = .flowEntry then some r else none
      match r with
      | [] => none
      | .key :: r => some ([⟨none,.mappingStart⟩],[pairKey],r)
      | .flowSequenceEnd :: r => some ([⟨none,.sequenceEnd⟩],[],r)
      | _ => some ([],[node false false,flowSequence false],r)
  | pairKey,t :: r =>
    -- The token after an omitted key is passed over with it.
    if t ∈ [.value,.flowEntry,.flowSequenceEnd] then some ([.empty],[pairValue],r)
    else some ([],[node false false,pairValue],t :: r)
  | pairValue,t :: r => match t with
    | .value => nodeUnless [.flowEntry,.flowSequenceEnd] (node false false) pairEnd r
    | _ => some ([.empty],[pairEnd],t :: r)
  | pairEnd,t :: r => some ([⟨none,.mappingEnd⟩],[flowSequence false],t :: r)
  | flowKey first,t :: r => do
    if t = .flowMappingEnd then some ([⟨none,.mappingEnd⟩],[],r)
    else
      let r ← if first then some (t :: r) else if t = .flowEntry then some r else none
      match r with
      | [] => none
      | .key :: r => nodeUnless [.value,.flowEntry,.flowMappingEnd] (node false false) (flowValue false) r
      | .flowMappingEnd :: r => some ([⟨none,.mappingEnd⟩],[],r)
      | _ => some ([],[node false false,flowValue true],r)
  | flowValue omitted,t :: r => match t,omitted with
    | .value,false => nodeUnless [.flowEntry,.flowMappingEnd] (node false false) (flowKey false) r
    | _,_ => some ([.empty],[flowKey false],t :: r)

/-- The events of what is expected, and the tokens after them, unless the tokens break a rule or break
off. -/
def run (tags : Tags) : (fuel : Nat) → List Expected → List Token → List Anchored × Option (List Token)
  | _,[],ts => ([],some ts)
  | 0,_ :: _,_ => ([],none)
  | n+1,e :: es,ts => match step tags e ts with
    | none => ([],none)
    | some (events,more,ts) =>
      let (rest,ts) := run tags n (more ++ es) ts
      (events ++ rest,ts)

/-- The events of one node. At most eight steps are made for a token. -/
def events (tags : Tags) (ts : List Token) : List Anchored × Option (List Token) :=
  run tags (8*ts.length+8) [node true false] ts

end Expected
end Keyring.Yaml
