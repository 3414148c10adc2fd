import Keyring.Shape
import Keyring.Yaml.Document
import Keyring.Yaml.Scalar

/-! Values read from a document. The events are walked in order, so the first defect met is the one
reported; a document that breaks off is malformed only where the walk comes to its end. -/
namespace Keyring.Yaml

/-- The events left, and how many aliases were followed so far. -/
structure Walk where
  rest : List (Event Nat)
  jumps : Nat

/-- A value, or the defect met first. -/
abbrev Read := Except Shape.Fault

namespace Document

def wrongKind {α : Type} (path : String) : Read α := .error ⟨path,.wrongKind⟩

def malformed {α : Type} : Read α := .error .malformed

/-- A scalar where a collection is expected. A tag of another kind has its own complaint, if the text
is not of that kind. -/
def scalarKind {α : Type} (path : String) (tag : Option (List Char)) (text : List Char) :
    Read α :=
  let is (name : String) := tag = some ("tag:yaml.org,2002:" ++ name).toList
  if is "bool" ∧ !Scalar.isBool text ∨ is "int" ∧ !Scalar.isInt text ∨
      is "float" ∧ !Scalar.isFloat text ∨ is "null" ∧ !Scalar.isNull text then malformed
  else wrongKind path

/-- The events from the node on that an alias refers to. Following aliases too often is a defect. -/
def follow (d : Document) (target : Nat) (w : Walk) : Read Walk :=
  if 100*d.events.length < w.jumps+1 then malformed
  else .ok ⟨d.events.drop ((d.places.lookup target).getD d.events.length),w.jumps+1⟩

/-- A scalar's text, whatever its form or tag. -/
def textHere (path : String) (w : Walk) : Read (String × Walk) :=
  match w.rest with
  | [] => malformed
  | .scalar _ text _ :: r => .ok (String.ofList text,⟨r,w.jumps⟩)
  | _ => wrongKind path

/-- Reads a value that may stand behind an alias. -/
def orAlias {α : Type} (d : Document) (read : Walk → Read (α × Walk)) (w : Walk) : Read (α × Walk) :=
  match w.rest with
  | .alias target :: r => do
    let inner ← d.follow target w
    let (value,inner) ← read inner
    .ok (value,⟨r,inner.jumps⟩)
  | _ => read w

def text (d : Document) (path : String) (w : Walk) : Read (String × Walk) := d.orAlias (textHere path) w

/-- The events after a node, `depth` collections inside of which one stands. -/
def skip : (depth : Nat) → List (Event Nat) → Option (List (Event Nat))
  | _,[] => none
  | depth,e :: r => match e with
    | .sequenceStart | .mappingStart => skip (depth+1) r
    | .sequenceEnd | .mappingEnd => if depth ≤ 1 then some r else skip (depth-1) r
    | .scalar _ _ _ | .alias _ => if depth = 0 then some r else skip depth r

def fieldPath (path name : String) : String := if path = "" then name else path ++ "." ++ name

/-- The fields of a mapping whose start was read. Fields that are not the record's are passed over. -/
def fields {σ : Type} (d : Document) (F : Shape.Fields σ) (path : String) :
    (fuel : Nat) → σ → Walk → Read (σ × Walk)
  | 0,_,_ => malformed
  | n+1,s,w => match w.rest with
    | .mappingEnd :: r => .ok (s,⟨r,w.jumps⟩)
    | rest => do
      let (name,w) ← d.text path w
      match F.seen? s name with
      | some true => .error ⟨path,.duplicateField name⟩
      | some false =>
        let shown := match rest with
          | .scalar _ _ _ :: _ => name
          | _ => "?"
        let (value,w) ← d.text (fieldPath path shown) w
        match F.put s name value with
        | .ok s => fields d F path n s w
        | .error reason => .error ⟨path,.refused reason⟩
      | none => match skip 0 w.rest with
        | some r => fields d F path n s ⟨r,w.jumps⟩
        | none => malformed

/-- A mapping. A node left out counts as one without fields. -/
def recordHere {σ : Type} (d : Document) (F : Shape.Fields σ) (path : String) (w : Walk) : Read (σ × Walk) :=
  match w.rest with
  | [] => malformed
  | .mappingStart :: r => d.fields F path (r.length+1) F.empty ⟨r,w.jumps⟩
  | .scalar _ [] true :: r => .ok (F.empty,⟨r,w.jumps⟩)
  | .scalar tag text _ :: _ => scalarKind path tag text
  | _ => wrongKind path

def record {σ : Type} (d : Document) (F : Shape.Fields σ) (path : String) (w : Walk) : Read (σ × Walk) :=
  d.orAlias (d.recordHere F path) w

def itemPath (index : Nat) : String := ".[" ++ toString index ++ "]"

/-- The items of a sequence whose start was read, from the one at `index` on. -/
def items {α : Type} (item : (path : String) → Walk → Read (α × Walk)) :
    (fuel index : Nat) → Walk → Read (List α × Walk)
  | 0,_,_ => malformed
  | n+1,index,w => match w.rest with
    | .sequenceEnd :: r => .ok ([],⟨r,w.jumps⟩)
    | _ => do
      let (a,w) ← item (itemPath index) w
      let (l,w) ← items item n (index+1) w
      .ok (a :: l,w)

/-- An item is read before those behind it. -/
theorem items_succ {α : Type} {item : (path : String) → Walk → Read (α × Walk)} {n index : Nat} {w : Walk}
    (h : ∀ r, w.rest ≠ .sequenceEnd :: r) : items item (n+1) index w = (do
      let (a,w) ← item (itemPath index) w
      let (l,w) ← items item n (index+1) w
      .ok (a :: l,w)) := by
  rw [items]
  split
  · next r hend => exact absurd hend (h r)
  · rfl

/-- The list at the root. Nothing at all and a null are the empty list. -/
def rootList {α : Type} (d : Document) (item : (path : String) → Walk → Read (α × Walk)) :
    Read (List α) :=
  match d.events with
  | .sequenceStart :: r => do
    let (l,_) ← items item (r.length+1) 0 ⟨r,0⟩
    .ok l
  | .scalar tag text plain :: _ =>
    if plain ∧ tag = some "tag:yaml.org,2002:null".toList then
      if Scalar.isNull text then .ok [] else malformed
    else if plain ∧ (text = [] ∨ tag = none ∧ Scalar.isNull text) then .ok []
    else scalarKind "" tag text
  | .mappingStart :: _ => wrongKind ""
  | _ => malformed

/-- The record at the root. -/
def rootRecord {σ : Type} (d : Document) (F : Shape.Fields σ) : Read σ := do
  let (s,_) ← d.record F "" ⟨d.events,0⟩
  .ok s

/-- What was read counts only if the document is complete and the only one. -/
def accept {α : Type} (d : Document) (result : Except Shape.Fault α) : Read α := do
  let a ← result
  if !d.complete then malformed
  else if !d.alone then .error ⟨"",.severalDocuments⟩
  else .ok a

end Document
end Keyring.Yaml
