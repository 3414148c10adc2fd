import Keyring.Store
import Mathlib

/-! What a store writes for a gateway, and which gateways there are: those of even keys. Reading fails in
three ways only, each of them a failure of the contents of the file. -/
namespace Keyring

/-- What a store writes for a key and its local identifier. -/
def Record.encode (id : Eui64) (key : Key) : Bytes := Text.utf8 (Record.write ⟨id,key.toHex⟩)

/-- What ends the last line of a text: nothing, if there is none or it is ended already. -/
def lineEnd (bytes : Bytes) : Bytes :=
  if bytes ≠ [] ∧ bytes.getLast? ≠ some 0x0a then [0x0a] else []

namespace Gateway

variable {pub : PublicKeyMap} {id : Eui64} {key : Key} {g : Gateway}

lemma new_of_even (h : (pub key).IsEven) : Gateway.new pub id key =
    .ok ⟨id,(pub key).networkId,⟨(pub key).x,(pub key).length_x⟩,key⟩ := by
  simp [Gateway.new,PublicKey.identity,PublicKey.thingsIxId,h,Except.map]

lemma new_of_odd (h : ¬(pub key).IsEven) : Gateway.new pub id key =
    .error (.lead (pub key).lead) := by
  simp [Gateway.new,PublicKey.identity,PublicKey.thingsIxId,h,Except.map]

lemma even_of_new (h : Gateway.new pub id key = .ok g) : (pub key).IsEven := by
  by_contra hodd
  rw [new_of_odd hodd] at h
  cases h

lemma fields_of_new (h : Gateway.new pub id key = .ok g) : g.localId = id ∧ g.key = key := by
  rw [new_of_even (even_of_new h)] at h
  cases h
  exact ⟨rfl,rfl⟩

lemma identity_of_new (h : Gateway.new pub id key = .ok g) :
    (pub key).identity = .ok ⟨g.networkId,g.thingsIxId⟩ := by
  rw [Gateway.new] at h
  cases hi : (pub key).identity with
  | error fault => simp [hi,Except.map] at h
  | ok i =>
    rw [hi] at h
    cases h
    rfl

lemma encode_of_new (h : Gateway.new pub id key = .ok g) : g.encode = Record.encode id key := by
  obtain ⟨rfl,rfl⟩ := fields_of_new h
  rfl

end Gateway

lemma Store.tail_eq (g : Gateway) (old : Bytes) : Store.tail g old = lineEnd old ++ g.encode := by
  rw [Store.tail,lineEnd]
  congr 1
  cases old with
  | nil => rfl
  | cons b r =>
    cases hl : (b :: r).getLast? with
    | none => simp at hl
    | some c => by_cases hc : c = 0x0a <;> simp [hc]

lemma Store.tail_of_new {pub : PublicKeyMap} {id : Eui64} {key : Key} {g : Gateway}
    (h : Gateway.new pub id key = .ok g) (old : Bytes) :
    Store.tail g old = lineEnd old ++ Record.encode id key := by
  rw [Store.tail_eq,Gateway.encode_of_new h]

namespace Error

/-- Whether a failure comes before a store writes anything. -/
def precedesWriting : Error → Bool
  | alreadyExists _ | derivationFailed _ | system _ => true
  | _ => false

/-- Whether a failure lies in the contents of a store's file. -/
def isOfContents : Error → Bool
  | decode _ | keyDecode _ _ | derivation _ _ => true
  | _ => false

end Error

lemma Record.isOfContents_of_gateway {pub : PublicKeyMap} {i : Nat} {r : Record} {e : Error}
    (h : r.gateway pub i = .error e) : e.isOfContents := by
  simp only [Record.gateway] at h
  cases hk : Key.ofHex r.privateKey with
  | error fault =>
    simp only [hk] at h
    cases h
    rfl
  | ok key =>
    simp only [hk] at h
    cases hg : Gateway.new pub r.localId key with
    | error fault =>
      simp only [hg] at h
      cases h
      rfl
    | ok g => simp [hg] at h

lemma Record.isOfContents_of_gateways {pub : PublicKeyMap} {i : Nat} {rs : List Record} {e : Error}
    (h : Record.gateways pub i rs = .error e) : e.isOfContents := by
  induction rs generalizing i with
  | nil => cases h
  | cons r rs ih =>
    simp only [Record.gateways,bind,Except.bind] at h
    cases hr : r.gateway pub i with
    | error e' =>
      simp only [hr] at h
      cases h
      exact isOfContents_of_gateway hr
    | ok g =>
      simp only [hr] at h
      cases hrs : Record.gateways pub (i+1) rs with
      | error e' =>
        simp only [hrs] at h
        cases h
        exact ih hrs
      | ok gs => simp [hrs] at h

/-- A file that cannot be decoded fails for its contents. -/
lemma Gateway.isOfContents_of_decode {pub : PublicKeyMap} {bytes : Bytes} {e : Error}
    (h : Gateway.decode pub bytes = .error e) : e.isOfContents := by
  simp only [Gateway.decode] at h
  split at h
  · cases h
  · cases hr : Record.readAll bytes with
    | error fault =>
      simp only [hr] at h
      cases h
      rfl
    | ok records =>
      simp only [hr] at h
      exact Record.isOfContents_of_gateways h

end Keyring
