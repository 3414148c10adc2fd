import Keyring.Proofs.Secp256k1.Curve
import Keyring.Proofs.Store.Lookup

/-! A ThingsIX ID belongs to one key. It leaves out the leading byte of the public key, so a key and its negative would
have the same one; but just one of the two is even, and only even keys have an identity. A store holds gateways of
even keys only, so what it finds by a ThingsIX ID has the key of that ID. -/
namespace Keyring

/-- ThingsIX IDs are given to even keys only, and tell them apart. -/
structure Unambiguous (pub : PublicKeyMap) : Prop where
  derived_iff : ∀ key, (∃ i, (pub key).identity = .ok i) ↔ (pub key).lead = 0x02
  built_iff : ∀ id key, (∃ g, Gateway.new pub id key = .ok g) ↔ (pub key).lead = 0x02
  refused : ∀ id key, (pub key).lead ≠ 0x02 →
    (pub key).identity.mapError Error.ofIdentityFault = .error (.derivationFailed (.known (.lead 0x03))) ∧
    (Gateway.new pub id key).mapError Error.ofIdentityFault = .error (.derivationFailed (.known (.lead 0x03)))
  one_of_two : ∀ key key' : Key, key'.scalar = groupOrder - key.scalar →
    Xor (∃ i, (pub key).identity = .ok i) (∃ i, (pub key').identity = .ok i)
  same_iff : ∀ a b i j, (pub a).identity = .ok i → (pub b).identity = .ok j →
    (i.thingsIxId = j.thingsIxId ↔ a.scalar = b.scalar) ∧ (i.thingsIxId = j.thingsIxId → i.networkId = j.networkId)
  loaded : ∀ bytes gs, Gateway.decode pub bytes = .ok gs →
    ∀ g ∈ gs, ∀ g' ∈ gs, g.thingsIxId = g'.thingsIxId → g.key = g'.key
  found : ∀ bytes gs path, Gateway.decode pub bytes = .ok gs →
    ∀ g ∈ gs, ∃ g', Store.byThingsIxId ⟨path,gs⟩ g.thingsIxId = .ok g' ∧ g'.key = g.key

namespace PublicKey

variable {key : PublicKey}

lemma identity_of_even (h : key.IsEven) : key.identity = .ok ⟨key.networkId,⟨key.x,key.length_x⟩⟩ := by
  rw [identity,thingsIxId,if_pos h]
  rfl

lemma identity_of_odd (h : ¬key.IsEven) : key.identity = .error (.lead key.lead) := by
  rw [identity,thingsIxId,if_neg h]
  rfl

/-- A public key has an identity if it is even, and then a certain one. -/
lemma identity_eq_ok_iff {i : Identity} :
    key.identity = .ok i ↔ key.IsEven ∧ i = ⟨key.networkId,⟨key.x,key.length_x⟩⟩ := by
  by_cases h : key.IsEven
  · rw [identity_of_even h,Except.ok.injEq,and_iff_right h,eq_comm]
  · rw [identity_of_odd h]
    exact iff_of_false nofun fun hi => h hi.1

lemma exists_identity_iff : (∃ i, key.identity = .ok i) ↔ key.IsEven := by
  simp only [identity_eq_ok_iff,exists_and_left,exists_eq,and_true]

end PublicKey

lemma Gateway.exists_new_iff {pub : PublicKeyMap} {id : Eui64} {key : Key} :
    (∃ g, Gateway.new pub id key = .ok g) ↔ (pub key).IsEven :=
  ⟨fun ⟨_,hg⟩ => even_of_new hg,fun h => ⟨_,new_of_even h⟩⟩

/-- The ThingsIX ID of a gateway in memory is found. -/
lemma Store.exists_byThingsIxId (path : String) {gs : List Gateway} {g : Gateway} (hg : g ∈ gs) :
    ∃ g' ∈ gs, Store.byThingsIxId ⟨path,gs⟩ g.thingsIxId = .ok g' ∧ g'.thingsIxId = g.thingsIxId := by
  obtain ⟨g',hmem,hfound,hid⟩ := exists_first (p := (·.thingsIxId = g.thingsIxId)) hg (decide_eq_true rfl)
  exact ⟨g',hmem,hfound,of_decide_eq_true hid⟩

namespace IsCurve

variable {pub : PublicKeyMap}

lemma lead_of_odd (h : IsCurve pub) {key : Key} (hodd : ¬(pub key).IsEven) : (pub key).lead = PublicKey.oddLead :=
  (h.lead key).resolve_left hodd

lemma eq_of_pub (h : IsCurve pub) {a b : Key} (hpub : pub a = pub b) : a = b :=
  h.injective (congrArg PublicKey.compressed hpub)

/-- Just one of a key and its negative is even. -/
lemma isEven_neg_iff (h : IsCurve pub) (key : Key) : (pub key.neg).IsEven ↔ ¬(pub key).IsEven := by
  constructor
  · intro hneg heven
    exact h.lead_neg key (hneg.trans heven.symm)
  · intro hodd
    by_contra hneg
    exact h.lead_neg key ((h.lead_of_odd hneg).trans (h.lead_of_odd hodd).symm)

lemma lead_eq_iff (h : IsCurve pub) {a b : Key} :
    (pub a).lead = (pub b).lead ↔ ((pub a).IsEven ↔ (pub b).IsEven) := by
  refine ⟨fun hlead => by rw [PublicKey.IsEven,PublicKey.IsEven,hlead],fun hiff => ?_⟩
  by_cases ha : (pub a).IsEven
  · exact ha.trans (hiff.mp ha).symm
  · rw [h.lead_of_odd ha,h.lead_of_odd (mt hiff.mpr ha)]

/-- The first coordinate tells a key up to its sign. -/
lemma x_eq_iff (h : IsCurve pub) {a b : Key} : (pub a).x = (pub b).x ↔ a = b ∨ a = b.neg := by
  constructor
  · intro hx
    by_cases hlead : (pub a).lead = (pub b).lead
    · exact .inl (h.eq_of_pub (PublicKey.ext hlead hx))
    · have hlead' : (pub a).lead = (pub b.neg).lead := by
        rw [h.lead_eq_iff] at hlead ⊢
        rw [h.isEven_neg_iff]
        tauto
      exact .inr (h.eq_of_pub (PublicKey.ext hlead' (hx.trans (h.x_neg b).symm)))
  · rintro (rfl | rfl)
    · rfl
    · exact h.x_neg b

/-- An even key is told by its first coordinate. -/
lemma eq_of_x (h : IsCurve pub) {a b : Key} (ha : (pub a).IsEven) (hb : (pub b).IsEven) (hx : (pub a).x = (pub b).x) :
    a = b := by
  rcases h.x_eq_iff.mp hx with rfl | rfl
  · rfl
  · exact absurd hb ((h.isEven_neg_iff b).mp ha)

lemma key_of_coherent (h : IsCurve pub) {g g' : Gateway} (hg : g.Coherent pub) (hg' : g'.Coherent pub)
    (hid : g.thingsIxId = g'.thingsIxId) : g.key = g'.key := by
  refine h.eq_of_x hg.even hg'.even ?_
  have hx := congrArg Id.bytes hid
  rwa [hg.thingsIxId,hg'.thingsIxId] at hx

end IsCurve

/-- A ThingsIX ID tells its key, in all that a store reads from a file, whatever that file holds. -/
theorem unambiguous {pub : PublicKeyMap} (h : IsCurve pub) : Unambiguous pub where
  derived_iff _ := PublicKey.exists_identity_iff
  built_iff _ _ := Gateway.exists_new_iff
  refused id key hodd := by
    have hlead := h.lead_of_odd hodd
    rw [PublicKey.identity_of_odd hodd,Gateway.new_of_odd hodd,hlead]
    exact ⟨rfl,rfl⟩
  one_of_two key key' hneg := by
    obtain rfl : key' = key.neg := Key.ext hneg
    rw [PublicKey.exists_identity_iff,PublicKey.exists_identity_iff,h.isEven_neg_iff]
    exact xor_not_right.mpr Iff.rfl
  same_iff a b i j hi hj := by
    obtain ⟨ha,rfl⟩ := PublicKey.identity_eq_ok_iff.mp hi
    obtain ⟨hb,rfl⟩ := PublicKey.identity_eq_ok_iff.mp hj
    have hkey (hid : (⟨(pub a).x,(pub a).length_x⟩ : ThingsIxId) = ⟨(pub b).x,(pub b).length_x⟩) : a = b :=
      h.eq_of_x ha hb (congrArg Id.bytes hid)
    refine ⟨⟨fun hid => hkey hid ▸ rfl,fun hscalar => ?_⟩,fun hid => hkey hid ▸ rfl⟩
    rw [Key.ext hscalar]
  loaded bytes gs hdecode g hg g' hg' :=
    h.key_of_coherent (Gateway.coherent_of_decode hdecode g hg) (Gateway.coherent_of_decode hdecode g' hg')
  found bytes gs path hdecode g hg := by
    obtain ⟨g',hmem,hfound,hid⟩ := Store.exists_byThingsIxId path hg
    have hcoherent := Gateway.coherent_of_decode hdecode
    exact ⟨g',hfound,h.key_of_coherent (hcoherent g' hmem) (hcoherent g hg) hid⟩

/-- ThingsIX IDs on the curve secp256k1. -/
theorem unambiguous_secp256k1 : IsCurve Secp256k1.publicKey ∧ Unambiguous Secp256k1.publicKey :=
  ⟨Secp256k1.isCurve_publicKey,unambiguous Secp256k1.isCurve_publicKey⟩

end Keyring
