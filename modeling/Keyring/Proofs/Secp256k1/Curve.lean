import Keyring.Proofs.KeyGrammar
import Keyring.Proofs.Secp256k1.Point

/-! The public keys of the curve. The base point has the order of the group, which is an odd prime, so no two keys have
the same public key, and those of a key and its negative differ in their sign only. -/
namespace Keyring

/-- What is asked of a curve. A public key has one of two leading bytes, no two keys have the same public key, and the
public keys of a key and its negative differ in the leading byte only. -/
structure IsCurve (pub : PublicKeyMap) : Prop where
  lead : ∀ key, (pub key).lead = PublicKey.evenLead ∨ (pub key).lead = PublicKey.oddLead
  injective : Function.Injective fun key => (pub key).compressed
  x_neg : ∀ key, (pub key.neg).x = (pub key).x
  lead_neg : ∀ key, (pub key.neg).lead ≠ (pub key).lead

lemma PublicKey.ext {a b : PublicKey} (hlead : a.lead = b.lead) (hx : a.x = b.x) : a = b := by
  cases a; cases b; cases hlead; cases hx; rfl

lemma PublicKey.evenLead_ne_oddLead : evenLead ≠ oddLead := by decide

namespace Secp256k1

open Point

instance fact_prime_groupOrder : Fact groupOrder.Prime := ⟨prime_groupOrder⟩

lemma groupOrder_nsmul_generator : groupOrder • generator = 0 :=
  (stands_multiple (by decide)).eq_zero (by decide +kernel)

lemma addOrderOf_generator : addOrderOf generator = groupOrder :=
  addOrderOf_eq_prime groupOrder_nsmul_generator (WeierstrassCurve.Affine.Point.some_ne_zero _)

/-- The point of a key. -/
def point (key : Key) : curve.Point := key.scalar • generator

lemma point_injective : Function.Injective point := by
  intro a b h
  have hmem (key : Key) : key.scalar ∈ Set.Iio (addOrderOf generator) := by
    rw [addOrderOf_generator]
    exact key.lt_order
  exact Key.ext (nsmul_injOn_Iio_addOrderOf (hmem a) (hmem b) h)

lemma point_neg (key : Key) : point key.neg = -point key := by
  have hsum : key.neg.scalar+key.scalar = groupOrder := Nat.sub_add_cancel key.lt_order.le
  rw [eq_neg_iff_add_eq_zero,point,point,← add_nsmul,hsum,groupOrder_nsmul_generator]

/-- The order of the group is odd. -/
lemma point_ne_neg (key : Key) : point key ≠ -point key := by
  rw [← point_neg]
  intro h
  have hscalar : key.scalar = groupOrder-key.scalar := congrArg Key.scalar (point_injective h)
  have hlt := key.lt_order
  have hodd : groupOrder%2 = 1 := by decide
  omega

lemma exists_point (key : Key) : ∃ x y h, point key = .some x y h := by
  cases hpoint : point key with
  | zero => exact absurd (by rw [hpoint]; rfl) (point_ne_neg key)
  | some x y h => exact ⟨x,y,h,rfl⟩

/-- The compressed form of a point. -/
def compress (x y : Residue) : PublicKey :=
  ⟨if y.val%2 = 0 then PublicKey.evenLead else PublicKey.oddLead,BigEndian.ofNat 32 x.val,BigEndian.length_ofNat _ _⟩

lemma publicKey_of_point {key : Key} {x y : Residue} {h : curve.Nonsingular x y} (hpoint : point key = .some x y h) :
    publicKey key = compress x y := by
  have hstands : Stands (multiple key.scalar) (point key) :=
    stands_multiple (key.lt_order.trans (by decide))
  rw [hpoint] at hstands
  simp only [publicKey,hstands.isAt.affine_eq,compress]

/-- The order of the field is odd. -/
lemma lead_compress_neg (x : Residue) {y : Residue} (hy : y ≠ 0) : (compress x (-y)).lead ≠ (compress x y).lead := by
  have hlt := ZMod.val_lt y
  have hodd : fieldOrder%2 = 1 := by decide
  have hval : (-y).val = fieldOrder-y.val := by rw [ZMod.neg_val,if_neg hy]
  rw [compress,compress,hval]
  split_ifs
  · omega
  · exact PublicKey.evenLead_ne_oddLead
  · exact PublicKey.evenLead_ne_oddLead.symm
  · omega

lemma publicKey_neg (key : Key) :
    (publicKey key.neg).x = (publicKey key).x ∧ (publicKey key.neg).lead ≠ (publicKey key).lead := by
  obtain ⟨x,y,h,hpoint⟩ := exists_point key
  have hne := point_ne_neg key
  have hneg := point_neg key
  rw [hpoint,WeierstrassCurve.Affine.Point.neg_some] at hneg hne
  rw [publicKey_of_point hpoint,publicKey_of_point hneg,negY_eq]
  have hy : y ≠ 0 := by
    rintro rfl
    refine hne ?_
    rw [WeierstrassCurve.Affine.Point.some.injEq,negY_eq,neg_zero]
    exact ⟨rfl,rfl⟩
  exact ⟨rfl,lead_compress_neg x hy⟩

lemma publicKey_injective : Function.Injective publicKey := by
  intro a b h
  obtain ⟨x,y,hxy,ha⟩ := exists_point a
  obtain ⟨x',y',hxy',hb⟩ := exists_point b
  have hx : x = x' := by
    have hbytes : BigEndian.ofNat 32 x.val = BigEndian.ofNat 32 x'.val := by
      have hbytes := congrArg PublicKey.x h
      rwa [publicKey_of_point ha,publicKey_of_point hb] at hbytes
    have hlt (r : Residue) : r.val < 256^32 := (ZMod.val_lt r).trans (by decide)
    have hval := congrArg BigEndian.toNat hbytes
    rw [BigEndian.toNat_ofNat (hlt x),BigEndian.toNat_ofNat (hlt x')] at hval
    exact ZMod.val_injective _ hval
  rcases WeierstrassCurve.Affine.Point.X_eq_iff.mp hx with hsame | hneg
  · exact point_injective (ha.trans (hsame.trans hb.symm))
  · have hab : a = b.neg := point_injective (by rw [point_neg,ha,hb,hneg])
    exact absurd (congrArg PublicKey.lead h) (hab ▸ (publicKey_neg b).2)

/-- The public keys of the curve secp256k1 have what is asked of a curve. -/
theorem isCurve_publicKey : IsCurve publicKey where
  lead key := by
    obtain ⟨x,y,h,hpoint⟩ := exists_point key
    rw [publicKey_of_point hpoint,compress]
    split_ifs
    · exact .inl rfl
    · exact .inr rfl
  injective a b h := publicKey_injective (PublicKey.ext (List.cons.inj h).1 (List.cons.inj h).2)
  x_neg key := (publicKey_neg key).1
  lead_neg key := (publicKey_neg key).2

end Secp256k1
end Keyring
