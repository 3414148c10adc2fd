import Keyring.Proofs.Secp256k1.Prime

/-! Points in Jacobian coordinates stand for points of the curve. Doubling a point and adding the base point are sums in
the group of the curve, and so the multiples of the base point are what they are there. -/
namespace Keyring.Secp256k1

instance fact_prime_fieldOrder : Fact fieldOrder.Prime := ⟨prime_fieldOrder⟩

/-- The coordinates, as numbers modulo the order of the field. -/
abbrev Residue := ZMod fieldOrder

/-- The curve y² = x³ + 7. -/
def curve : WeierstrassCurve.Affine Residue := ⟨0,0,0,0,7⟩

lemma mul_lt (a b : Nat) : mul a b < fieldOrder := Nat.mod_lt _ (by decide)

lemma sub_lt (a b : Nat) : sub a b < fieldOrder := Nat.mod_lt _ (by decide)

@[simp] lemma cast_mul (a b : Nat) : (mul a b : Residue) = a*b := by
  rw [mul,ZMod.natCast_mod,Nat.cast_mul]

lemma cast_sub (a : Nat) {b : Nat} (h : b < fieldOrder) : (sub a b : Residue) = a-b := by
  rw [sub,ZMod.natCast_mod,Nat.cast_add,Nat.cast_sub h.le,ZMod.natCast_self,zero_sub,sub_eq_add_neg]

lemma cast_eq_zero_iff {n : Nat} (h : n < fieldOrder) : (n : Residue) = 0 ↔ n = 0 := by
  rw [ZMod.natCast_eq_zero_iff]
  exact ⟨fun hdvd => Nat.eq_zero_of_dvd_of_lt hdvd h,fun hn => hn ▸ dvd_zero _⟩

lemma eq_val_of_cast {n : Nat} (h : n < fieldOrder) {r : Residue} (hr : (n : Residue) = r) : n = r.val := by
  rw [← hr,ZMod.val_natCast_of_lt h]

/-- By Fermat's little theorem. -/
lemma cast_inverse {a : Nat} (h : (a : Residue) ≠ 0) : (inverse a : Residue) = (a : Residue)⁻¹ := by
  have hpower : (inverse a : Residue) = (a : Residue)^(fieldOrder-2) := cast_power fieldOrder a (by decide)
  refine eq_inv_of_mul_eq_one_left ?_
  rw [hpower,← pow_succ]
  exact ZMod.pow_card_sub_one_eq_one h

lemma two_ne_zero : (2 : Residue) ≠ 0 := by
  have h := (cast_eq_zero_iff (n := 2) (by decide)).not.mpr (by decide)
  exact_mod_cast h

lemma ne_neg {y : Residue} (h : y ≠ 0) : y ≠ -y := by
  rw [ne_eq,eq_neg_iff_add_eq_zero,← two_mul]
  exact mul_ne_zero two_ne_zero h

lemma negY_eq (x y : Residue) : curve.negY x y = -y := by simp [WeierstrassCurve.Affine.negY,curve]

lemma addX_eq (x x' l : Residue) : curve.addX x x' l = l^2-x-x' := by simp [WeierstrassCurve.Affine.addX,curve]

lemma addY_eq (x x' y l : Residue) : curve.addY x x' y l = l*(x-(l^2-x-x'))-y := by
  rw [WeierstrassCurve.Affine.addY,WeierstrassCurve.Affine.negAddY,negY_eq,addX_eq]
  ring

/-- The slope of a tangent. -/
lemma slope_self (x : Residue) {y : Residue} (hy : y ≠ 0) : curve.slope x x y y*(2*y) = 3*x^2 := by
  have hsum : y-curve.negY x y = 2*y := by
    rw [negY_eq]
    ring
  rw [WeierstrassCurve.Affine.slope_of_Y_ne rfl (negY_eq x y ▸ ne_neg hy),hsum,
    div_mul_cancel₀ _ (mul_ne_zero two_ne_zero hy)]
  simp [curve]

/-- The slope of a chord. -/
lemma slope_of_ne {x x' : Residue} (hx : x ≠ x') (y y' : Residue) : curve.slope x x' y y'*(x-x') = y-y' := by
  rw [WeierstrassCurve.Affine.slope_of_X_ne hx,div_mul_cancel₀ _ (sub_ne_zero.mpr hx)]

lemma nonsingular_base : curve.Nonsingular baseX baseY := by
  have hequation : (baseY : Residue)^2 = baseX^3+7 := by
    exact_mod_cast (ZMod.natCast_eq_natCast_iff' (baseY^2) (baseX^3+7) fieldOrder).mpr (by decide)
  have hy : (baseY : Residue) ≠ 0 := (cast_eq_zero_iff (by decide)).not.mpr (by decide)
  refine (curve.nonsingular_iff _ _).mpr ⟨?_,.inr ?_⟩
  · rw [WeierstrassCurve.Affine.equation_iff]
    simpa [curve] using hequation
  · simpa [curve] using ne_neg hy

/-- The base point, as a point of the curve. -/
def generator : curve.Point := .some baseX baseY nonsingular_base

namespace Point

/-- A point other than the neutral one is at (x/z², y/z³). -/
structure IsAt (p : Point) (x y : Residue) : Prop where
  z : (p.z : Residue) ≠ 0
  x_eq : (p.x : Residue) = x*p.z^2
  y_eq : (p.y : Residue) = y*p.z^3
  x_lt : p.x < fieldOrder
  y_lt : p.y < fieldOrder

/-- The point of the curve that coordinates stand for. -/
inductive Stands : Point → curve.Point → Prop
  | neutral {p : Point} (z : p.z = 0) : Stands p 0
  | affine {p : Point} {x y : Residue} (h : curve.Nonsingular x y) (place : p.IsAt x y) : Stands p (.some x y h)

variable {p : Point} {q : curve.Point} {x y : Residue}

namespace IsAt

lemma z_ne_zero (h : p.IsAt x y) : p.z ≠ 0 := fun hz => h.z (by rw [hz,Nat.cast_zero])

lemma base : base.IsAt baseX baseY :=
  ⟨by simp [Point.base],by simp [Point.base],by simp [Point.base],by decide,by decide⟩

/-- The tangent meets the curve in the negative of the double. -/
lemma double (h : p.IsAt x y) (hy : y ≠ 0) :
    p.double.IsAt (curve.addX x x (curve.slope x x y y)) (curve.addY x x y (curve.slope x x y y)) := by
  have hslope := slope_self x hy
  generalize curve.slope x x y y = l at hslope ⊢
  rw [Point.double,if_neg h.z_ne_zero]
  dsimp only
  -- The second coordinate is found from the first one, so that is given a name.
  generalize hx' : sub _ (mul 2 _) = x'
  have hx'_lt : x' < fieldOrder := hx' ▸ sub_lt _ _
  have hx'_eq : (x' : Residue) = curve.addX x x l*(mul 2 (mul p.y p.z) : Nat)^2 := by
    simp only [← hx',addX_eq,cast_sub _ (mul_lt _ _),cast_mul,h.x_eq,h.y_eq,Nat.cast_ofNat]
    linear_combination -(p.z : Residue)^8*(l*(2*y)+3*x^2)*hslope
  refine ⟨?_,hx'_eq,?_,hx'_lt,sub_lt _ _⟩
  · simp only [cast_mul,h.y_eq,Nat.cast_ofNat]
    exact mul_ne_zero two_ne_zero (mul_ne_zero (mul_ne_zero hy (pow_ne_zero _ h.z)) h.z)
  · simp only [cast_sub _ (mul_lt _ _),cast_sub _ hx'_lt,hx'_eq,addX_eq,addY_eq,cast_mul,h.x_eq,h.y_eq,Nat.cast_ofNat]
    linear_combination -(4*y^2*(3*x-l^2)*(p.z : Residue)^12)*hslope

lemma cast_sub_x (h : p.IsAt x y) : (sub (mul baseX (mul p.z p.z)) p.x : Residue) = (baseX-x)*p.z^2 := by
  rw [cast_sub _ h.x_lt,cast_mul,cast_mul,h.x_eq]
  ring

lemma cast_sub_y (h : p.IsAt x y) : (sub (mul baseY (mul p.z (mul p.z p.z))) p.y : Residue) = (baseY-y)*p.z^3 := by
  rw [cast_sub _ h.y_lt,cast_mul,cast_mul,cast_mul,h.y_eq]
  ring

lemma sub_x_eq_zero_iff (h : p.IsAt x y) : sub (mul baseX (mul p.z p.z)) p.x = 0 ↔ x = baseX := by
  rw [← cast_eq_zero_iff (sub_lt _ _),h.cast_sub_x,mul_eq_zero_iff_right (pow_ne_zero _ h.z),sub_eq_zero,eq_comm]

lemma sub_y_eq_zero_iff (h : p.IsAt x y) : sub (mul baseY (mul p.z (mul p.z p.z))) p.y = 0 ↔ y = baseY := by
  rw [← cast_eq_zero_iff (sub_lt _ _),h.cast_sub_y,mul_eq_zero_iff_right (pow_ne_zero _ h.z),sub_eq_zero,eq_comm]

/-- The chord to the base point meets the curve in the negative of the sum. -/
lemma addBase (h : p.IsAt x y) (hx : x ≠ baseX) :
    p.addBase.IsAt (curve.addX x baseX (curve.slope x baseX y baseY))
      (curve.addY x baseX y (curve.slope x baseX y baseY)) := by
  have hslope := slope_of_ne hx y baseY
  generalize curve.slope x baseX y baseY = l at hslope ⊢
  have hd : (sub (mul baseX (mul p.z p.z)) p.x : Residue) ≠ 0 :=
    mt (cast_eq_zero_iff (sub_lt _ _)).mp (mt h.sub_x_eq_zero_iff.mp hx)
  have hr : (sub (mul baseY (mul p.z (mul p.z p.z))) p.y : Residue) = l*(baseX-x)*p.z^3 := by
    rw [h.cast_sub_y]
    linear_combination (p.z : Residue)^3*hslope
  rw [Point.addBase,if_neg h.z_ne_zero]
  dsimp only
  rw [if_neg (mt h.sub_x_eq_zero_iff.mp hx)]
  generalize hx' : sub (sub (mul _ _) _) (mul 2 _) = x'
  have hx'_lt : x' < fieldOrder := hx' ▸ sub_lt _ _
  have hx'_eq : (x' : Residue) =
      curve.addX x baseX l*(mul p.z (sub (mul baseX (mul p.z p.z)) p.x) : Nat)^2 := by
    simp only [← hx',addX_eq,cast_sub _ (mul_lt _ _),cast_mul,h.x_eq,h.cast_sub_x,hr,Nat.cast_ofNat]
    ring
  refine ⟨?_,hx'_eq,?_,hx'_lt,sub_lt _ _⟩
  · rw [cast_mul]
    exact mul_ne_zero h.z hd
  · simp only [cast_sub _ (mul_lt _ _),cast_sub _ hx'_lt,hx'_eq,addX_eq,addY_eq,cast_mul,h.x_eq,h.y_eq,h.cast_sub_x,hr]
    ring

lemma affine_eq (h : p.IsAt x y) : p.affine = (x.val,y.val) := by
  have hx : (mul p.x (mul (inverse p.z) (inverse p.z)) : Residue) = x := by
    have hz := h.z
    simp only [cast_mul,cast_inverse hz,h.x_eq]
    field_simp
  have hy : (mul p.y (mul (inverse p.z) (mul (inverse p.z) (inverse p.z))) : Residue) = y := by
    have hz := h.z
    simp only [cast_mul,cast_inverse hz,h.y_eq]
    field_simp
  exact Prod.ext (eq_val_of_cast (mul_lt _ _) hx) (eq_val_of_cast (mul_lt _ _) hy)

end IsAt

namespace Stands

lemma eq_zero (h : p.Stands q) (hz : p.z = 0) : q = 0 := by
  cases h with
  | neutral => rfl
  | affine _ place => exact absurd hz place.z_ne_zero

lemma isAt {h : curve.Nonsingular x y} (hp : p.Stands (.some x y h)) : p.IsAt x y := by
  cases hp with
  | affine _ place => exact place

lemma double (h : p.Stands q) : p.double.Stands (q+q) := by
  cases h with
  | neutral z =>
    rw [Point.double,if_pos z,add_zero]
    exact .neutral rfl
  | @affine x y h place =>
    by_cases hy : y = 0
    · rw [WeierstrassCurve.Affine.Point.add_self_of_Y_eq (by rw [negY_eq,hy,neg_zero]),Point.double,
        if_neg place.z_ne_zero]
      refine .neutral ((cast_eq_zero_iff (mul_lt _ _)).mp ?_)
      simp [place.y_eq,hy]
    · rw [WeierstrassCurve.Affine.Point.add_self_of_Y_ne (negY_eq x y ▸ ne_neg hy)]
      exact .affine _ (place.double hy)

lemma addBase (h : p.Stands q) : p.addBase.Stands (q+generator) := by
  have hdouble := h.double
  cases h with
  | neutral z =>
    rw [Point.addBase,if_pos z,zero_add]
    exact .affine _ .base
  | @affine x y h place =>
    by_cases hx : x = baseX
    · rw [Point.addBase,if_neg place.z_ne_zero]
      dsimp only
      rw [if_pos (place.sub_x_eq_zero_iff.mpr hx)]
      subst hx
      by_cases hy : y = baseY
      · rw [if_pos (place.sub_y_eq_zero_iff.mpr hy)]
        subst hy
        exact hdouble
      · have hneg : y = curve.negY baseX baseY :=
          (WeierstrassCurve.Affine.Y_eq_of_X_eq h.1 nonsingular_base.1 rfl).resolve_left hy
        rw [if_neg (mt place.sub_y_eq_zero_iff.mp hy),generator,WeierstrassCurve.Affine.Point.add_of_Y_eq rfl hneg]
        exact .neutral rfl
    · rw [generator,WeierstrassCurve.Affine.Point.add_of_X_ne hx]
      exact .affine _ (place.addBase hx)

end Stands

/-- Multiples of the base point are what they are in the group of the curve. -/
theorem stands_multiple {n : Nat} (h : n < 2^256) : Stands (multiple n) (n • generator) := by
  refine foldr_bits (R := fun n p => Stands p (n • generator)) ?_ (fun b n p hp => ?_) h
  · rw [zero_nsmul]
    exact .neutral rfl
  · have hdouble : Stands p.double ((2*n) • generator) := by
      rw [two_mul,add_nsmul]
      exact hp.double
    cases b with
    | false => exact hdouble
    | true =>
      rw [Bool.toNat_true,succ_nsmul]
      exact hdouble.addBase

end Point
end Keyring.Secp256k1
