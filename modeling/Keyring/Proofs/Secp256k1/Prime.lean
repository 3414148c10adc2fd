import Keyring.Secp256k1
import Mathlib

/-! The order of the field and the order of the group are prime. A number is prime if a residue has the order of the
number below it, and that is found by powers of the residue if the prime factors of that number are known. -/
namespace Keyring.Secp256k1

/-- What is done with the binary digits of a number, from the highest one on. Each step doubles the number and adds a
digit. -/
lemma foldr_bits {α : Type} {R : Nat → α → Prop} {f : Bool → α → α} {a : α} (zero : R 0 a)
    (step : ∀ b n r, R n r → R (2*n+b.toNat) (f b r)) {count n : Nat} (h : n < 2^count) :
    R n ((bits count n).foldr f a) := by
  induction count generalizing n with
  | zero =>
    obtain rfl : n = 0 := by omega
    exact zero
  | succ c ih =>
    rw [bits]
    split_ifs with hn
    · exact hn ▸ zero
    · have hhalf : n/2 < 2^c := by omega
      have hdigit : 2*(n/2)+(n%2 == 1).toNat = n := by
        rcases Nat.mod_two_eq_zero_or_one n with hmod | hmod <;> simp only [hmod] <;> simp <;> omega
      have hstep := step (n%2 == 1) (n/2) _ (ih hhalf)
      rwa [hdigit] at hstep

lemma cast_power (m a : Nat) {n : Nat} (h : n < 2^256) : (power m a n : ZMod m) = (a : ZMod m)^n := by
  refine foldr_bits (R := fun n (r : Nat) => (r : ZMod m) = (a : ZMod m)^n) (by simp) (fun b n r hr => ?_) h
  cases b
  · simp [hr,pow_mul',sq]
  · simp [hr,pow_succ,pow_mul']

/-- A number, a residue, and the prime factors of the number below. -/
structure Certificate where
  number : Nat
  residue : Nat
  factors : List Nat

namespace Certificate

/-- The residue has the order of the number below. -/
def Holds (c : Certificate) : Prop :=
  c.number < 2^256 ∧ c.factors.prod = c.number-1 ∧ power c.number c.residue (c.number-1)%c.number = 1%c.number ∧
    ∀ q ∈ c.factors, power c.number c.residue ((c.number-1)/q)%c.number ≠ 1%c.number

instance (c : Certificate) : Decidable c.Holds := inferInstanceAs (Decidable (_ ∧ _))

variable {c : Certificate}

lemma pow_eq_one_iff {n : Nat} (h : n < 2^256) :
    (c.residue : ZMod c.number)^n = 1 ↔ power c.number c.residue n%c.number = 1%c.number := by
  rw [← cast_power _ _ h,← Nat.cast_one,ZMod.natCast_eq_natCast_iff']

lemma prime (h : c.Holds) (hfactors : ∀ q ∈ c.factors, q.Prime) : c.number.Prime := by
  obtain ⟨hlt,hprod,hone,hother⟩ := h
  refine lucas_primality c.number c.residue ((pow_eq_one_iff (by omega)).mpr hone) fun q hq hdvd => ?_
  have hmem : q ∈ c.factors := by
    rw [← hprod] at hdvd
    exact mem_list_primes_of_dvd_prod hq.prime (fun r hr => (hfactors r hr).prime) hdvd
  have hle : (c.number-1)/q < 2^256 := (Nat.div_le_self _ _).trans_lt (by omega)
  rw [ne_eq,pow_eq_one_iff hle]
  exact hother q hmem

/-- Each number is certified from those that are known before. -/
def Chain : (known : List Nat) → List Certificate → Prop
  | _,[] => True
  | known,c :: cs => c.factors ⊆ known ∧ c.Holds ∧ Chain (c.number :: known) cs

instance decidableChain : (known : List Nat) → (cs : List Certificate) → Decidable (Chain known cs)
  | _,[] => inferInstanceAs (Decidable True)
  | known,c :: cs =>
    haveI := decidableChain (c.number :: known) cs
    inferInstanceAs (Decidable (_ ∧ _ ∧ _))

lemma Chain.prime {known : List Nat} {cs : List Certificate} (h : Chain known cs) (hknown : ∀ q ∈ known, q.Prime) :
    ∀ c ∈ cs, c.number.Prime := by
  induction cs generalizing known with
  | nil => simp
  | cons c cs ih =>
    obtain ⟨hfactors,hholds,hlater⟩ := h
    have hprime : c.number.Prime := Certificate.prime hholds fun q hq => hknown q (hfactors hq)
    exact List.forall_mem_cons.mpr ⟨hprime,ih hlater (List.forall_mem_cons.mpr ⟨hprime,hknown⟩)⟩

end Certificate

/-- The smaller primes among the factors of the certificates. -/
def smallPrimes : List Nat :=
  [2,3,5,7,11,17,29,31,41,53,59,97,109,149,293,461,631,797,971,1373,1627,1871,2011,2621,2657,4051,4423,5323,7723,9349,
    13441,16699,20113,24809,28181,41201,85831,96557,120233,305873]

lemma prime_of_mem_smallPrimes : ∀ q ∈ smallPrimes, q.Prime := by
  simp only [smallPrimes,List.forall_mem_cons]
  norm_num

/-- The larger primes among the factors, each before it is used, and then the orders of the group and of the field. -/
def certificates : List Certificate :=
  [⟨1206781,10,[2,2,3,5,20113]⟩,
    ⟨1627771,3,[2,3,5,29,1871]⟩,
    ⟨4681609,23,[2,2,2,3,97,2011]⟩,
    ⟨7240687,3,[2,3,1206781]⟩,
    ⟨13331831,13,[2,5,971,1373]⟩,
    ⟨44706919,6,[2,3,797,9349]⟩,
    ⟨107590001,3,[2,2,2,2,5,5,5,5,7,29,53]⟩,
    ⟨545358713,5,[2,2,2,41,59,28181]⟩,
    ⟨297159362677,2,[2,2,3,3,11,461,1627771]⟩,
    ⟨107361793816595537,3,[2,2,2,2,16699,85831,4681609]⟩,
    ⟨173378833005251801,6,[2,2,2,5,5,2621,24809,13331831]⟩,
    ⟨174723607534414371449,3,[2,2,2,17,59,4051,120233,44706919]⟩,
    ⟨22149492674086928081353,5,[2,2,2,3,5323,173378833005251801]⟩,
    ⟨132896956044521568488119,6,[2,3,22149492674086928081353]⟩,
    ⟨29047611873442575647497758179,2,[2,293,305873,545358713,297159362677]⟩,
    ⟨341948486974166000522343609283189,2,[2,2,3,3,3,109,29047611873442575647497758179]⟩,
    ⟨255515944373312847190720520512484175977,3,
      [2,2,2,7,7,11,1627,2657,4423,41201,96557,7240687,107590001]⟩,
    ⟨205115282021455665897114700593932402728804164701536103180137503955397371,10,
      [2,3,5,29,29,31,7723,132896956044521568488119,255515944373312847190720520512484175977]⟩,
    ⟨groupOrder,7,[2,2,2,2,2,2,3,149,631,107361793816595537,174723607534414371449,341948486974166000522343609283189]⟩,
    ⟨fieldOrder,3,[2,3,7,13441,205115282021455665897114700593932402728804164701536103180137503955397371]⟩]

lemma prime_of_mem_certificates : ∀ p ∈ certificates.map Certificate.number, p.Prime := by
  have hchain : Certificate.Chain smallPrimes certificates := by decide +kernel
  exact List.forall_mem_map.mpr (hchain.prime prime_of_mem_smallPrimes)

theorem prime_groupOrder : groupOrder.Prime := prime_of_mem_certificates _ (by decide)

theorem prime_fieldOrder : fieldOrder.Prime := prime_of_mem_certificates _ (by decide)

end Keyring.Secp256k1
