import Keyring.PublicKey

/-! Sources of private keys. A drawn key is used only if its public key is even. -/
namespace Keyring

/-- A sequence of keys, one of which at least is even. -/
structure KeySource (pub : PublicKeyMap) where
  draw : Nat → Key
  has_even : ∃ i, (pub (draw i)).IsEven

namespace KeySource

variable {pub : PublicKeyMap}

def IsEvenAt (s : KeySource pub) (i : Nat) : Prop := (pub (s.draw i)).IsEven

instance (s : KeySource pub) (i : Nat) : Decidable (s.IsEvenAt i) :=
  inferInstanceAs (Decidable (pub (s.draw i)).IsEven)

/-- A place before which every key was drawn in vain. -/
abbrev Open (s : KeySource pub) := { i : Nat // ∀ j < i, ¬s.IsEvenAt j }

theorem Open.bounded (s : KeySource pub) : ∃ n, ∀ i : s.Open, i.val ≤ n := by
  obtain ⟨n,hn⟩ := s.has_even
  exact ⟨n,fun i => Nat.le_of_not_lt fun h => i.property n h hn⟩

theorem wellFounded (s : KeySource pub) :
    WellFounded fun i j : s.Open => i.val = j.val+1 := by
  obtain ⟨n,hn⟩ := Open.bounded s
  refine Subrelation.wf (r := fun i j : s.Open => n - i.val < n - j.val) ?_
    (InvImage.wf (fun i : s.Open => n - i.val) Nat.lt_wfRel.wf)
  intro i j h
  have := hn i
  show n - i.val < n - j.val
  omega

instance (s : KeySource pub) : WellFoundedRelation s.Open := ⟨_,s.wellFounded⟩

/-- The place after one where the key was drawn in vain as well. -/
def Open.next {s : KeySource pub} (i : s.Open) (odd : ¬s.IsEvenAt i.val) : s.Open :=
  ⟨i.val+1,fun j h => by
    rcases Nat.lt_succ_iff_lt_or_eq.mp h with h | h
    · exact i.property j h
    · exact h ▸ odd⟩

/-- The first even key from a place on. -/
def firstFrom (s : KeySource pub) (i : s.Open) : Key :=
  if even : s.IsEvenAt i.val then s.draw i.val
  else firstFrom s (i.next even)
termination_by i
decreasing_by rfl

/-- The first even key. -/
def generate (s : KeySource pub) : Key := s.firstFrom ⟨0,fun _ h => absurd h (Nat.not_lt_zero _)⟩

end KeySource
end Keyring
