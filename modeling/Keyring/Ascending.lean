/-! Ascending lists without repetitions. They have the members of the lists that they are made from. -/
namespace Keyring

variable {α : Type} [Ord α] {a b : α} {l : List α}

/-- Inserts a value at its place in an ascending list, unless it is there. -/
def insertAscending (a : α) : List α → List α
  | [] => [a]
  | b :: r => match compare a b with
    | .lt => a :: b :: r
    | .eq => b :: r
    | .gt => b :: insertAscending a r

/-- The members of a list in ascending order, each once. -/
def ascending (l : List α) : List α := l.foldr insertAscending []

theorem mem_insertAscending [Std.LawfulEqOrd α] : b ∈ insertAscending a l ↔ b = a ∨ b ∈ l := by
  induction l with
  | nil => simp [insertAscending]
  | cons c r ih =>
    rw [insertAscending]
    split
    · exact List.mem_cons
    · next h =>
      rw [Std.compare_eq_iff_eq] at h
      rw [h,List.mem_cons,← or_assoc,or_self]
    · rw [List.mem_cons,ih,List.mem_cons,or_left_comm]

/-- The members of a list are kept. -/
theorem mem_ascending [Std.LawfulEqOrd α] : a ∈ ascending l ↔ a ∈ l := by
  induction l with
  | nil => exact Iff.rfl
  | cons b r ih =>
    rw [ascending,List.foldr_cons,mem_insertAscending,List.mem_cons]
    exact or_congr_right ih

theorem pairwise_insertAscending [Std.TransOrd α] [Std.LawfulEqOrd α] (a : α)
    (h : l.Pairwise fun a b => compare a b = .lt) :
    (insertAscending a l).Pairwise fun a b => compare a b = .lt := by
  induction l with
  | nil => exact List.pairwise_singleton ..
  | cons b r ih =>
    obtain ⟨hb,hr⟩ := List.pairwise_cons.mp h
    rw [insertAscending]
    split
    · next hab =>
      apply List.Pairwise.cons _ h
      intro c hc
      rcases List.mem_cons.mp hc with rfl | hc
      · exact hab
      · exact Std.TransCmp.lt_trans hab (hb c hc)
    · exact h
    · next hab =>
      apply List.Pairwise.cons _ (ih hr)
      intro c hc
      rcases mem_insertAscending.mp hc with rfl | hc
      · exact Std.OrientedCmp.lt_of_gt hab
      · exact hb c hc

/-- Each member is less than those behind it, so none stands there twice. -/
theorem pairwise_ascending [Std.TransOrd α] [Std.LawfulEqOrd α] (l : List α) :
    (ascending l).Pairwise fun a b => compare a b = .lt := by
  induction l with
  | nil => exact .nil
  | cons a r ih => exact pairwise_insertAscending a ih

end Keyring
