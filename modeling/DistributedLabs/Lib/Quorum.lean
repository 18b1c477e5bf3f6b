import Mathlib.Data.Fintype.Card

/-! Majorities of a finite set of members: any two of them share a member. -/

namespace Quorum

variable {S : Type*} [Fintype S]

/-- More than half of all members. -/
def IsMajority (Q : Finset S) : Prop := Fintype.card S / 2 < Q.card

theorem IsMajority.exists_common [DecidableEq S] {Q R : Finset S} (hQ : IsMajority Q) (hR : IsMajority R) :
    ∃ p, p ∈ Q ∧ p ∈ R := by
  have hcard : Fintype.card S < Q.card + R.card := by
    unfold IsMajority at hQ hR
    omega
  obtain ⟨p, hp⟩ := Finset.inter_nonempty_of_card_lt_card_add_card (Finset.subset_univ Q) (Finset.subset_univ R) hcard
  exact ⟨p, Finset.mem_inter.mp hp⟩

theorem isMajority_fin {n : Nat} {Q : Finset (Fin n)} : IsMajority Q ↔ n / 2 < Q.card := by
  unfold IsMajority
  rw [Fintype.card_fin]

end Quorum
