import Mathlib.Data.Finset.Card

namespace SRaftMuduo

/-- Sets of nodes any two of which meet. -/
structure QuorumSystem (N : Type*) where
  IsQuorum : Set N → Prop
  mono : ∀ {A B : Set N}, A ⊆ B → IsQuorum A → IsQuorum B
  inter : ∀ {A B : Set N}, IsQuorum A → IsQuorum B → ∃ v, v ∈ A ∧ v ∈ B

/-- The sets that hold more than half of the given nodes. -/
def QuorumSystem.majority {N : Type*} [DecidableEq N] (names : Finset N) : QuorumSystem N where
  IsQuorum A := ∃ S : Finset N, S ⊆ names ∧ (∀ v ∈ S, v ∈ A) ∧ names.card < 2*S.card
  mono := by
    rintro A B hAB ⟨S,hS,hA,hcard⟩
    exact ⟨S,hS,fun v hv => hAB (hA v hv),hcard⟩
  inter := by
    rintro A B ⟨S,hS,hA,hcS⟩ ⟨T,hT,hB,hcT⟩
    have hcard := Finset.card_union_add_card_inter S T
    have hle := Finset.card_le_card (Finset.union_subset hS hT)
    have hpos : 0 < (S ∩ T).card := by omega
    obtain ⟨v,hv⟩ := Finset.card_pos.mp hpos
    obtain ⟨hvS,hvT⟩ := Finset.mem_inter.mp hv
    exact ⟨v,hA v hvS,hB v hvT⟩

end SRaftMuduo
