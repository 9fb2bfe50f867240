import Mathlib.Algebra.Order.BigOperators.Group.Finset
import Mathlib.Data.Fintype.BigOperators

namespace StraceXv6.Data

/-! Sums of a weight over the local states of finitely many processes. -/

variable {ι β : Type*} [Fintype ι]

def tally (weight : β → Nat) (locals : ι → β) : Nat :=
  ∑ i, weight (locals i)

theorem weight_le_tally (weight : β → Nat) (locals : ι → β) (i : ι) :
    weight (locals i) ≤ tally weight locals :=
  Finset.single_le_sum (f := fun i => weight (locals i))
    (fun _ _ => Nat.zero_le _) (Finset.mem_univ i)

theorem tally_update [DecidableEq ι] (weight : β → Nat) (locals : ι → β) (i : ι)
    (value : β) :
    tally weight (Function.update locals i value) + weight (locals i) =
      tally weight locals + weight value := by
  have others : ∑ j ∈ Finset.univ.erase i, weight (Function.update locals i value j) =
      ∑ j ∈ Finset.univ.erase i, weight (locals j) := by
    apply Finset.sum_congr rfl
    intro j member
    rw [Function.update_of_ne (Finset.ne_of_mem_erase member)]
  have updated := Finset.add_sum_erase Finset.univ
    (fun j => weight (Function.update locals i value j)) (Finset.mem_univ i)
  have original := Finset.add_sum_erase Finset.univ
    (fun j => weight (locals j)) (Finset.mem_univ i)
  rw [Function.update_self] at updated
  unfold tally
  omega

theorem tally_const_zero (weight : β → Nat) (value : β)
    (zero : weight value = 0) : tally weight (fun _ : ι => value) = 0 := by
  simp [tally, zero]

theorem exists_weight_pos {weight : β → Nat} {locals : ι → β}
    (positive : 0 < tally weight locals) : ∃ i, 0 < weight (locals i) := by
  by_contra none
  push Not at none
  have zero : tally weight locals = 0 :=
    Finset.sum_eq_zero fun i _ => Nat.le_zero.mp (none i)
  omega

variable {lower upper : β → Nat}

theorem tally_le_tally (locals : ι → β) (below : ∀ value, lower value ≤ upper value) :
    tally lower locals ≤ tally upper locals :=
  Finset.sum_le_sum fun i _ => below (locals i)

theorem tally_lt_tally (locals : ι → β) (below : ∀ value, lower value ≤ upper value) (i : ι)
    (strict : lower (locals i) < upper (locals i)) : tally lower locals < tally upper locals :=
  Finset.sum_lt_sum (fun j _ => below (locals j)) ⟨i, Finset.mem_univ i, strict⟩

theorem exists_word_ne {n : Nat} (few : n < 2 ^ 32) (slots : Fin n → UInt32) :
    ∃ word, ∀ i, slots i ≠ word := by
  by_contra none
  push Not at none
  choose slot holds using none
  have injective : Function.Injective fun k : Fin (n + 1) => slot (.ofNat k.val) := by
    intro k l same
    change slot _ = slot _ at same
    have equal := congrArg UInt32.toNat ((holds _).symm.trans (same ▸ holds (.ofNat l.val)))
    rw [UInt32.toNat_ofNat', UInt32.toNat_ofNat'] at equal
    exact Fin.ext (by omega)
  have bound := Fintype.card_le_of_injective _ injective
  rw [Fintype.card_fin, Fintype.card_fin] at bound
  omega

end StraceXv6.Data
