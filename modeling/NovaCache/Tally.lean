import Mathlib.Algebra.BigOperators.Fin
import Mathlib.Algebra.BigOperators.Group.List.Basic

/-! Sums over a family of which one member changes. -/
namespace Tally
variable {Index Item Total : Type*} [AddCommMonoid Total]

theorem sum_update [Fintype Index] [DecidableEq Index] (weight : Item → Total) (family : Index → Item) (index : Index)
    (item : Item) :
    ∑ other, weight (Function.update family index item other) + weight (family index) =
      ∑ other, weight (family other) + weight item := by
  have elsewhere : ∀ other ∈ Finset.univ.erase index,
      weight (Function.update family index item other) = weight (family other) := by
    intro other outside
    rw [Function.update_of_ne (Finset.ne_of_mem_erase outside)]
  rw [← Finset.add_sum_erase _ _ (Finset.mem_univ index),Finset.sum_congr rfl elsewhere,Function.update_self,
    ← Finset.add_sum_erase _ (fun other => weight (family other)) (Finset.mem_univ index)]
  ac_rfl

theorem sum_increase [Fintype Index] [DecidableEq Index] (family : Index → Total) (index : Index) (amount : Total) :
    ∑ other, Function.update family index (family index + amount) other = ∑ other, family other + amount := by
  have elsewhere : ∀ other ∈ Finset.univ.erase index,
      Function.update family index (family index + amount) other = family other := by
    intro other outside
    exact Function.update_of_ne (Finset.ne_of_mem_erase outside) ..
  rw [← Finset.add_sum_erase _ _ (Finset.mem_univ index),Finset.sum_congr rfl elsewhere,Function.update_self,
    ← Finset.add_sum_erase _ family (Finset.mem_univ index)]
  ac_rfl

theorem sum_set (weight : Item → Total) {items : List Item} {index : Nat} {old : Item} (found : items[index]? = some old)
    (item : Item) :
    ((items.set index item).map weight).sum + weight old = (items.map weight).sum + weight item := by
  induction items generalizing index with
  | nil => cases found
  | cons head rest ih =>
    cases index with
    | zero =>
      cases found
      simp only [List.set_cons_zero,List.map_cons,List.sum_cons]
      ac_rfl
    | succ index =>
      have later := ih found
      simp only [List.set_cons_succ,List.map_cons,List.sum_cons,add_assoc,later]

end Tally
