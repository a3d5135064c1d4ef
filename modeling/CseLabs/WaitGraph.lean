import Mathlib.Logic.Relation
import Mathlib.Tactic

namespace CseLabs.WaitGraph

open Relation

variable {α : Type*} {edge wait : α → α → Prop}

def Acyclic (edge : α → α → Prop) : Prop := ∀ node, ¬ TransGen edge node node

theorem Acyclic.mono {smaller : α → α → Prop} (h : Acyclic edge)
    (hsub : ∀ source target, smaller source target → edge source target) : Acyclic smaller :=
  fun node hcycle => h node (TransGen.mono hsub _ _ hcycle)

-- A path that may use one more edge goes without it, or reaches its source and
-- goes on from its target.
theorem path_add {first last source target : α}
    (hpath : TransGen (fun x y => edge x y ∨ x = first ∧ y = last) source target) :
    TransGen edge source target ∨
      ReflTransGen edge source first ∧ ReflTransGen edge last target := by
  induction hpath with
  | single h =>
      rcases h with h | ⟨rfl, rfl⟩
      · exact .inl (.single h)
      · exact .inr ⟨.refl, .refl⟩
  | tail _ h ih =>
      rcases h with h | ⟨rfl, rfl⟩
      · rcases ih with ih | ⟨hto, hfrom⟩
        · exact .inl (ih.tail h)
        · exact .inr ⟨hto, hfrom.tail h⟩
      · rcases ih with ih | ⟨hto, -⟩
        · exact .inr ⟨ih.to_reflTransGen, .refl⟩
        · exact .inr ⟨hto, .refl⟩

theorem Acyclic.add {first last : α} (h : Acyclic edge) (hreach : ¬ ReflTransGen edge last first) :
    Acyclic (fun x y => edge x y ∨ x = first ∧ y = last) := by
  intro node hcycle
  rcases path_add hcycle with hold | ⟨hto, hfrom⟩
  · exact h node hold
  · exact hreach (hfrom.trans hto)

-- Every node of a cycle has a successor.
theorem cycle_successors {source target : α} (hpath : TransGen wait source target)
    (hnext : ∃ next, wait target next) :
    TransGen (fun x y => wait x y ∧ ∃ next, wait y next) source target := by
  induction hpath with
  | single h => exact .single ⟨h, hnext⟩
  | tail _ h ih => exact (ih ⟨_, h⟩).tail ⟨h, hnext⟩

-- A wait relation has no cycle when the edges record all waits for nodes that wait
-- themselves.
theorem Acyclic.waits (h : Acyclic edge)
    (hrecorded : ∀ x y next, wait x y → wait y next → edge x y) : Acyclic wait := by
  intro node hcycle
  obtain ⟨next, hnext, -⟩ := TransGen.head'_iff.mp hcycle
  have hsucc := cycle_successors hcycle ⟨next, hnext⟩
  exact h node (TransGen.mono (fun x y ⟨hxy, z, hyz⟩ => hrecorded x y z hxy hyz) _ _ hsucc)

open Classical in
-- A successor has fewer descendants.
theorem Acyclic.card_descendants_lt (h : Acyclic edge) (nodes : Finset α) {source target : α}
    (hedge : edge source target) (htarget : target ∈ nodes) :
    (nodes.filter (TransGen edge target)).card < (nodes.filter (TransGen edge source)).card := by
  apply Finset.card_lt_card
  refine Finset.ssubset_iff_of_subset ?_ |>.mpr ⟨target, ?_, ?_⟩
  · intro node hnode
    obtain ⟨hmem, hpath⟩ := Finset.mem_filter.mp hnode
    exact Finset.mem_filter.mpr ⟨hmem, .head hedge hpath⟩
  · exact Finset.mem_filter.mpr ⟨htarget, .single hedge⟩
  · intro hself
    exact h target (Finset.mem_filter.mp hself).2

end CseLabs.WaitGraph
