import Mathlib
import GuardedSaturation.Proofs.Calculus

/-! Resolution of full rules is sound, and so is all that a selecting run makes of its rules. -/
namespace GuardedSaturation

universe u

namespace Structure
open Substitution Unifier
variable {M : Structure.{u}} {t rest : Tgd}

/-- A rule holds if the head is granted without another choice. -/
theorem models_of_full (granted : ∀ v, M.SatisfiesAll v t.body → M.SatisfiesAll v t.head) : M.Models t :=
  fun v body => ⟨v, fun _ _ => rfl, granted v body⟩

theorem Models.of_subsumes_full {general specific : Tgd} (full : general.isFull = true)
    (subsumes : general.subsumes specific = true) (models : M.Models general) : M.Models specific := by
  obtain ⟨bodies, heads⟩ := Tgd.subsumes_iff.mp subsumes
  apply models_of_full
  intro v body
  exact (models.of_full full (body.mono bodies)).mono heads

theorem models_singleHeads (full : t.isFull = true) : (∀ p ∈ t.singleHeads, M.Models p) ↔ M.Models t := by
  unfold Tgd.singleHeads
  split
  · simp
  · simp only [List.forall_mem_map]
    constructor
    · intro parts
      apply models_of_full
      intro v body a member
      have single : (⟨t.body, .singleton a⟩ : Tgd).isFull = true := by
        apply Tgd.isFull_eq_true.mpr
        intro x inside
        obtain ⟨b, alone, inside⟩ := AtomSet.mem_vars.mp inside
        rw [SortedSet.mem_singleton.mp alone] at inside
        exact Tgd.isFull_eq_true.mp full x (AtomSet.mem_vars_of_mem member inside)
      exact (parts a member).of_full single body a (SortedSet.mem_singleton.mpr rfl)
    · intro models a member
      apply models_of_full
      intro v body b alone
      exact SortedSet.mem_singleton.mp alone ▸ models.of_full full body a member

/-- A rule with a head atom of a full rule resolved away holds wherever both rules do, if the unifier spares its
existential variables. -/
theorem models_of_resolved {producer consumer : Tgd} {σ : Substitution} {h s : Atom} (full : producer.isFull = true)
    (spares : Spares σ.image consumer.existentials (producer.Scope consumer))
    (head : h ∈ producer.head) (unified : h.subst σ.image = s.subst σ.image) (first : M.Models producer)
    (second : M.Models consumer) : M.Models (σ.applyTgd ⟨producer.body ∪ consumer.body.erase s, consumer.head⟩) := by
  intro v body
  obtain ⟨produced, others⟩ := satisfiesAll_union.mp (satisfiesAll_subst.mp body)
  have granted : M.Satisfies (fun x => M.value v (σ.image x)) h := first.of_full full produced h head
  have whole : M.SatisfiesAll v (consumer.body.subst σ.image) := by
    apply satisfiesAll_subst.mpr
    intro a inside
    by_cases selected : a = s
    · rwa [selected, ← satisfies_subst, ← unified, satisfies_subst]
    · exact others a (SortedSet.mem_erase.mpr ⟨inside, selected⟩)
  obtain ⟨w, same, consumed⟩ := second.exists_instance (spares.mono fun _ => .inr) whole
  refine ⟨w, fun y universal => same y (fun existential => ?_), consumed⟩
  obtain ⟨x, inside, image⟩ := AtomSet.mem_vars_subst.mp universal
  exact spares.absent x (Tgd.scope_of_mem (fun a rest => (SortedSet.mem_erase.mp rest).1) inside) y existential image

/-- Resolvents of full rules hold wherever both rules do. -/
theorem models_resolve {producer consumer : Rule} (full : producer.tgd.isFull = true) (full' : consumer.tgd.isFull = true)
    (first : M.Models producer.tgd) (second : M.Models consumer.tgd) (member : t ∈ resolve producer consumer) :
    M.Models t := by
  obtain ⟨⟨selection, -, s, -, h, head, σ, found, rfl⟩, -⟩ := mem_resolve.mp member
  have none : (consumer.tgd.renameApart Evolve.stem producer.tgd).existentials = [] :=
    Tgd.isFull_iff.mp (Tgd.isFull_renameApart full')
  exact models_of_resolved full ⟨by simp [none], by simp [none]⟩ head (mostGeneral_unifies acyclic_empty found) first
    (models_renameApart.mpr second)

/-- Conclusions of a selecting calculus hold wherever the rules do that they are drawn from. -/
theorem models_conclusion {algorithm : Algorithm} (selecting : algorithm ≠ .existential) {l r : Rule} {c : Tgd}
    (leftShape : algorithm.Shape l.tgd) (rightShape : algorithm.Shape r.tgd) (first : M.Models l.tgd)
    (second : M.Models r.tgd) (member : c ∈ algorithm.conclusions l r) : M.Models c := by
  rw [Algorithm.shape_of_selecting selecting] at leftShape rightShape
  rw [Algorithm.conclusions_of_selecting selecting] at member
  obtain ⟨t, resolved, rfl⟩ := List.mem_map.mp member
  exact models_canonical.mpr (models_resolve leftShape.full rightShape.full first second resolved)

end Structure
end GuardedSaturation
