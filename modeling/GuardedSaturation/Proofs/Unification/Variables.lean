import Mathlib
import GuardedSaturation.Proofs.Renaming
import GuardedSaturation.Proofs.Unification.FunctionFree

/-! Unifiers concern the variables of the terms that were unified: they bind no others and bring none in. -/
namespace GuardedSaturation

namespace Substitution
variable {W : Variable → Prop} {σ σ' : Substitution}

/-- Only variables of a set are bound, and only to terms over the set. -/
structure Confined (W : Variable → Prop) (σ : Substitution) : Prop where
  bound : ∀ x, σ.get? x ≠ none → W x
  keeps : Keeps W σ

theorem confined_empty (W : Variable → Prop) : Confined W ∅ := ⟨fun x bound => by simp at bound, keeps_empty W⟩

theorem Confined.find (confined : Confined W σ) {t r : Term} (found : σ.find t = (r, σ')) : Confined W σ' := by
  refine ⟨fun x bound => confined.bound x (fun unbound => bound ?_), (find_keeps confined.keeps found).1⟩
  exact (find_get?_eq_none found).mpr unbound

theorem Confined.bind (confined : Confined W σ) {x : Variable} {t : Term} (inside : W x) (image : ∀ y ∈ t.vars, W y) :
    Confined W (σ.bind x t) := by
  refine ⟨fun y bound => ?_, confined.keeps.bind (fun _ => image)⟩
  rw [get?_bind] at bound
  split at bound
  · next same => exact same ▸ inside
  · exact confined.bound y bound

theorem Confined.normalized (confined : Confined W σ) (acyclic : Acyclic σ) : Confined W σ.normalized := by
  refine ⟨fun x bound => confined.bound x (fun unbound => bound ?_), normalized_keeps acyclic confined.keeps⟩
  rw [get?_normalized, unbound, Option.bind_none]

theorem Confined.spares (confined : Confined W σ) {es : List Variable} (apart : ∀ e ∈ es, ¬ W e) :
    Spares σ.image es W := by
  refine ⟨fun e member => ?_, fun x inside e member image => ?_⟩
  · have unbound : σ.get? e = none := not_not.mp (fun bound => apart e member (confined.bound e bound))
    simp [Substitution.image, unbound]
  · unfold Substitution.image at image
    cases bound : σ.get? x with
    | none =>
      rw [bound, Option.getD_none, Term.vars_var, List.mem_singleton] at image
      exact apart e member (image ▸ inside)
    | some t =>
      rw [bound, Option.getD_some] at image
      exact apart e member (confined.keeps x t bound inside e image)

end Substitution

namespace Unifier
open Substitution
variable {W : Variable → Prop} {σ seed : Substitution} {a b : Atom}

theorem kept_confined : Kept (fun t => ∀ y ∈ t.vars, W y) (Confined W) where
  passes f args inside t member y mentioned := inside y (by simpa using ⟨t, member, mentioned⟩)
  find confined inside found := ⟨(find_keeps confined.keeps found).2 inside, confined.find found⟩
  bind confined var image := confined.bind (var _ (by simp)) image

theorem mostGeneral_confined (acyclic : Acyclic seed) (confined : Confined W seed) (left : ∀ y ∈ a.vars, W y)
    (right : ∀ y ∈ b.vars, W y) (found : mostGeneral seed a b = some σ) : Confined W σ := by
  obtain ⟨-, τ, ok, rfl, -⟩ := mostGeneral_eq_some.mp found
  have within {c : Atom} (inside : ∀ y ∈ c.vars, W y) (t : Term) (member : t ∈ c.args) (y : Variable) (mentioned : y ∈ t.vars) :
      W y := inside y (Atom.mem_vars.mpr ⟨t, member, mentioned⟩)
  exact (kept_confined.unifyAll acyclic confined (within left) (within right) ok).normalized (unifyAll_step.{0} acyclic ok).acyclic

end Unifier
end GuardedSaturation
