import Mathlib
import GuardedSaturation.Proofs.Unification.Bindings
import GuardedSaturation.Proofs.Vocabulary

/-! Unifiers make up no symbols: what they bind variables to is spelled with the constants and function
symbols of the terms that were unified. -/
namespace GuardedSaturation

namespace Substitution
variable {V : Vocabulary} {σ : Substitution}

abbrev Spelled (V : Vocabulary) (σ : Substitution) : Prop := σ.Every (Term.Spelled V)

theorem Spelled.image (spelled : Spelled V σ) (x : Variable) : (σ.image x).Spelled V := Every.image spelled Term.spelled_var x

theorem normalized_spelled (acyclic : Acyclic σ) (spelled : Spelled V σ) : Spelled V σ.normalized :=
  normalized_every (final_every acyclic spelled Term.spelled_var (fun _ spelled images => spelled.subst images))

end Substitution

namespace Unifier
open Substitution
variable {V : Vocabulary} {σ : Substitution}

theorem mostGeneral_spelled {seed : Substitution} {a b : Atom} (acyclic : Acyclic seed) (spelled : Spelled V seed)
    (left : a.Spelled V) (right : b.Spelled V) (found : mostGeneral seed a b = some σ) : Spelled V σ := by
  obtain ⟨-, τ, ok, rfl, -⟩ := mostGeneral_eq_some.mp found
  apply normalized_spelled (unifyAll_step.{0} acyclic ok).acyclic
  exact (kept_every (fun f args spelled => (Term.spelled_app.mp spelled).2)).unifyAll acyclic spelled left.2 right.2 ok

end Unifier
end GuardedSaturation
