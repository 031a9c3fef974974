import Mathlib
import GuardedSaturation.Proofs.Unification.FunctionFree

/-! What unifiers are: whatever acyclic substitution unification starts from, its answer makes the two atoms equal in one
step, solves the bindings it started from, and nests no function terms. -/
namespace GuardedSaturation.Unifier
open Substitution

/-- A unifier found from a seed in which no variable leads back to itself equates the atoms, is idempotent, respects the
bindings of the seed, and nests function terms neither in its bindings nor in the common image. -/
theorem mostGeneral_equates (seed : Substitution) (acyclic : ∀ x, ¬ Relation.TransGen (Leads seed) x x) (a b : Atom)
    (σ : Substitution) (found : mostGeneral seed a b = some σ) :
    σ.applyAtom a = σ.applyAtom b ∧
      (∀ t, σ.applyTerm (σ.applyTerm t) = σ.applyTerm t) ∧
      (∀ x t, seed.get? x = some t → σ.applyTerm (.var x) = σ.applyTerm t) ∧
      (∀ x t, σ.get? x = some t → t.isNested = false) ∧
      ∀ t ∈ (σ.applyAtom a).args, t.isNested = false := by
  have acyclic := acyclic_iff.mpr acyclic
  have normal := mostGeneral_normal acyclic found
  obtain ⟨respects, -⟩ := mostGeneral_solves acyclic found normal.solves_image
  refine ⟨mostGeneral_unifies acyclic found, normal.image_idem, fun x t bound => ?_, fun x t bound => ?_, ?_⟩
  · rw [applyTerm, Term.subst_var, respects x t bound, Interpretation.value_free]
  · have flat := mostGeneral_image found x
    rwa [image, bound, Option.getD_some] at flat
  · exact Atom.hasNested_eq_false.mp (mostGeneral_hasNested found)

/-- A seed with a chain and a function term: `x` and `u` are resolved through it, and `y` below the function symbol is
bound only when the last arguments meet. -/
theorem mostGeneral_equates_chained :
    ∃ (seed σ : Substitution) (a b : Atom),
      seed = .ofList [("u", .var "v"), ("v", .var "w"), ("x", .app "f" [.var "y"])] ∧
      a = ⟨"p", [.var "x", .var "u", .var "z"]⟩ ∧ b = ⟨"p", [.var "z", .const "c", .app "f" [.var "v"]]⟩ ∧
      (∀ x, ¬ Relation.TransGen (Leads seed) x x) ∧ mostGeneral seed a b = some σ ∧
      σ.applyAtom a = ⟨"p", [.app "f" [.const "c"], .const "c", .app "f" [.const "c"]]⟩ ∧ σ.applyAtom a = σ.applyAtom b ∧
      (∀ t, σ.applyTerm (σ.applyTerm t) = σ.applyTerm t) ∧ σ.applyTerm (.var "x") = σ.applyTerm (.app "f" [.var "y"]) := by
  let seed : Substitution := .ofList [("u", .var "v"), ("v", .var "w"), ("x", .app "f" [.var "y"])]
  let σ : Substitution := .ofList [("u", .const "c"), ("v", .const "c"), ("w", .const "c"), ("x", .app "f" [.const "c"]),
    ("y", .const "c"), ("z", .app "f" [.const "c"])]
  have ranked : ∀ e ∈ seed.entries, ∀ y ∈ e.2.vars, ["y", "w", "v", "u", "x"].idxOf y < ["y", "w", "v", "u", "x"].idxOf e.1 := by
    decide +kernel
  have acyclic : ∀ x, ¬ Relation.TransGen (Leads seed) x x :=
    acyclic_iff.mp ⟨_, fun x t bound => ranked (x, t) (SortedMap.get?_eq_some_iff.mp bound)⟩
  have found : mostGeneral seed ⟨"p", [.var "x", .var "u", .var "z"]⟩ ⟨"p", [.var "z", .const "c", .app "f" [.var "v"]]⟩ =
      some σ := by decide +kernel
  obtain ⟨equal, idempotent, respects, -⟩ := mostGeneral_equates seed acyclic _ _ σ found
  exact ⟨seed, σ, _, _, rfl, rfl, rfl, acyclic, found, by decide +kernel, equal, idempotent,
    respects "x" _ (by decide +kernel)⟩

end GuardedSaturation.Unifier
