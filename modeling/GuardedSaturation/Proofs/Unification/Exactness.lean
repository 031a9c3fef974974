import Mathlib
import GuardedSaturation.Proofs.Unification.Graded

/-! Which atoms have a unifier. One is found exactly where some replacement makes the atoms equal, solves the bindings that
unification starts from and nests no function terms; every replacement that does the first two is an instance of it. -/
namespace GuardedSaturation
open Interpretation (value_free)

namespace Term

/-- A term that a replacement leaves unnested has its function terms on the outside. -/
theorem graded_of_flat {τ : Variable → Term} {t : Term} (flat : (t.subst τ).isNested = false) :
    t.Graded τ (fun s => s.isFunction = true) := by
  cases t with
  | var x => trivial
  | const c => trivial
  | app f args =>
    rw [subst_app, isNested_app] at flat
    refine ⟨by rw [subst_app]; rfl, fun t member => ?_⟩
    have low := flat _ (List.mem_map_of_mem member)
    refine ⟨?_, by simp [low]⟩
    cases t with
    | app g ts => simp [isFunction] at low
    | var x => rfl
    | const c => rfl

end Term

namespace Unifier
open Substitution
variable {σ σ' seed : Substitution} {τ : Variable → Term} {a b : Atom}

/-- The replacement makes two atoms equal and solves the bindings of a seed. -/
structure Unifies (τ : Variable → Term) (seed : Substitution) (a b : Atom) : Prop where
  equal : a.subst τ = b.subst τ
  respects : ∀ x t, seed.get? x = some t → τ x = t.subst τ

/-- The replacement nests no function terms, neither in the first atom nor for a variable of the atoms or the seed. -/
structure Unnested (τ : Variable → Term) (seed : Substitution) (a b : Atom) : Prop where
  image : ∀ t ∈ (a.subst τ).args, t.isNested = false
  left : ∀ y ∈ a.vars, (τ y).isNested = false
  right : ∀ y ∈ b.vars, (τ y).isNested = false
  bound : ∀ x t, seed.get? x = some t → ∀ y ∈ x :: t.vars, (τ y).isNested = false

namespace Unifies

theorem symm (unifies : Unifies τ seed a b) : Unifies τ seed b a := ⟨unifies.equal.symm, unifies.respects⟩

theorem solves (unifies : Unifies τ seed a b) : Solves .free τ seed := by
  intro x t bound
  rw [value_free]
  exact unifies.respects x t bound

end Unifies

theorem Unnested.symm (unnested : Unnested τ seed a b) (unifies : Unifies τ seed a b) : Unnested τ seed b a :=
  ⟨unifies.equal ▸ unnested.image, unnested.right, unnested.left, unnested.bound⟩

/-- What solves a substitution and makes two terms equal solves all that unification makes of them. -/
theorem conserved_solves (τ : Variable → Term) : Conserved (fun s t => s.subst τ = t.subst τ) (Solves .free τ) where
  symm equal := equal.symm
  args equal p member := by
    rw [Term.subst_app, Term.subst_app, Term.app.injEq] at equal
    exact subst_eq_of_zip equal.2 member
  inner _ _ _ := rfl
  find _ solves equal found := by
    have value := find_value solves found
    rw [value_free, value_free] at value
    exact ⟨value.trans equal, (find_solves found).mpr solves⟩
  bind _ solves equal unbound _ := by
    refine (Solves.bind unbound).mpr ⟨solves, ?_⟩
    rw [value_free]
    simpa using equal

theorem Unifies.instance_of (unifies : Unifies τ seed a b) (acyclic : Acyclic seed) (found : mostGeneral seed a b = some σ)
    (y : Variable) : τ y = (σ.image y).subst τ := by
  obtain ⟨-, ρ, ok, rfl, -⟩ := mostGeneral_eq_some.mp found
  have images : a.args.map (Term.subst τ) = b.args.map (Term.subst τ) := by
    simpa using congrArg Atom.args unifies.equal
  obtain ⟨acyclic, solves⟩ := (conserved_solves τ).unifyAll ⟨acyclic, unifies.solves⟩ (fun p => subst_eq_of_zip images) ok
  have value := solves.value_final acyclic y
  rw [value_free] at value
  rw [image_normalized, value]

theorem unifies_of_mostGeneral (acyclic : Acyclic seed) (found : mostGeneral seed a b = some σ) :
    Unifies σ.image seed a b ∧ Unnested σ.image seed a b := by
  obtain ⟨respects, -⟩ := mostGeneral_solves acyclic found (mostGeneral_normal acyclic found).solves_image
  refine ⟨⟨mostGeneral_unifies acyclic found, fun x t bound => ?_⟩, ?_⟩
  · rw [respects x t bound, value_free]
  · have flat (y : Variable) := mostGeneral_image found y
    exact ⟨Atom.hasNested_eq_false.mp (mostGeneral_hasNested found), fun y _ => flat y, fun y _ => flat y,
      fun _ _ _ y _ => flat y⟩

/-- No rejection loses an unnested unifier: under it, the function terms of the atoms and the seed stay on the outside. -/
theorem mostGeneral_of_unifies (acyclic : Acyclic seed) (unifies : Unifies τ seed a b) (unnested : Unnested τ seed a b) :
    ∃ σ, mostGeneral seed a b = some σ := by
  have graded {c : Atom} (same : c.subst τ = a.subst τ) (t : Term) (member : t ∈ c.args) :
      t.Graded τ (fun s => s.isFunction = true) := by
    apply Term.graded_of_flat
    apply unnested.image
    rw [← same, Atom.args_subst]
    exact List.mem_map_of_mem member
  have start : Layered τ (fun s => s.isFunction = true) seed := by
    refine ⟨acyclic, unifies.solves, fun x t bound => Term.graded_of_flat ?_⟩
    rw [← unifies.respects x t bound]
    exact unnested.bound x t bound x List.mem_cons_self
  obtain ⟨σ, found, -⟩ := mostGeneral_layered start (graded rfl) (graded unifies.equal.symm) unifies.equal
  exact ⟨σ, found⟩

theorem mostGeneral_isSome_iff (acyclic : Acyclic seed) :
    (mostGeneral seed a b).isSome = true ↔ ∃ τ, Unifies τ seed a b ∧ Unnested τ seed a b := by
  rw [Option.isSome_iff_exists]
  constructor
  · rintro ⟨σ, found⟩
    exact ⟨σ.image, unifies_of_mostGeneral acyclic found⟩
  · rintro ⟨τ, unifies, unnested⟩
    exact mostGeneral_of_unifies acyclic unifies unnested

/-- Two atoms have a unifier over an acyclic seed exactly if some replacement unifies them without nesting function terms.
Of the unifier found, which is one such, every other unifier is an instance, whether or not it nests function terms; and
there is one for the atoms in either order. -/
theorem mostGeneral_exact (seed : Substitution) (acyclic : ∀ x, ¬ Relation.TransGen (Leads seed) x x) (a b : Atom) :
    ((mostGeneral seed a b).isSome = true ↔ ∃ τ, Unifies τ seed a b ∧ Unnested τ seed a b) ∧
      (∀ σ, mostGeneral seed a b = some σ →
        (Unifies σ.image seed a b ∧ Unnested σ.image seed a b) ∧
          ∀ τ, Unifies τ seed a b → ∀ y, τ y = (σ.image y).subst τ) ∧
      (mostGeneral seed b a).isSome = (mostGeneral seed a b).isSome := by
  have acyclic := acyclic_iff.mpr acyclic
  refine ⟨mostGeneral_isSome_iff acyclic, fun σ found => ⟨unifies_of_mostGeneral acyclic found,
    fun τ unifies => unifies.instance_of acyclic found⟩, ?_⟩
  rw [Bool.eq_iff_iff, mostGeneral_isSome_iff acyclic, mostGeneral_isSome_iff acyclic]
  constructor <;> exact fun ⟨τ, unifies, unnested⟩ => ⟨τ, unifies.symm, unnested.symm unifies⟩

/-- Over a seed with a function term one pair of atoms has a unifier, and another has none without nesting. -/
theorem mostGeneral_exact_seeded :
    ∃ seed σ : Substitution, seed = .ofList [("x", .app "f" [.var "y"])] ∧ (∀ x, ¬ Relation.TransGen (Leads seed) x x) ∧
      mostGeneral seed ⟨"p", [.var "z", .var "y"]⟩ ⟨"p", [.var "x", .const "c"]⟩ = some σ ∧
      (∀ τ, Unifies τ seed ⟨"p", [.var "z", .var "y"]⟩ ⟨"p", [.var "x", .const "c"]⟩ → τ "z" = .app "f" [.const "c"]) ∧
      ¬ ∃ τ, Unifies τ seed ⟨"p", [.var "y"]⟩ ⟨"p", [.app "g" [.var "x"]]⟩ ∧
        Unnested τ seed ⟨"p", [.var "y"]⟩ ⟨"p", [.app "g" [.var "x"]]⟩ := by
  let seed : Substitution := .ofList [("x", .app "f" [.var "y"])]
  let σ : Substitution := .ofList [("x", .app "f" [.const "c"]), ("y", .const "c"), ("z", .app "f" [.const "c"])]
  have acyclic : ∀ x, ¬ Relation.TransGen (Leads seed) x x :=
    acyclic_of_entries ["y", "x"].idxOf (by decide +kernel)
  have found : mostGeneral seed ⟨"p", [.var "z", .var "y"]⟩ ⟨"p", [.var "x", .const "c"]⟩ = some σ := by decide +kernel
  refine ⟨seed, σ, rfl, acyclic, found, fun τ unifies => ?_, ?_⟩
  · rw [((mostGeneral_exact seed acyclic _ _).2.1 σ found).2 τ unifies "z"]
    have image : σ.image "z" = .app "f" [.const "c"] := by decide +kernel
    simp [image]
  · rw [← (mostGeneral_exact seed acyclic _ _).1]
    decide +kernel

end Unifier
end GuardedSaturation
