import Mathlib
import GuardedSaturation.Proofs.Substitution.Representatives

/-! Applying a normalized substitution. Where no variable leads back to itself, replacing every variable once does what
resolving a term and the terms below its function symbols does; doing it again, or normalizing again, changes nothing. -/
namespace GuardedSaturation.Substitution
variable {σ : Substitution}

theorem applyTerm_normalized (σ : Substitution) (t : Term) : σ.normalized.applyTerm t = σ.resolveDeep t := by
  rw [applyTerm, image_normalized, resolveDeep]
  rfl

theorem contains_normalized (acyclic : Acyclic σ) (x : Variable) : σ.normalized.contains x = σ.contains x := by
  rw [SortedMap.contains, SortedMap.contains, get?_normalized]
  cases bound : σ.get? x with
  | none => rfl
  | some t =>
    -- The final image has unbound variables only, so it is not the bound variable itself.
    have moved : σ.final x ≠ .var x := by
      intro same
      have unbound := final_vars acyclic x x (by simp [same])
      simp [bound] at unbound
    rw [Option.bind_some, if_neg moved]
    rfl

namespace Normal

theorem not_mem_vars (normal : Normal σ) {x y : Variable} {t : Term} (bound : σ.contains x = true)
    (found : σ.get? y = some t) : x ∉ t.vars := by
  intro inside
  simp [SortedMap.contains, normal y t found x inside] at bound

theorem image_subst (normal : Normal σ) (x : Variable) : (σ.image x).subst σ.image = σ.image x := by
  simpa using normal.image_idem (.var x)

theorem applyAtom_idem (normal : Normal σ) (a : Atom) : σ.applyAtom (σ.applyAtom a) = σ.applyAtom a := by
  rw [applyAtom, Atom.subst_subst, funext normal.image_subst]

theorem applySet_idem (normal : Normal σ) (s : AtomSet) : σ.applySet (σ.applySet s) = σ.applySet s := by
  rw [applySet, AtomSet.subst_subst, funext normal.image_subst]

theorem final_eq (normal : Normal σ) {x : Variable} {t : Term} (bound : σ.get? x = some t) : σ.final x = t := by
  rw [final_bound normal.acyclic bound, Term.subst_congr (h := .var), Term.subst_self]
  intro y inside
  exact final_unbound (normal x t bound y inside)

theorem normalized_eq (normal : Normal σ) : σ.normalized = σ := by
  ext x : 1
  rw [get?_normalized]
  cases bound : σ.get? x with
  | none => rfl
  | some t =>
    have moved : t ≠ .var x := by
      rintro rfl
      simp [normal x _ bound x (by simp)] at bound
    rw [Option.bind_some, normal.final_eq bound, if_neg moved]

end Normal

/-- Normalizing binds the same variables; replacing them is then the same as resolving all the way down, which comes to an
end in that term only. A second replacement, in a term, an atom or a set of atoms, and a second normalization change
nothing, as no bound variable is left in any image. -/
theorem normalized_exact (σ : Substitution) (acyclic : ∀ x, ¬ Relation.TransGen (Leads σ) x x) :
    (∀ x, σ.normalized.contains x = σ.contains x) ∧
      (∀ t, σ.normalized.applyTerm t = σ.resolveDeep t ∧ ∀ u, Resolves σ t u ↔ u = σ.normalized.applyTerm t) ∧
      (∀ t, σ.normalized.applyTerm (σ.normalized.applyTerm t) = σ.normalized.applyTerm t) ∧
      (∀ a, σ.normalized.applyAtom (σ.normalized.applyAtom a) = σ.normalized.applyAtom a) ∧
      (∀ s, σ.normalized.applySet (σ.normalized.applySet s) = σ.normalized.applySet s) ∧
      (∀ x y t, σ.normalized.contains x = true → σ.normalized.get? y = some t → x ∉ t.vars) ∧
      σ.normalized.normalized = σ.normalized := by
  have acyclic : Acyclic σ := acyclic_iff.mpr acyclic
  have normal : Normal σ.normalized := normalized_normal acyclic
  refine ⟨contains_normalized acyclic, fun t => ⟨applyTerm_normalized σ t, fun u => ?_⟩, normal.image_idem,
    normal.applyAtom_idem, normal.applySet_idem, fun x y t => normal.not_mem_vars, normal.normalized_eq⟩
  rw [resolves_iff acyclic, applyTerm_normalized]

/-- A variable bound to another one, and function terms below function terms. -/
def nested : Substitution :=
  .ofList [("v", .var "x"), ("x", .app "f" [.var "y", .const "c"]), ("y", .var "z"), ("z", .app "g" [.var "w"])]

/-- One step of replacement is not enough here before normalizing, and is afterwards. -/
theorem normalized_exact_nested :
    (∀ x, ¬ Relation.TransGen (Leads nested) x x) ∧
      nested.applyTerm (.var "v") ≠ nested.resolveDeep (.var "v") ∧
      nested.normalized.get? "v" = some (.app "f" [.app "g" [.var "w"], .const "c"]) ∧
      (∀ t, nested.normalized.applyTerm t = nested.resolveDeep t) ∧
      Resolves nested (.app "h" [.var "x", .var "y"])
        (.app "h" [.app "f" [.app "g" [.var "w"], .const "c"], .app "g" [.var "w"]]) ∧
      nested.normalized.normalized = nested.normalized := by
  have acyclic : ∀ x, ¬ Relation.TransGen (Leads nested) x x :=
    acyclic_of_entries ["w", "z", "y", "x", "v"].idxOf (by decide +kernel)
  obtain ⟨-, deep, -, -, -, -, again⟩ := normalized_exact nested acyclic
  exact ⟨acyclic, by decide +kernel, by decide +kernel, fun t => (deep t).1, ((deep _).2 _).mpr (by decide +kernel), again⟩

end GuardedSaturation.Substitution
