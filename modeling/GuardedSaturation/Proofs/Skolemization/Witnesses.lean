import Mathlib
import GuardedSaturation.Proofs.NormalForms
import GuardedSaturation.Skolemizer

/-! What Skolemization puts in the place of existential variables, and the rule that is left behind an auxiliary atom. -/
namespace GuardedSaturation

namespace Tgd
variable {t : Tgd}

theorem mem_frontier {x : Variable} : x ∈ t.frontier ↔ x ∈ t.body.vars ∧ x ∈ t.head.vars := by
  simp [frontier, universals]

end Tgd

namespace Skolemizer
variable {z : Skolemizer} {t : Tgd} {args : List Variable}

theorem frontier_subset : ∀ x ∈ t.frontier, x ∈ t.universals := fun _ inside => (Tgd.mem_frontier.mp inside).1

/-- What takes the place of a variable. -/
def witness (z : Skolemizer) (t : Tgd) (args : List Variable) (x : Variable) : Term :=
  if x ∈ t.existentials then .overVariables (functionName (z.functions + t.existentials.idxOf x)) args else .var x

theorem replaceExistentials_eq (z : Skolemizer) (t : Tgd) (args : List Variable) :
    z.replaceExistentials t args =
      (⟨t.body, t.head.subst (z.witness t args)⟩, { z with functions := z.functions + t.existentials.length }) := rfl

theorem replaceExistentials_of_full (z : Skolemizer) (args : List Variable) (full : t.isFull = true) :
    z.replaceExistentials t args = (t, z) := by
  have none := Tgd.isFull_iff.mp full
  have kept : z.witness t args = .var := by
    funext x
    simp [witness, none]
  rw [replaceExistentials_eq, kept, none, AtomSet.subst_self, List.length_nil, Nat.add_zero]

theorem mem_vars_witness {x y : Variable} (inside : y ∈ (z.witness t args x).vars) : y ∈ args ∨ y = x ∧ x ∉ t.existentials := by
  unfold witness at inside
  split at inside
  · left
    simpa [Term.overVariables, List.mem_flatMap] using inside
  · next universal => exact .inr ⟨by simpa using inside, universal⟩

/-- A term of the rule stays what it is, or it is an existential variable and becomes its function of the arguments. -/
theorem subst_witness_cases (z : Skolemizer) (t : Tgd) (args : List Variable) {s : Term} (plain : s.isFunction = false) :
    s.subst (z.witness t args) = s ∨
      ∃ x ∈ t.existentials, s.subst (z.witness t args) =
        .overVariables (functionName (z.functions + t.existentials.idxOf x)) args := by
  obtain ⟨x, rfl⟩ | ⟨c, rfl⟩ := Term.plain_cases plain
  · rw [Term.subst_var, witness]
    split
    · next existential => exact .inr ⟨x, existential, rfl⟩
    · exact .inl rfl
  · exact .inl (Term.subst_const _ c)

theorem isFull_replaceExistentials (z : Skolemizer) (within : ∀ x ∈ args, x ∈ t.universals) :
    (z.replaceExistentials t args).1.isFull = true := by
  rw [replaceExistentials_eq]
  apply Tgd.isFull_eq_true.mpr
  intro y inside
  obtain ⟨x, mentioned, image⟩ := AtomSet.mem_vars_subst.mp inside
  obtain argument | ⟨rfl, universal⟩ := mem_vars_witness image
  · exact within y argument
  · by_contra absent
    exact universal (Tgd.mem_existentials.mpr ⟨mentioned, absent⟩)

/-- The auxiliary atom between a body and a head. -/
def auxiliary (z : Skolemizer) (t : Tgd) : Atom := .overVariables (predicateName z.predicates) t.frontier

/-- What remains to be Skolemized behind the auxiliary atom. -/
def behind (z : Skolemizer) (t : Tgd) : Tgd := ⟨.singleton (z.auxiliary t), t.head⟩

def next (z : Skolemizer) : Skolemizer := { z with predicates := z.predicates + 1 }

theorem mem_vars_auxiliary {x : Variable} : x ∈ (z.auxiliary t).vars ↔ x ∈ t.frontier := by
  simp [auxiliary, Atom.overVariables]

theorem isFunctional_of_alone {a : Atom} (alone : a ∈ SortedSet.singleton (z.auxiliary t)) : a.isFunctional = false := by
  rw [SortedSet.mem_singleton.mp alone]
  exact Atom.isFunctional_eq_false.mpr (by simp [auxiliary, Atom.overVariables, Term.isFunction])

theorem isFunctionFree_behind (free : t.isFunctionFree = true) : (z.behind t).isFunctionFree = true :=
  Tgd.isFunctionFree_eq_true.mpr ⟨fun _ alone => isFunctional_of_alone alone, (Tgd.isFunctionFree_eq_true.mp free).2⟩

theorem isFunctionFree_granting (free : t.isFunctionFree = true) :
    (⟨t.body, .singleton (z.auxiliary t)⟩ : Tgd).isFunctionFree = true :=
  Tgd.isFunctionFree_eq_true.mpr ⟨(Tgd.isFunctionFree_eq_true.mp free).1, fun _ alone => isFunctional_of_alone alone⟩

theorem mem_universals_behind {x : Variable} : x ∈ (z.behind t).universals ↔ x ∈ t.frontier := by
  rw [Tgd.universals, behind, AtomSet.mem_vars]
  simp only [SortedSet.mem_singleton, exists_eq_left, mem_vars_auxiliary]

theorem existentials_behind (z : Skolemizer) (t : Tgd) : (z.behind t).existentials = t.existentials := by
  refine List.filter_congr (fun x inside => ?_)
  rw [decide_eq_decide, mem_universals_behind, Tgd.mem_frontier]
  exact not_congr ⟨And.left, fun universal => ⟨universal, inside⟩⟩

end Skolemizer
end GuardedSaturation
