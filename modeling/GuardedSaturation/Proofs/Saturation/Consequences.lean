import Mathlib
import GuardedSaturation.Proofs.Saturation.Soundness

/-! Rules from facts. A rule whose variables are named by constants that occur nowhere else derives its head from its
body, and what else derives that head implies the rule; so rules that derive the same facts hold in the same structures. -/
namespace GuardedSaturation

universe u

/-- There are constants beside any given ones, a different one for each variable. -/
theorem exists_naming (used : List String) : ∃ c : Variable → String, Function.Injective c ∧ ∀ x, c x ∉ used := by
  let all : String := used.foldr (· ++ ·) ""
  have longest {s : String} (member : s ∈ used) : s.length ≤ all.length := by
    simp only [all]
    clear all
    induction used with
    | nil => simp at member
    | cons r used ih =>
      rw [List.foldr_cons, String.length_append]
      rcases List.mem_cons.mp member with rfl | member
      · exact Nat.le_add_right _ _
      · exact (ih member).trans (Nat.le_add_left _ _)
  refine ⟨fun x => "c" ++ all ++ x, fun x y same => ?_, fun x member => ?_⟩
  · simpa using same
  · have := longest member
    simp only [String.length_append] at this
    have : "c".length = 1 := rfl
    omega

namespace Atom

def consts (a : Atom) : List String := Term.constsAll a.args

theorem mem_consts {a : Atom} {c : String} : c ∈ a.consts ↔ ∃ t ∈ a.args, c ∈ t.consts := by
  rw [consts, Term.constsAll_eq_flatMap, List.mem_flatMap]

end Atom

/-- The constants of the rules. -/
def Tgd.constsAll (rules : List Tgd) : List String :=
  rules.flatMap (fun t => (t.body.toList ++ t.head.toList).flatMap Atom.consts)

theorem Tgd.mem_constsAll {rules : List Tgd} {t : Tgd} {a : Atom} {c : String} (member : t ∈ rules)
    (inside : a ∈ t.body ∨ a ∈ t.head) (occurs : c ∈ a.consts) : c ∈ Tgd.constsAll rules :=
  List.mem_flatMap.mpr ⟨t, member, List.mem_flatMap.mpr ⟨a, List.mem_append.mpr inside, occurs⟩⟩

namespace Interpretation
variable {M : Interpretation.{u}} {const : String → M.Domain} {v : M.Assignment}

/-- The interpretation with other meanings for the constants. -/
abbrev recast (M : Interpretation.{u}) (const : String → M.Domain) : Interpretation.{u} := { M with const }

theorem value_recast {s : Term} (same : ∀ c ∈ s.consts, const c = M.const c) :
    (M.recast const).value v s = M.value v s := by
  induction s with
  | var x => rw [value_var, value_var]
  | const c =>
    rw [value_const, value_const]
    exact same c (by simp [Term.consts])
  | app f args ih =>
    rw [value_app, value_app]
    refine congrArg (M.app f) (List.map_congr_left (fun t member => ih t member (fun c inside => same c ?_)))
    rw [Term.consts, Term.constsAll_eq_flatMap, List.mem_flatMap]
    exact ⟨t, member, inside⟩

theorem fact_recast {a : Atom} (same : ∀ c ∈ a.consts, const c = M.const c) :
    (M.recast const).fact v a = M.fact v a := by
  refine congrArg (Prod.mk a.predicate) ?_
  rw [values_eq_map, values_eq_map]
  exact List.map_congr_left (fun t member => value_recast (fun c inside => same c (Atom.mem_consts.mpr ⟨t, member, inside⟩)))

end Interpretation

namespace Structure
variable {M : Structure.{u}} {const : String → M.Domain} {v : M.Assignment}

abbrev recast (M : Structure.{u}) (const : String → M.Domain) : Structure.{u} :=
  ⟨M.toInterpretation.recast const, M.holds⟩

theorem satisfies_recast {a : Atom} (same : ∀ c ∈ a.consts, const c = M.const c) :
    (M.recast const).Satisfies v a ↔ M.Satisfies v a :=
  iff_of_eq (congrArg M.holds (Interpretation.fact_recast same))

theorem models_recast {t : Tgd} (same : ∀ a, a ∈ t.body ∨ a ∈ t.head → ∀ c ∈ a.consts, const c = M.const c)
    (models : M.Models t) : (M.recast const).Models t := by
  intro v body
  obtain ⟨w, agree, head⟩ := models v (fun a member => (satisfies_recast (same a (.inl member))).mp (body a member))
  exact ⟨w, agree, fun a member => (satisfies_recast (same a (.inr member))).mpr (head a member)⟩

/-- Full rules that derive the head of a rule from its body, named by constants that do not occur in either, imply it. -/
theorem models_of_named {rules : List Tgd} {t : Tgd} {c : Variable → String} (full : ∀ r ∈ rules, r.isFull = true)
    (injective : Function.Injective c) (fresh : ∀ x, c x ∉ Tgd.constsAll (t :: rules))
    (derives : ∀ h ∈ t.head, Datalog rules (t.body.subst (fun x => .const (c x))) (h.subst (fun x => .const (c x))))
    (models : ∀ r ∈ rules, M.Models r) : M.Models t := by
  intro v body
  -- Each name stands for what the variable stands for; no rule sees the difference.
  let const : String → M.Domain := Function.extend c v M.const
  have same {r : Tgd} (member : r ∈ t :: rules) (a : Atom) (inside : a ∈ r.body ∨ a ∈ r.head) (d : String)
      (occurs : d ∈ a.consts) : const d = M.const d := by
    refine Function.extend_apply' _ _ _ ?_
    rintro ⟨x, rfl⟩
    exact fresh x (Tgd.mem_constsAll member inside occurs)
  have named {a : Atom} (inside : a ∈ t.body ∨ a ∈ t.head) (w : M.Assignment) :
      (M.recast const).Satisfies w (a.subst (fun x => .const (c x))) ↔ M.Satisfies v a := by
    have meaning : (fun x => (M.recast const).value w (.const (c x))) = v :=
      funext fun x => (Interpretation.value_const _ _).trans (injective.extend_apply v M.const x)
    rw [satisfies_subst, meaning]
    exact satisfies_recast (same List.mem_cons_self a inside)
  refine ⟨v, fun _ _ => rfl, fun h head => (named (.inr head) v).mp ?_⟩
  refine satisfies_of_datalog (M := M.recast const) full (fun r member => ?_) (fun a given w => ?_) (derives h head) v
  · exact models_recast (same (List.mem_cons_of_mem t member)) (models r member)
  · obtain ⟨b, inside, rfl⟩ := AtomSet.mem_subst.mp given
    exact (named (.inl inside) w).mpr (body b inside)

/-- Full rules that derive every fact over constants that others derive imply the others. -/
theorem models_of_datalog {rules rules' : List Tgd} (full : ∀ t ∈ rules, t.isFull = true)
    (free : ∀ t ∈ rules', t.isFunctionFree = true)
    (derives : ∀ D F, (∀ a ∈ D, a.IsGround) → F.IsGround → Datalog rules' D F → Datalog rules D F)
    (models : ∀ t ∈ rules, M.Models t) : ∀ t ∈ rules', M.Models t := by
  intro t member
  obtain ⟨body, head⟩ := Tgd.isFunctionFree_eq_true.mp (free t member)
  obtain ⟨c, injective, fresh⟩ := exists_naming (Tgd.constsAll (t :: rules))
  refine models_of_named full injective fresh (fun h inside => derives _ _ ?_ ?_ ?_) models
  · intro a given
    obtain ⟨b, present, rfl⟩ := AtomSet.mem_subst.mp given
    exact Atom.isGround_subst (body b present) c
  · exact Atom.isGround_subst (head h inside) c
  · exact .rule c member (fun a present => .given (AtomSet.mem_subst.mpr ⟨a, present, rfl⟩)) inside

end Structure
end GuardedSaturation
