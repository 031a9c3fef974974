import Mathlib
import GuardedSaturation.Proofs.Evolution.Completeness

/-! Evolution misses no admissible instance: whenever a replacement makes chosen atoms of the two rules equal and leaves
the existential variables alone, it takes some resolvent to the instance that these joins give. -/
namespace GuardedSaturation
open Evolve Substitution

/-- Some body atoms of a rule are joined with head atoms of another one: the replacement makes joined atoms equal, keeps
the existential variables, makes no universal variable one of them, and brings none of them into the atoms left over. -/
structure Tgd.Joins (nonFull full : Tgd) (choice : Atom → Option Atom) (τ : Variable → Term) : Prop where
  some : ∃ a ∈ full.body, choice a ≠ none
  equal : ∀ a ∈ full.body, ∀ h, choice a = .some h → h ∈ nonFull.head ∧ a.subst τ = h.subst τ
  kept : ∀ e ∈ nonFull.existentials, τ e = .var e
  apart : ∀ x ∈ nonFull.universals, ∀ e ∈ nonFull.existentials, τ x ≠ .var e
  leftover : ∀ a ∈ full.body, choice a = none → ∀ e ∈ nonFull.existentials, e ∉ (a.subst τ).vars

/-- What the joins give before any replacement: the body atoms of the second rule that are joined are dropped. -/
def Tgd.joined (nonFull full : Tgd) (choice : Atom → Option Atom) : Tgd :=
  ⟨nonFull.body ∪ full.body.filter (fun a => choice a = none), nonFull.head ∪ full.head⟩

namespace Tgd.Joins
variable {nonFull full : Tgd} {choice : Atom → Option Atom} {τ : Variable → Term}

theorem invents (joins : nonFull.Joins full choice τ) : nonFull.Invents .free τ := by
  refine ⟨fun e existential c same => ?_, fun e existential y inside same => ?_⟩
  · rw [joins.kept e existential] at same
    cases same
  · rw [joins.kept e existential] at same
    by_cases universal : y ∈ nonFull.universals
    · exact absurd same (joins.apart y universal e existential)
    · have existential : y ∈ nonFull.existentials := by
        refine mem_existentials.mpr ⟨(mem_vars.mp inside).resolve_left universal, universal⟩
      rw [joins.kept y existential] at same
      exact Term.var.inj same

theorem fact_eq (joins : nonFull.Joins full choice τ) {a h : Atom} (member : a ∈ full.body) (joined : choice a = .some h) :
    h ∈ nonFull.head ∧ Interpretation.free.fact τ a = Interpretation.free.fact τ h := by
  obtain ⟨inside, same⟩ := joins.equal a member h joined
  obtain ⟨predicates, args⟩ := Atom.eq_iff.mp same
  refine ⟨inside, ?_⟩
  rw [Interpretation.fact_free, Interpretation.fact_free, args]
  exact congrArg (·, _) predicates

end Tgd.Joins

/-- Every admissible instance of joins between two rules without function terms is an instance of a resolvent. -/
theorem exists_mem_evolve_of_joins (nonFull full : Tgd) (firstFree : nonFull.isFunctionFree = true)
    (secondFree : full.isFunctionFree = true) (choice : Atom → Option Atom) (τ : Variable → Term)
    (joins : nonFull.Joins (full.renameApart stem nonFull) choice τ) :
    ∃ t ∈ evolve nonFull full, t.subst τ = (nonFull.joined (full.renameApart stem nonFull) choice).subst τ := by
  have both : Together (M := .free) nonFull full τ (fun x => τ (full.nameApart stem nonFull x)) τ :=
    ⟨fun _ _ => rfl, fun _ _ => rfl⟩
  have apart (a : Atom) (member : a ∈ (full.renameApart stem nonFull).body) (left : choice a = none) (y : Variable)
      (mentioned : y ∈ a.vars) (e : Variable) (existential : e ∈ nonFull.existentials) : τ y ≠ τ e := by
    intro same
    rw [joins.kept e existential] at same
    exact joins.leftover a member left e existential (Atom.mem_vars_subst.mpr ⟨y, mentioned, by simp [same]⟩)
  obtain ⟨σ, left, pairs, joining, some, admissible, solves, leaves⟩ := both.exists_joining
    (fun _ _ same => Term.const.inj same) firstFree secondFree joins.invents choice (fun a member h => joins.fact_eq member)
    joins.some apart
  refine ⟨_, mem_evolve.mpr ⟨σ, left, pairs, joining, some, admissible, rfl⟩, ?_⟩
  -- The replacement is an instance of the unifier.
  have image : (fun x => (σ.image x).subst τ) = τ := by
    funext x
    rw [← Interpretation.value_free, solves.value_image]
  have rest : SortedSet.ofList left = (full.renameApart stem nonFull).body.filter (fun a => choice a = none) := by
    ext a
    simp [leaves]
  rw [applyTgd, Tgd.subst_subst, image, Tgd.joined, rest]

def Tgd.branching : Tgd :=
  .ofLists [⟨"a", [.var "x", .var "y"]⟩] [⟨"r", [.var "x", .var "z"]⟩, ⟨"s", [.var "y", .var "z"]⟩]

def Tgd.meeting : Tgd :=
  .ofLists [⟨"b", [.var "x", .var "y"]⟩, ⟨"r", [.var "x", .var "z"]⟩, ⟨"s", [.var "y", .var "z"]⟩] [⟨"m", [.var "x", .var "y"]⟩]

/-- Joins of both atoms with `z` are needed at once. The instance makes one constant of all universal variables, and the
atom left over asks for more of them. -/
theorem exists_mem_evolve_branching :
    ∃ (choice : Atom → Option Atom) (τ : Variable → Term), Tgd.branching.isFunctionFree = true ∧ Tgd.meeting.isFunctionFree = true ∧
      Tgd.branching.existentials = ["z"] ∧ Tgd.branching.Joins (Tgd.meeting.renameApart stem .branching) choice τ ∧
      ∃ t ∈ evolve .branching .meeting, t.subst τ = .ofLists [⟨"a", [.const "c", .const "c"]⟩, ⟨"b", [.const "c", .const "c"]⟩]
        [⟨"m", [.const "c", .const "c"]⟩, ⟨"r", [.const "c", .var "z"]⟩, ⟨"s", [.const "c", .var "z"]⟩] := by
  let choice (a : Atom) : Option Atom :=
    if a.predicate = "r" then some ⟨"r", [.var "x", .var "z"]⟩
    else if a.predicate = "s" then some ⟨"s", [.var "y", .var "z"]⟩ else none
  let τ (x : Variable) : Term := if x = "z" ∨ x = "z2" then .var "z" else .const "c"
  have equal : ∀ a ∈ (Tgd.meeting.renameApart stem .branching).body.toList,
      ∀ h ∈ choice a, h ∈ Tgd.branching.head ∧ a.subst τ = h.subst τ := by decide +kernel
  have leftover : ∀ a ∈ (Tgd.meeting.renameApart stem .branching).body.toList,
      choice a = none → ∀ e ∈ Tgd.branching.existentials, e ∉ (a.subst τ).vars := by decide +kernel
  have joins : Tgd.branching.Joins (Tgd.meeting.renameApart stem .branching) choice τ :=
    ⟨⟨⟨"r", [.var "z0", .var "z2"]⟩, by decide +kernel, by decide +kernel⟩, equal, by decide +kernel, by decide +kernel, leftover⟩
  obtain ⟨t, member, same⟩ :=
    exists_mem_evolve_of_joins .branching .meeting (by decide +kernel) (by decide +kernel) choice τ joins
  refine ⟨choice, τ, by decide +kernel, by decide +kernel, by decide +kernel, joins, t, member, same.trans ?_⟩
  decide +kernel

end GuardedSaturation
