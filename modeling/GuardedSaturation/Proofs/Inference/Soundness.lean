import Mathlib
import GuardedSaturation.Proofs.Resolution
import GuardedSaturation.Proofs.Unification.Variables

/-! Both inferences are sound for rules of any shape: a conclusion holds in every structure in which the two rules hold
that it is drawn from. The second rule may have existential variables of its own. They are renamed to names that the
unified atoms lack, so the unifier spares them. -/
namespace GuardedSaturation
open Evolve Substitution Unifier

universe u

namespace Tgd
variable {t other : Tgd} {stem : String} {σ : Substitution}

theorem existential_renameApart {e : Variable} (existential : e ∈ (t.renameApart stem other).existentials) :
    e ∉ other.vars := by
  rw [renameApart_eq] at existential
  obtain ⟨x, old, rfl⟩ := exists_of_mem_existentials_rename existential
  exact nameApart_not_mem (mem_vars_of_head (mem_existentials.mp old).1)

theorem spares_renameApart (confined : Confined (other.Scope (t.renameApart stem other)) σ) :
    Spares σ.image (t.renameApart stem other).existentials (other.Scope (t.renameApart stem other)) := by
  apply confined.spares
  intro e existential inside
  exact inside.elim (existential_renameApart existential) (mem_existentials.mp existential).2

end Tgd

theorem Evolve.Joining.confined {heads body left : List Atom} {existentials : List Variable} {W : Variable → Prop}
    {σ σ' : Substitution} {pairs : List (Atom × Atom)} (joining : Joining heads existentials body σ σ' left pairs)
    (normal : Normal σ) (confined : Confined W σ) (bodyWithin : ∀ a ∈ body, ∀ y ∈ a.vars, W y)
    (headsWithin : ∀ h ∈ heads, ∀ y ∈ h.vars, W y) : Confined W σ' := by
  induction joining with
  | done => exact confined
  | skip tail ih => exact ih normal confined (fun a member => bodyWithin a (List.mem_cons_of_mem _ member))
  | join inside found kept tail ih =>
    obtain ⟨first, rest⟩ := List.forall_mem_cons.mp bodyWithin
    exact ih (mostGeneral_normal normal.acyclic found)
      (mostGeneral_confined normal.acyclic confined first (headsWithin _ inside) found) rest

/-- Every resolvent of one rule with another holds wherever both rules do, whatever variables, function terms and
existential variables they have. -/
theorem models_of_mem_evolve (nonFull full : Tgd) (M : Structure.{u}) (first : M.Models nonFull) (second : M.Models full)
    (t : Tgd) (member : t ∈ evolve nonFull full) : M.Models t := by
  obtain ⟨σ, left, pairs, joining, -, admissible, rfl⟩ := mem_evolve.mp member
  have confined := joining.confined normal_empty (confined_empty (nonFull.Scope (full.renameApart stem nonFull)))
    (fun a member y mentioned => .inr (AtomSet.mem_vars_of_mem member mentioned))
    (fun h member y mentioned => .inl (Tgd.mem_vars_of_mem (.inr member) mentioned))
  exact Structure.models_of_joining joining admissible (Tgd.spares_renameApart confined) first
    (Structure.models_renameApart.mpr second)

/-- Numbers, with their order and successors. -/
abbrev Structure.numbers : Structure.{0} where
  Domain := Nat
  inhabited := ⟨0⟩
  const _ := 0
  app _ args := args.sum + 1
  holds fact := ∃ m n : Nat, m < n ∧ (fact = ("a", [m]) ∨ fact = ("r", [m, n, n + 1]) ∨ fact = ("s", [m, n, n + 1]))

def Tgd.growing : Tgd := .ofLists [⟨"a", [.var "x"]⟩] [⟨"r", [.var "x", .var "y", .app "f" [.var "y"]]⟩]

def Tgd.outgrowing : Tgd :=
  .ofLists [⟨"a", [.var "x"]⟩, ⟨"r", [.var "x", .var "y", .var "z"]⟩] [⟨"s", [.var "x", .var "z", .var "w"]⟩]

theorem Structure.models_growing : numbers.Models .growing := by
  intro v body
  refine ⟨fun x => if x = "y" then v "x" + 1 else v x, fun x universal => if_neg ?_, fun a member => ?_⟩
  · exact fun same => absurd (same ▸ universal) (by decide +kernel)
  · obtain rfl : a = ⟨"r", [.var "x", .var "y", .app "f" [.var "y"]]⟩ := by simpa [Tgd.growing, Tgd.ofLists] using member
    refine ⟨v "x", v "x" + 1, Nat.lt_succ_self _, .inr (.inl ?_)⟩
    simp [Interpretation.fact, Interpretation.values]

theorem Structure.models_outgrowing : numbers.Models .outgrowing := by
  intro v body
  obtain ⟨m, n, lower, fact⟩ := body ⟨"r", [.var "x", .var "y", .var "z"]⟩ (by decide +kernel)
  have values : v "x" = m ∧ v "y" = n ∧ v "z" = n + 1 := by simpa [Interpretation.fact, Interpretation.values] using fact
  refine ⟨fun x => if x = "w" then n + 2 else v x, fun x universal => if_neg ?_, fun a member => ?_⟩
  · exact fun same => absurd (same ▸ universal) (by decide +kernel)
  · obtain rfl : a = ⟨"s", [.var "x", .var "z", .var "w"]⟩ := by simpa [Tgd.outgrowing, Tgd.ofLists] using member
    refine ⟨m, n + 1, by omega, .inr (.inr ?_)⟩
    simp [Interpretation.fact, Interpretation.values, values]

/-- Two rules that share the names `x` and `y` and have one existential variable each: what `y` becomes is a function
term in the resolvent, and `w` is named anew. -/
theorem models_outgrown :
    ∃ t : Tgd, t = .ofLists [⟨"a", [.var "x"]⟩]
        [⟨"r", [.var "x", .var "y", .app "f" [.var "y"]]⟩, ⟨"s", [.var "x", .app "f" [.var "y"], .var "z3"]⟩] ∧
      Tgd.growing.existentials = ["y"] ∧ Tgd.outgrowing.existentials = ["w"] ∧ evolve .growing .outgrowing = [t] ∧
      Structure.numbers.Models .growing ∧ Structure.numbers.Models .outgrowing ∧ Structure.numbers.Models t := by
  have evolved : evolve .growing .outgrowing = [.ofLists [⟨"a", [.var "x"]⟩]
      [⟨"r", [.var "x", .var "y", .app "f" [.var "y"]]⟩, ⟨"s", [.var "x", .app "f" [.var "y"], .var "z3"]⟩]] := by
    decide +kernel
  exact ⟨_, rfl, by decide +kernel, by decide +kernel, evolved, Structure.models_growing, Structure.models_outgrowing,
    models_of_mem_evolve _ _ _ Structure.models_growing Structure.models_outgrowing _ (by simp [evolved])⟩

/-- All atoms that a rule selects are body atoms. -/
def Rule.SelectsBody (r : Rule) : Prop := ∀ selection, r.selection? = some selection → ∀ s ∈ selection.atoms, s ∈ r.body

theorem Rule.Built.selectsBody {algorithm : Algorithm} {r : Rule} (built : r.Built algorithm)
    (selecting : algorithm ≠ .existential) (side : (Selection.eligible r.tgd).side = .body) : r.SelectsBody := by
  intro selection found s selected
  obtain ⟨eligible, found', -, within, -⟩ := built.selection selecting
  obtain rfl : eligible = selection := Option.some.inj (found'.symm.trans found)
  exact (Selection.eligible_body side (within s selected)).1

/-- Every resolvent of a rule without existential variables with one that has none either, or selects body atoms, holds
wherever both rules do. -/
theorem models_of_mem_resolve (producer consumer : Rule) (full : producer.tgd.existentials = [])
    (full' : consumer.tgd.existentials = [] ∨ consumer.SelectsBody) (M : Structure.{u}) (first : M.Models producer.tgd)
    (second : M.Models consumer.tgd) (t : Tgd) (member : t ∈ resolve producer consumer) : M.Models t := by
  rw [← Tgd.isFull_iff] at full full'
  rcases full' with full' | body
  · exact Structure.models_resolve full full' first second member
  obtain ⟨⟨selection, selects, s, selected, h, head, σ, found, rfl⟩, -⟩ := mem_resolve.mp member
  have inside : (consumer.tgd.renamingApart stem producer.tgd).applyAtom s ∈ (consumer.tgd.renameApart stem producer.tgd).body :=
    AtomSet.mem_subst.mpr ⟨s, body selection selects s selected, rfl⟩
  have confined := mostGeneral_confined acyclic_empty
    (confined_empty (producer.tgd.Scope (consumer.tgd.renameApart stem producer.tgd)))
    (fun y mentioned => .inl (Tgd.mem_vars_of_mem (.inr head) mentioned))
    (fun y mentioned => .inr (AtomSet.mem_vars_of_mem inside mentioned)) found
  exact Structure.models_of_resolved full (Tgd.spares_renameApart confined) head (mostGeneral_unifies acyclic_empty found)
    first (Structure.models_renameApart.mpr second)

def Tgd.climbing : Tgd :=
  .ofLists [⟨"r", [.var "x", .var "y", .var "z"]⟩]
    [⟨"r", [.var "y", .var "z", .app "f" [.var "z"]]⟩, ⟨"s", [.var "x", .var "z", .app "f" [.var "z"]]⟩]

theorem Structure.models_climbing : numbers.Models .climbing := by
  apply models_of_full
  intro v body a member
  obtain ⟨m, n, lower, fact⟩ := body ⟨"r", [.var "x", .var "y", .var "z"]⟩ (by decide +kernel)
  have values : v "x" = m ∧ v "y" = n ∧ v "z" = n + 1 := by simpa [Interpretation.fact, Interpretation.values] using fact
  obtain rfl | rfl : a = ⟨"r", [.var "y", .var "z", .app "f" [.var "z"]]⟩ ∨
      a = ⟨"s", [.var "x", .var "z", .app "f" [.var "z"]]⟩ := by simpa [Tgd.climbing, Tgd.ofLists] using member
  · refine ⟨n, n + 1, by omega, .inr (.inl ?_)⟩
    simp [Interpretation.fact, Interpretation.values, values]
  · refine ⟨m, n + 1, by omega, .inr (.inr ?_)⟩
    simp [Interpretation.fact, Interpretation.values, values]

/-- A rule with two head atoms and one that selects its guard: the existential variable of the second stays, and its
other body atom is left. -/
theorem models_climbed :
    ∃ (producer consumer : Rule) (t : Tgd), producer.tgd = .climbing ∧ consumer.tgd = .outgrowing ∧
      t = .ofLists [⟨"a", [.var "z0"]⟩, ⟨"r", [.var "x", .var "z0", .var "z1"]⟩]
        [⟨"s", [.var "z0", .app "f" [.var "z1"], .var "z3"]⟩] ∧
      producer.tgd.existentials = [] ∧ consumer.tgd.existentials = ["w"] ∧ consumer.SelectsBody ∧
      resolve producer consumer = [t] ∧ Structure.numbers.Models .climbing ∧ Structure.numbers.Models .outgrowing ∧
      Structure.numbers.Models t := by
  let producer : Rule := ⟨.climbing, ⟨"r", [.var "x", .var "y", .var "z"]⟩, .guarded⟩
  let consumer : Rule :=
    ⟨.outgrowing, ⟨"r", [.var "x", .var "y", .var "z"]⟩, .ordered ⟨[⟨"r", [.var "x", .var "y", .var "z"]⟩], .body⟩⟩
  have built : consumer.Built .orderedSkolem := ⟨{}, _, rfl⟩
  have selects : consumer.SelectsBody := built.selectsBody (by decide) (by decide +kernel)
  have full : producer.tgd.existentials = [] := by decide +kernel
  have resolved : resolve producer consumer = [.ofLists [⟨"a", [.var "z0"]⟩, ⟨"r", [.var "x", .var "z0", .var "z1"]⟩]
      [⟨"s", [.var "z0", .app "f" [.var "z1"], .var "z3"]⟩]] := by decide +kernel
  exact ⟨producer, consumer, _, rfl, rfl, rfl, full, by decide +kernel, selects, resolved, Structure.models_climbing,
    Structure.models_outgrowing, models_of_mem_resolve producer consumer full (.inr selects) _ Structure.models_climbing
      Structure.models_outgrowing _ (by simp [resolved])⟩

end GuardedSaturation
