import Mathlib
import GuardedSaturation.Proofs.Saturation.Runs

/-! The shape that all rules of a selecting run have, stored or not. It leaves resolution nothing to drop: no resolvent
of such rules nests function terms. -/
namespace GuardedSaturation

namespace Tgd.Resolvable
variable {t : Tgd}

theorem size_head (shape : t.Resolvable) : t.head.size = 1 := by
  obtain ⟨h, alone⟩ := shape.single
  have : t.head = .singleton h := by
    ext a
    rw [alone, SortedSet.mem_singleton]
  rw [this]
  rfl

theorem existentials_eq_nil (shape : t.Resolvable) : t.existentials = [] := isFull_iff.mp shape.full

/-- All variables of the rule are in its body. -/
theorem mem_vars_of_function (shape : t.Resolvable) {a : Atom} (member : a ∈ t.body ∨ a ∈ t.head) {s : Term}
    (inside : s ∈ a.args) (function : s.isFunction = true) {x : Variable} (mentioned : x ∈ t.vars) : x ∈ s.vars :=
  shape.deep a member s inside function x ((mem_vars.mp mentioned).elim id (isFull_eq_true.mp shape.full x))

end Tgd.Resolvable

namespace Algorithm
variable {algorithm : Algorithm} {l r : Rule}

theorem resolve_eq_resolvents (selecting : algorithm ≠ .existential) (right : r.Built algorithm)
    (leftPart : algorithm.partOf l.tgd = .left) (rightPart : algorithm.partOf r.tgd = .right)
    (leftShape : algorithm.Shape l.tgd) (rightShape : algorithm.Shape r.tgd) : resolve l r = resolvents l r := by
  rw [resolve_eq_filter, List.filter_eq_self]
  intro t member
  obtain ⟨selection, found, s, selected, h, head, σ, unifier, rfl⟩ := mem_resolvents.mp member
  have join := joinable selecting right leftPart rightPart leftShape rightShape found selected head
  rw [Bool.not_eq_true']
  exact join.flat unifier

end Algorithm

/-- Every rule that a selecting run takes up has one head atom and no existential variable, is guarded, and has flat
function terms, each of which mentions all variables of the rule. So no resolvent is dropped for nested function terms. -/
theorem resolve_of_selecting (config : Config) (ds : List Dependency) (selecting : config.algorithm ≠ .existential)
    (checked : Dependency.checkAll ds = .ok ()) (m : State) (between : State.Between config ds m) :
    (∀ id r, m.catalog.get? id = some r → r.head.size = 1 ∧ r.tgd.existentials = [] ∧ r.tgd.Guarded ∧
      r.tgd.hasNested = false ∧ ∀ a, a ∈ r.body ∨ a ∈ r.head → ∀ s ∈ a.args, s.isFunction = true →
        ∀ x ∈ r.tgd.vars, x ∈ s.vars) ∧
    ∀ i j l r, m.catalog.get? i = some l → m.catalog.get? j = some r → config.algorithm.part l = .left →
      config.algorithm.part r = .right → resolve l r = resolvents l r := by
  have consistent := between.consistent (runs_shape config checked)
  refine ⟨fun id r found => ?_, fun i j l r found found' left right => ?_⟩
  · have shape := (Algorithm.shape_of_selecting selecting).mp (consistent.rules id r found).2
    exact ⟨shape.size_head, shape.existentials_eq_nil, shape.guarded, shape.flat,
      fun a member s inside function x mentioned => shape.mem_vars_of_function member inside function mentioned⟩
  · obtain ⟨built, shape⟩ := consistent.rules i l found
    obtain ⟨built', shape'⟩ := consistent.rules j r found'
    rw [Algorithm.part_of_built built] at left
    rw [Algorithm.part_of_built built'] at right
    exact Algorithm.resolve_eq_resolvents selecting built' left right shape shape'

/-- The rules of two dependencies that join: `p(u0) → q(u0, f(u0))` and `q(u0, u1) → r(u0)` have the one resolvent
`p(u0) → r(u0)`. -/
theorem resolve_chained :
    ∃ (m : State) (l r : Rule), Config.algorithm { algorithm := .skolem } ≠ .existential ∧
      Dependency.checkAll Dependency.chained = .ok () ∧ State.Between { algorithm := .skolem } Dependency.chained m ∧
      m.catalog.get? 0 = some l ∧ m.catalog.get? 1 = some r ∧ l.tgd.isFunctionFree = false ∧ l.head.size = 1 ∧
      l.tgd.hasNested = false ∧ resolve l r = resolvents l r ∧ (resolve l r).length = 1 := by
  have between := State.Between.within (.turn (State.final_reached { algorithm := .skolem } Dependency.chained))
  let l : Rule := ⟨.ofLists [⟨"p", [.var "u0"]⟩] [⟨"q", [.var "u0", .app "sk#0" [.var "u0"]]⟩], ⟨"p", [.var "u0"]⟩,
    .skolemized ⟨[⟨"q", [.var "u0", .app "sk#0" [.var "u0"]]⟩], .head⟩⟩
  let r : Rule := ⟨.ofLists [⟨"q", [.var "u0", .var "u1"]⟩] [⟨"r", [.var "u0"]⟩], ⟨"q", [.var "u0", .var "u1"]⟩,
    .skolemized ⟨[⟨"q", [.var "u0", .var "u1"]⟩], .body⟩⟩
  have found : (State.final { algorithm := .skolem } Dependency.chained).2.catalog.get? 0 = some l := by decide +kernel
  have found' : (State.final { algorithm := .skolem } Dependency.chained).2.catalog.get? 1 = some r := by decide +kernel
  obtain ⟨shapes, whole⟩ := resolve_of_selecting { algorithm := .skolem } _ (by decide) checkAll_chained _ between
  obtain ⟨single, -, -, flat, -⟩ := shapes 0 l found
  exact ⟨_, l, r, by decide, checkAll_chained, between, found, found', by decide +kernel, single, flat,
    whole 0 1 l r found found' rfl rfl, by decide +kernel⟩

end GuardedSaturation
