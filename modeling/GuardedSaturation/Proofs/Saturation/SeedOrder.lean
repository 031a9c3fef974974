import Mathlib
import GuardedSaturation.Proofs.Saturation.Agreement
import GuardedSaturation.Proofs.Saturation.Consequences
import GuardedSaturation.Proofs.Saturation.Termination

/-! The order of the seeds. It decides which conclusions are drawn before their premises are subsumed, and such a
conclusion stays when no stored rule subsumes it as it is written. So the full rules depend on the order, but the facts
that they derive and the structures that they hold in do not. -/
namespace GuardedSaturation

universe u

theorem Structure.ModelsInputs.perm {M : Structure.{u}} {ds ds' : List Dependency} (inputs : M.ModelsInputs ds)
    (perm : ds.Perm ds') : M.ModelsInputs ds' :=
  fun d member => inputs d (perm.mem_iff.mpr member)

theorem Entails.perm {ds ds' : List Dependency} {D : AtomSet} {F : Atom} (entails : Entails ds D F)
    (perm : ds.Perm ds') : Entails ds' D F :=
  fun M inputs => entails M (inputs.perm perm.symm)

namespace State
variable {ds ds' : List Dependency} {seed? : Option Nat}

/-- The seed bears on the order of the seeds only. -/
theorem advance_shuffled (config : Config) (seed? : Option Nat) (s : State) (n : Nat) :
    s.advance { config with shuffleSeed? := seed? } n = s.advance config n := by
  induction n generalizing s with
  | zero => rfl
  | succ n ih =>
    have step : s.step { config with shuffleSeed? := seed? } = s.step config := rfl
    rw [advance, advance, step]
    cases s.step config with
    | error o => rfl
    | ok next => exact ih next

theorem initial_of_seeds (config : Config) (perm : ds.Perm ds')
    (seeds : Seeds.ofInputs { config with shuffleSeed? := seed? } ds = Seeds.ofInputs config ds') :
    initial { config with shuffleSeed? := seed? } ds = initial config ds' := by
  have stats (seeds : List Tgd) : Seeds.stats seeds ds = Seeds.stats seeds ds' := by
    simp only [Seeds.stats, perm.length_eq, perm.countP_eq]
  rw [initial, initial, seeds, stats]
  rfl

end State

/-- A shuffled run is a run on the dependencies in another order, if there is one that has its seeds. -/
theorem saturate_of_seeds {ds ds' : List Dependency} (config : Config) (seed? : Option Nat)
    (checked : Dependency.checkAll ds = .ok ()) (checked' : Dependency.checkAll ds' = .ok ()) (perm : ds.Perm ds')
    (seeds : Seeds.ofInputs { config with shuffleSeed? := seed? } ds = Seeds.ofInputs config ds') :
    saturate { config with shuffleSeed? := seed? } ds = saturate config ds' := by
  have final : State.final { config with shuffleSeed? := seed? } ds = State.final config ds' := by
    rw [State.final_eq, State.final_eq, State.rounds, State.rounds, seeds, State.initial_of_seeds config perm seeds,
      State.advance_shuffled]
  rw [saturate_of_checked _ checked, saturate_of_checked _ checked', final]
  rfl

def Atom.over (p : String) (xs : List Variable) : Atom := ⟨p, xs.map .var⟩

/-- Rules with their one body atom as the guard. -/
def Catalog.guarding (rules : List (Atom × List Atom)) : Catalog :=
  ⟨(rules.map (fun (guard, head) => ⟨.ofLists [guard] head, guard, .guarded⟩)).toArray⟩

/-- The first dependency is subsumed by what the last two come to: `r(x, y, z) → m(x, z) ∧ p(x) ∧ q(y)`. -/
def Dependency.overtaken : List Dependency :=
  [⟨[.over "r" ["x", "y", "z"]], [.over "m" ["x", "z"], .over "q" ["y"]], []⟩,
    ⟨[.over "a" ["x", "y"]], [.over "r" ["x", "y", "z"]], []⟩,
    ⟨[.over "r" ["x", "y", "z"]], [.over "t" ["x", "y", "z", "w"]], []⟩,
    ⟨[.over "t" ["x", "y", "z", "w"]], [.over "m" ["x", "z"], .over "p" ["x"], .over "q" ["y"]], []⟩]

def Dependency.overtaking : List Dependency := Dependency.overtaken.drop 2 ++ (Dependency.overtaken.take 2).reverse

namespace Catalog

def overtaken : Catalog := .guarding
  [(.over "r" ["u0", "u2", "u1"], [.over "m" ["u0", "u1"], .over "q" ["u2"]]),
    (.over "a" ["u0", "u1"], [.over "r" ["u0", "u1", "e0"]]),
    (.over "r" ["u0", "u1", "u2"], [.over "t" ["u0", "u1", "u2", "e0"]]),
    (.over "t" ["u0", "u2", "u1", "u3"], [.over "m" ["u0", "u1"], .over "p" ["u0"], .over "q" ["u2"]]),
    (.over "a" ["u0", "u1"], [.over "m" ["u0", "e0"], .over "r" ["u0", "u1", "e0"]]),
    (.over "a" ["u1", "u0"], [.over "q" ["u0"]]),
    (.over "r" ["u0", "u2", "u1"], [.over "m" ["u0", "u1"], .over "p" ["u0"], .over "q" ["u2"]])]

def overtaking : Catalog := .guarding
  [(.over "r" ["u0", "u1", "u2"], [.over "t" ["u0", "u1", "u2", "e0"]]),
    (.over "t" ["u0", "u2", "u1", "u3"], [.over "m" ["u0", "u1"], .over "p" ["u0"], .over "q" ["u2"]]),
    (.over "a" ["u0", "u1"], [.over "r" ["u0", "u1", "e0"]]),
    (.over "r" ["u0", "u2", "u1"], [.over "m" ["u0", "u1"], .over "q" ["u2"]]),
    (.over "r" ["u0", "u2", "u1"], [.over "m" ["u0", "u1"], .over "p" ["u0"], .over "q" ["u2"]]),
    (.over "a" ["u0", "u1"], [.over "m" ["u0", "e0"], .over "r" ["u0", "u1", "e0"]]),
    (.over "a" ["u0", "u1"], [.over "p" ["u0"], .over "q" ["u1"]])]

end Catalog

/-- The second stage of a run, once the catalog of the first is known, gives the answer of the whole run. -/
theorem saturate_of_stages {config : Config} {ds : List Dependency} (checked : Dependency.checkAll ds = .ok ()) {m : Nat}
    (n : Nat) {catalog : Catalog} {rules : List Tgd}
    (first : ((State.initial config ds).advance config m).1 = none ∧
      ((State.initial config ds).advance config m).2.catalog = catalog)
    (second : ({ ((State.initial config ds).advance config m).2 with catalog }.advance config n).1 = some .completed ∧
      ({ ((State.initial config ds).advance config m).2 with catalog }.advance config n).2.fullRules config = rules) :
    ∃ result, saturate config ds = .ok result ∧ result.outcome = .completed ∧ result.fullRules = rules := by
  have final := State.final_of_stages checked first.1 first.2 second.1
  refine ⟨_, saturate_of_checked config checked, ?_, ?_⟩
  · rw [final, second.1]
    rfl
  · rw [final]
    exact second.2

/-- What follows from a rule that was subsumed later on. -/
def Tgd.leftBehind : Tgd := .ofLists [.over "a" ["u1", "u0"]] [.over "q" ["u0"]]

def Tgd.overtaking : List Tgd :=
  [.ofLists [.over "a" ["u0", "u1"]] [.over "p" ["u0"], .over "q" ["u1"]],
    .ofLists [.over "r" ["u0", "u2", "u1"]] [.over "m" ["u0", "u1"], .over "p" ["u0"], .over "q" ["u2"]],
    .ofLists [.over "t" ["u0", "u2", "u1", "u3"]] [.over "m" ["u0", "u1"], .over "p" ["u0"], .over "q" ["u2"]]]

theorem saturate_overtaken : ∃ result, saturate {} Dependency.overtaken = .ok result ∧ result.outcome = .completed ∧
    result.fullRules = Tgd.overtaking.insertIdx 1 .leftBehind := by
  -- With its rules written out, the second stage need not compute their names from those of the first once more.
  have first : ((State.initial {} Dependency.overtaken).advance {} 4).1 = none ∧
      ((State.initial {} Dependency.overtaken).advance {} 4).2.catalog = .overtaken := by decide +kernel
  exact saturate_of_stages (by decide +kernel) 5 first (by decide +kernel)

theorem saturate_overtaking : ∃ result, saturate {} Dependency.overtaking = .ok result ∧ result.outcome = .completed ∧
    result.fullRules = Tgd.overtaking := by
  have first : ((State.initial {} Dependency.overtaking).advance {} 3).1 = none ∧
      ((State.initial {} Dependency.overtaking).advance {} 3).2.catalog = .overtaking := by decide +kernel
  exact saturate_of_stages (by decide +kernel) 5 first (by decide +kernel)

theorem saturate_shuffled : ∃ result, saturate { shuffleSeed? := some 4 } Dependency.overtaken = .ok result ∧
    result.outcome = .completed ∧ result.fullRules = Tgd.overtaking := by
  have seeds : Seeds.ofInputs { shuffleSeed? := some 4 } Dependency.overtaken = Seeds.ofInputs {} Dependency.overtaking := by
    decide +kernel
  rw [saturate_of_seeds {} (some 4) (by decide +kernel) (by decide +kernel) (by decide +kernel) seeds]
  exact saturate_overtaking

/-- The same dependencies in two orders, and in the first order shuffled, have different full rules: in the first order
`a(u1, u0) → q(u0)` stands beside `a(u0, u1) → p(u0) ∧ q(u1)`. -/
theorem fullRules_overtaken :
    ∃ result result' result'', Dependency.checkAll Dependency.overtaken = .ok () ∧
      Dependency.overtaken.Perm Dependency.overtaking ∧
      saturate {} Dependency.overtaken = .ok result ∧ result.outcome = .completed ∧
      saturate {} Dependency.overtaking = .ok result' ∧ result'.outcome = .completed ∧
      saturate { shuffleSeed? := some 4 } Dependency.overtaken = .ok result'' ∧ result''.outcome = .completed ∧
      result.fullRules ≠ result'.fullRules ∧ result.fullRules ≠ result''.fullRules := by
  obtain ⟨result, ok, completed, rules⟩ := saturate_overtaken
  obtain ⟨result', ok', completed', rules'⟩ := saturate_overtaking
  obtain ⟨result'', ok'', completed'', rules''⟩ := saturate_shuffled
  have differ : Tgd.overtaking.insertIdx 1 .leftBehind ≠ Tgd.overtaking := by decide +kernel
  refine ⟨result, result', result'', (saturate_eq_ok ok).1, by decide +kernel, ok, completed, ok', completed', ok'',
    completed'', ?_, ?_⟩
  · rw [rules, rules']
    exact differ
  · rw [rules, rules'']
    exact differ

/-- Completed existential runs on the same dependencies derive the same facts over constants, whatever the order of the
dependencies and of the seeds, and their full rules hold in the same structures. -/
theorem fullRules_equivalent_of_perm (config config' : Config) (existential : config.algorithm = .existential)
    (existential' : config'.algorithm = .existential) (ds ds' : List Dependency) (perm : ds.Perm ds')
    (result result' : Saturation) (ok : saturate config ds = .ok result) (ok' : saturate config' ds' = .ok result')
    (completed : result.outcome = .completed) (completed' : result'.outcome = .completed) :
    (∀ D F, (∀ a ∈ D, a.IsGround) → F.IsGround → (Datalog result.fullRules D F ↔ Datalog result'.fullRules D F)) ∧
    ∀ M : Structure.{u}, (∀ t ∈ result.fullRules, M.Models t) ↔ ∀ t ∈ result'.fullRules, M.Models t := by
  have answers {config : Config} {ds : List Dependency} {result : Saturation} (existential : config.algorithm = .existential)
      (ok : saturate config ds = .ok result) (completed : result.outcome = .completed) :
      (∀ t ∈ result.fullRules, t.isFull = true ∧ t.isFunctionFree = true) ∧
      ∀ D F, (∀ a ∈ D, a.IsGround) → F.IsGround → (Datalog result.fullRules D F ↔ Entails ds D F) := by
    have completes := completes_final ok completed
    obtain ⟨checked, rfl⟩ := saturate_eq_ok ok
    refine ⟨fun t member => ?_, fun D F ground groundF => ?_⟩
    · have answered := (completes.reached.consistent (runs_shape config checked)).answered (fun _ shape => shape) member
      exact ⟨answered.1, answered.2.1⟩
    · exact completes.datalog_iff_of_existential existential checked ground groundF
  obtain ⟨shapes, facts⟩ := answers existential ok completed
  obtain ⟨shapes', facts'⟩ := answers existential' ok' completed'
  have same (D : AtomSet) (F : Atom) (ground : ∀ a ∈ D, a.IsGround) (groundF : F.IsGround) :
      Datalog result.fullRules D F ↔ Datalog result'.fullRules D F := by
    rw [facts D F ground groundF, facts' D F ground groundF]
    exact ⟨fun entails => entails.perm perm, fun entails => entails.perm perm.symm⟩
  refine ⟨same, fun M => ⟨?_, ?_⟩⟩
  · exact Structure.models_of_datalog (fun t member => (shapes t member).1) (fun t member => (shapes' t member).2)
      (fun D F ground groundF => (same D F ground groundF).mpr)
  · exact Structure.models_of_datalog (fun t member => (shapes' t member).1) (fun t member => (shapes t member).2)
      (fun D F ground groundF => (same D F ground groundF).mp)

/-- From `a(c, d)` the full rules derive `q(d)` in either order, and the rule that stands beside the others in the first
follows from the others. -/
theorem fullRules_equivalent_overtaken :
    ∃ result result', Dependency.overtaken.Perm Dependency.overtaking ∧ saturate {} Dependency.overtaken = .ok result ∧
      saturate {} Dependency.overtaking = .ok result' ∧ result.outcome = .completed ∧ result'.outcome = .completed ∧
      Datalog result.fullRules (.singleton ⟨"a", [.const "c", .const "d"]⟩) ⟨"q", [.const "d"]⟩ ∧
      Datalog result'.fullRules (.singleton ⟨"a", [.const "c", .const "d"]⟩) ⟨"q", [.const "d"]⟩ ∧
      ∀ M : Structure.{0}, (∀ t ∈ Tgd.overtaking, M.Models t) → M.Models .leftBehind := by
  obtain ⟨result, ok, completed, rules⟩ := saturate_overtaken
  obtain ⟨result', ok', completed', rules'⟩ := saturate_overtaking
  have perm : Dependency.overtaken.Perm Dependency.overtaking := by decide +kernel
  obtain ⟨facts, structures⟩ := fullRules_equivalent_of_perm {} {} rfl rfl _ _ perm result result' ok ok' completed completed'
  have beside : Tgd.leftBehind ∈ result.fullRules := by
    rw [rules]
    decide +kernel
  have ground : ∀ a ∈ SortedSet.singleton (Atom.mk "a" [.const "c", .const "d"]), a.IsGround := by
    intro a member
    rw [SortedSet.mem_singleton.mp member]
    simp [Atom.IsGround]
  have groundF : (Atom.mk "q" [.const "d"]).IsGround := by simp [Atom.IsGround]
  have derives : Datalog result.fullRules (.singleton ⟨"a", [.const "c", .const "d"]⟩) ⟨"q", [.const "d"]⟩ := by
    refine .rule (h := ⟨"q", [.var "u0"]⟩) (fun x => if x = "u0" then "d" else "c") beside (fun a member => ?_)
      (by decide +kernel)
    obtain rfl : a = .over "a" ["u1", "u0"] := by simpa [Tgd.leftBehind, Tgd.ofLists] using member
    exact .given (by decide +kernel)
  refine ⟨result, result', perm, ok, ok', completed, completed', derives, (facts _ _ ground groundF).mp derives,
    fun M models => (structures M).mpr (rules' ▸ models) _ beside⟩

end GuardedSaturation
