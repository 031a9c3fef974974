import Mathlib
import GuardedSaturation.Proofs.Saturation.Runs

/-! Existential runs keep their meaning. What holds wherever the inputs hold is a property of
all rules of a run; and the stored rules, covering all rules taken up, say what the seeds said. -/
namespace GuardedSaturation

universe u

namespace Structure

/-- The guarded dependencies that have a head hold. -/
def ModelsInputs (M : Structure.{u}) (ds : List Dependency) : Prop :=
  ∀ d ∈ ds, d.head ≠ [] → d.toTgd.Guarded → M.Models d.toTgd

def ModelsStored (M : Structure.{u}) (s : State) : Prop :=
  ∀ p id r, id ∈ s.members p → s.catalog.get? id = some r → M.Models r.tgd

variable {M : Structure.{u}} {config : Config} {ds : List Dependency}

/-- The seeds of an existential run say together what the inputs say. -/
theorem modelsInputs_iff (existential : config.algorithm = .existential) :
    M.ModelsInputs ds ↔ ∀ t ∈ Seeds.ofInputs config ds, M.Models t := by
  simp only [Seeds.mem_ofInputs, existential, Seeds.mem_expand_existential, Seeds.mem_accepted]
  constructor
  · rintro inputs t ⟨_, ⟨d, member, some, guarded, rfl⟩, part⟩
    exact models_canonicalParts.mpr (inputs d member some guarded) t part
  · intro seeds d member some guarded
    exact models_canonicalParts.mp (fun t part => seeds t ⟨_, ⟨d, member, some, guarded, rfl⟩, part⟩)

/-- The property of rules that they have the right shape and follow from the inputs. -/
def Follows (M : Structure.{u}) (config : Config) (ds : List Dependency) (t : Tgd) : Prop :=
  config.algorithm.Shape t ∧ (M.ModelsInputs ds → M.Models t)

theorem closed_follows (existential : config.algorithm = .existential) : Closed config (M.Follows config ds) := by
  refine ⟨fun _ good => good.1, fun t rest good left => ?_, fun l r c _ right leftPart rightPart first second member => ?_⟩
  · exact ⟨good.1.trimmed left, fun inputs => models_trimmed.mpr (good.2 inputs) rest left⟩
  · refine ⟨Algorithm.Shape.conclusion right leftPart rightPart first.1 second.1 member, fun inputs => ?_⟩
    rw [existential] at rightPart member
    obtain ⟨t, evolved, part⟩ := List.mem_flatMap.mp member
    have full := Algorithm.partOf_existential_right.mp rightPart
    exact models_canonicalParts.mpr (models_evolve full (first.2 inputs) (second.2 inputs) evolved) c part

theorem runs_follows (existential : config.algorithm = .existential) (checked : Dependency.checkAll ds = .ok ()) :
    State.Runs config ds (M.Follows config ds) :=
  ⟨closed_follows existential, fun t member =>
    ⟨Algorithm.shape_of_seed checked member, fun inputs => (modelsInputs_iff existential).mp inputs t member⟩⟩

end Structure

namespace State
variable {config : Config} {ds : List Dependency} {P : Tgd → Prop} {M : Structure.{u}} {s m : State}

theorem Within.seed (runs : Runs config ds P) (within : Within config ds m) {t : Tgd}
    (seed : t ∈ Seeds.ofInputs config ds) : Handled config m t := by
  obtain ⟨-, -, handled⟩ := (consistent_opening config ds).acceptAll runs.closed runs.seeds
  intro rest left
  obtain ⟨id, r, found, same⟩ := handled t seed rest left
  exact ⟨id, r, (within.spec runs).2 id r found, same⟩

/-- Where the stored rules hold all rules of the catalog do: a rule that subsumes another one says more. -/
theorem models_of_modelsStored (existential : config.algorithm = .existential)
    (consistent : Consistent config config.algorithm.Shape s) (stored : M.ModelsStored s) {id : RuleId} {r : Rule}
    (found : s.catalog.get? id = some r) : M.Models r.tgd := by
  have sorted {id : RuleId} {r : Rule} (found : s.catalog.get? id = some r) : r.tgd.Sorted {} := by
    have shape := (consistent.rules id r found).2
    rw [existential] at shape
    exact Tgd.Evolvable.sorted shape
  obtain ⟨j, q, member, found', subsumes⟩ := consistent.covered id r found
  exact .of_subsumes Naming.apart_default (sorted found') (sorted found) subsumes (stored _ j q member found')

theorem Within.modelsInputs (existential : config.algorithm = .existential) (checked : Dependency.checkAll ds = .ok ())
    (within : Within config ds m) (stored : M.ModelsStored m) : M.ModelsInputs ds := by
  have runs := runs_shape config checked
  apply (Structure.modelsInputs_iff existential).mpr
  intro t seed
  have trimmed (rest : Tgd) (left : t.trimmed config.discardTautologies = some rest) : M.Models rest := by
    obtain ⟨id, r, found, rfl⟩ := within.seed runs seed rest left
    exact models_of_modelsStored existential (within.consistent runs) stored found
  exact Structure.models_trimmed.mp trimmed

theorem Within.modelsStored (existential : config.algorithm = .existential) (checked : Dependency.checkAll ds = .ok ())
    (within : Within config ds m) (inputs : M.ModelsInputs ds) : M.ModelsStored m := fun _ id r _ found =>
  ((within.consistent (Structure.runs_follows existential checked)).rules id r found).2.2 inputs

theorem mem_fullRules {t : Tgd} :
    t ∈ s.fullRules config ↔
      ∃ id r, id ∈ s.members .right ∧ s.catalog.get? id = some r ∧ config.algorithm.isOutput r = true ∧ r.tgd = t := by
  simp only [fullRules, SortedSet.mem_toList, SortedSet.mem_ofList, List.mem_map, List.mem_filter, List.mem_filterMap]
  constructor
  · rintro ⟨r, ⟨⟨id, member, found⟩, output⟩, rfl⟩
    exact ⟨id, r, member, found, output, rfl⟩
  · rintro ⟨id, r, member, found, output, rfl⟩
    exact ⟨r, ⟨⟨id, member, found⟩, output⟩, rfl⟩

theorem Consistent.answered (consistent : Consistent config P s) (shaped : ∀ t, P t → config.algorithm.Shape t) {t : Tgd}
    (member : t ∈ s.fullRules config) : t.isFull = true ∧ t.isFunctionFree = true ∧ P t := by
  obtain ⟨id, r, stored, found, output, rfl⟩ := mem_fullRules.mp member
  have good := (consistent.rules id r found).2
  have shape := shaped r.tgd good
  by_cases selecting : config.algorithm = .existential
  · have part := consistent.parts .right id r stored found
    rw [selecting] at shape part
    exact ⟨Algorithm.partOf_existential_right.mp part, Tgd.Evolvable.free shape, good⟩
  · have free : r.tgd.isFunctionFree = true := by
      cases kind : config.algorithm with
      | existential => contradiction
      | skolem | orderedSkolem =>
        rw [kind] at output
        exact output
    exact ⟨((Algorithm.shape_of_selecting selecting).mp shape).full, free, good⟩

end State

/-- At every point of an existential run after the seeds, the stored rules hold in the structures
where the inputs hold, and in no others; so all full rules that the run answers follow from the inputs. -/
theorem modelsStored_iff (config : Config) (ds : List Dependency) (existential : config.algorithm = .existential)
    (checked : Dependency.checkAll ds = .ok ()) :
    (∀ m, State.Within config ds m → ∀ M : Structure.{u}, M.ModelsStored m ↔ M.ModelsInputs ds) ∧
    State.Within config ds (State.final config ds).2 ∧
    ∃ result, saturate config ds = .ok result ∧ result.fullRules = (State.final config ds).2.fullRules config ∧
      ∀ M : Structure.{u}, M.ModelsInputs ds → ∀ t ∈ result.fullRules, M.Models t := by
  have final := State.Within.turn (State.final_reached config ds)
  refine ⟨fun m within M => ⟨within.modelsInputs existential checked, within.modelsStored existential checked⟩, final,
    _, saturate_of_checked config checked, rfl, fun M inputs t member => ?_⟩
  obtain ⟨id, r, stored, found, -, rfl⟩ := State.mem_fullRules.mp member
  exact final.modelsStored existential checked inputs .right id r stored found

/-- Of two dependencies that join, the rule `p(u0) → r(u0)` is answered and follows. -/
theorem modelsStored_chained :
    ∃ result, Config.algorithm {} = .existential ∧ Dependency.checkAll Dependency.chained = .ok () ∧
      saturate {} Dependency.chained = .ok result ∧ .ofLists [⟨"p", [.var "u0"]⟩] [⟨"r", [.var "u0"]⟩] ∈ result.fullRules ∧
      ∀ M : Structure.{u}, (M.ModelsStored (State.final {} Dependency.chained).2 ↔ M.ModelsInputs Dependency.chained) ∧
        (M.ModelsInputs Dependency.chained → M.Models (.ofLists [⟨"p", [.var "u0"]⟩] [⟨"r", [.var "u0"]⟩])) := by
  have answered : .ofLists [⟨"p", [.var "u0"]⟩] [⟨"r", [.var "u0"]⟩] ∈
      (State.final {} Dependency.chained).2.fullRules {} := by decide +kernel
  obtain ⟨same, within, result, ok, rules, follows⟩ := modelsStored_iff {} Dependency.chained rfl checkAll_chained
  refine ⟨result, rfl, checkAll_chained, ok, rules ▸ answered, fun M => ⟨same _ within M, fun inputs => ?_⟩⟩
  exact follows M inputs _ (rules ▸ answered)

end GuardedSaturation
