import Mathlib
import GuardedSaturation.Proofs.Skolemization.Sessions
import GuardedSaturation.Proofs.Saturation.Completeness

/-! Selecting runs are sound. A structure of the inputs is expanded by meanings for the new symbols that satisfy
all seeds; all stored rules hold there since conclusions do, and the meaning of the input predicates is as before. -/
namespace GuardedSaturation

universe u

/-- No predicate of the inputs has a name that is reserved for auxiliary predicates. -/
def Dependency.Clear (ds : List Dependency) : Prop := ∀ d ∈ ds, ∀ a ∈ d.atoms, ¬ Reserved "aux#" a.predicate

instance {ds : List Dependency} : Decidable (Dependency.Clear ds) :=
  inferInstanceAs (Decidable (∀ d ∈ ds, ∀ a ∈ d.atoms, ¬ Reserved "aux#" a.predicate))

namespace Structure
open Skolemizer
variable {M : Structure.{u}} {algorithm : Algorithm} {config : Config} {ds : List Dependency}

theorem mem_expand_selecting (selecting : algorithm ≠ .existential) {z : Skolemizer} {s t : Tgd} {ts : List Tgd} :
    t ∈ Seeds.expand algorithm z (s :: ts) ↔ (∃ p ∈ (z.answer .frontierProjected s.canonical).1, p.canonical = t) ∨
      t ∈ Seeds.expand algorithm (z.answer .frontierProjected s.canonical).2 ts := by
  cases algorithm with
  | existential => contradiction
  | skolem | orderedSkolem => simp [Seeds.expand, Algorithm.seedsOf, answer]

/-- What a selecting run asks of its Skolemizer. -/
def projections (ts : List Tgd) : List (Manner × Tgd) := ts.map (fun t => (.frontierProjected, t.canonical))

theorem mem_expand_iff (selecting : algorithm ≠ .existential) {z : Skolemizer} {t : Tgd} {ts : List Tgd} :
    t ∈ Seeds.expand algorithm z ts ↔ ∃ r ∈ z.session (projections ts), ∃ p ∈ r.parts, p.canonical = t := by
  induction ts generalizing z with
  | nil => simp [Seeds.expand, projections, session]
  | cons s ts ih =>
    rw [mem_expand_selecting selecting, ih]
    simp only [projections, List.map_cons, session, List.mem_cons, exists_eq_or_imp]

theorem forall_expand_iff (selecting : algorithm ≠ .existential) {z : Skolemizer} {ts : List Tgd} :
    (∀ t ∈ Seeds.expand algorithm z ts, M.Models t) ↔ ∀ r ∈ z.session (projections ts), ∀ p ∈ r.parts, M.Models p := by
  simp only [mem_expand_iff selecting]
  constructor
  · exact fun models r member p part => models_canonical.mp (models _ ⟨r, member, p, part, rfl⟩)
  · rintro models _ ⟨r, member, p, part, rfl⟩
    exact models_canonical.mpr (models r member p part)

/-- The rules are projected one after the other in a session. -/
theorem exists_seeded (selecting : algorithm ≠ .existential) (z : Skolemizer) {ts : List Tgd}
    (free : ∀ t ∈ ts, t.isFunctionFree = true) (clear : ∀ t ∈ ts, t.Uses (fun _ => False) (¬ Reserved "aux#" ·))
    (models : ∀ t ∈ ts, M.Models t) :
    ∃ app holds, M.Expands z.NewFunction z.NewPredicate app holds ∧
      ∀ t ∈ Seeds.expand algorithm z ts, (M.expanded app holds).Models t := by
  obtain ⟨app, holds, expands, returned⟩ := exists_session z (projections ts)
    (List.forall_mem_map.mpr (fun t member => Tgd.isFunctionFree_canonical (free t member)))
    (List.forall_mem_map.mpr (fun t member a inside => ((clear t member).rename a inside).1))
    (List.forall_mem_map.mpr (fun t member => models_canonical.mpr (models t member)))
  exact ⟨app, holds, expands, (forall_expand_iff selecting).mpr returned⟩

theorem models_of_seeded (selecting : algorithm ≠ .existential) {z : Skolemizer} {ts : List Tgd}
    (models : ∀ t ∈ Seeds.expand algorithm z ts, M.Models t) : ∀ t ∈ ts, M.Models t := by
  have given := models_of_session ((forall_expand_iff selecting).mp models)
  exact fun t member => models_canonical.mp (given _ (List.mem_map_of_mem member))

theorem modelsInputs_iff_accepted : M.ModelsInputs ds ↔ ∀ t ∈ Seeds.accepted ds, M.Models t := by
  simp only [Seeds.mem_accepted]
  constructor
  · rintro inputs t ⟨d, member, some, guarded, rfl⟩
    exact inputs d member some guarded
  · intro accepted d member some guarded
    exact accepted _ ⟨d, member, some, guarded, rfl⟩

/-- A structure of the inputs satisfies the seeds under some meaning of the new symbols. -/
theorem ModelsInputs.exists_seeds (selecting : config.algorithm ≠ .existential) (checked : Dependency.checkAll ds = .ok ())
    (clear : Dependency.Clear ds) (inputs : M.ModelsInputs ds) :
    ∃ app holds, M.Expands (Reserved "sk#") (Reserved "aux#") app holds ∧
      ∀ t ∈ Seeds.ofInputs config ds, (M.expanded app holds).Models t := by
  have origin {t : Tgd} (member : t ∈ Seeds.accepted ds) :
      t.isFunctionFree = true ∧ t.Uses (fun _ => False) (¬ Reserved "aux#" ·) := by
    obtain ⟨d, inside, -, -, rfl⟩ := Seeds.mem_accepted.mp member
    have free := Dependency.isFunctionFree_toTgd checked inside
    refine ⟨free, Tgd.uses_of_free free (fun a present => clear d inside a ?_)⟩
    exact List.mem_append.mpr (present.imp SortedSet.mem_ofList.mp SortedSet.mem_ofList.mp)
  obtain ⟨app, holds, expands, seeds⟩ := exists_seeded selecting {} (fun t member => (origin member).1)
    (fun t member => (origin member).2) (modelsInputs_iff_accepted.mp inputs)
  refine ⟨app, holds, expands.mono (fun _ new => new.reserved) (fun _ new => new.reserved), fun t member => ?_⟩
  exact seeds t (Seeds.mem_ofInputs.mp member)

/-- What full rules derive holds wherever they and the given facts hold. -/
theorem satisfies_of_datalog {rules : List Tgd} {D : AtomSet} {F : Atom} (full : ∀ t ∈ rules, t.isFull = true)
    (models : ∀ t ∈ rules, M.Models t) (given : ∀ a ∈ D, ∀ v, M.Satisfies v a) (derives : Datalog rules D F)
    (v : M.Assignment) : M.Satisfies v F := by
  induction derives with
  | given member => exact given _ member v
  | rule c member body head ih =>
    refine satisfies_subst.mpr ((models _ member).of_full (full _ member) (fun a inside => ?_) _ head)
    exact satisfies_subst.mp (ih a inside)

end Structure

namespace State
variable {M : Structure.{u}} {config : Config} {ds : List Dependency} {m : State}

/-- The property of rules of a selecting run that they have the right shape and hold. -/
theorem closed_models (selecting : config.algorithm ≠ .existential) :
    Closed config (fun t => config.algorithm.Shape t ∧ M.Models t) := by
  refine ⟨fun _ good => good.1, fun t rest good left => ?_, fun l r c _ built leftPart rightPart first second member => ?_⟩
  · exact ⟨good.1.trimmed left, Structure.models_trimmed.mpr good.2 rest left⟩
  · exact ⟨Algorithm.Shape.conclusion built leftPart rightPart first.1 second.1 member,
      Structure.models_conclusion selecting first.1 second.1 first.2 second.2 member⟩

theorem Between.modelsStored (selecting : config.algorithm ≠ .existential) (checked : Dependency.checkAll ds = .ok ())
    (between : Between config ds m) (seeds : ∀ t ∈ Seeds.ofInputs config ds, M.Models t) : M.ModelsStored m := by
  have runs : Runs config ds (fun t => config.algorithm.Shape t ∧ M.Models t) :=
    ⟨closed_models selecting, fun t member => ⟨Algorithm.shape_of_seed checked member, seeds t member⟩⟩
  intro _ id r _ found
  exact ((between.consistent runs).rules id r found).2.2

theorem Within.modelsInputs_of_selecting (selecting : config.algorithm ≠ .existential)
    (checked : Dependency.checkAll ds = .ok ()) (within : Within config ds m) (stored : M.ModelsStored m) :
    M.ModelsInputs ds := by
  have runs := runs_shape config checked
  apply Structure.modelsInputs_iff_accepted.mpr
  apply Structure.models_of_seeded selecting (z := {})
  intro t seed
  apply Structure.models_trimmed.mp
  intro rest left
  obtain ⟨id, r, found, rfl⟩ := within.seed runs (Seeds.mem_ofInputs.mpr seed) rest left
  obtain ⟨j, q, member, known, subsumes⟩ := (within.consistent runs).covered id r found
  have shape := ((within.consistent runs).rules j q known).2
  rw [Algorithm.shape_of_selecting selecting] at shape
  exact (stored _ j q member known).of_subsumes_full shape.full subsumes

theorem Between.satisfies (checked : Dependency.checkAll ds = .ok ()) (between : Between config ds m) {D : AtomSet} {F : Atom}
    (stored : M.ModelsStored m) (given : ∀ a ∈ D, ∀ v, M.Satisfies v a) (derives : Datalog (m.fullRules config) D F)
    (v : M.Assignment) : M.Satisfies v F := by
  have consistent := between.consistent (runs_shape config checked)
  refine Structure.satisfies_of_datalog (fun t member => (consistent.answered (fun _ shape => shape) member).1)
    (fun t member => ?_) given derives v
  obtain ⟨id, r, present, found, -, rfl⟩ := mem_fullRules.mp member
  exact stored .right id r present found

/-- About predicates that are not auxiliary, what the full rules derive the inputs entail. -/
theorem Between.entails (selecting : config.algorithm ≠ .existential) (checked : Dependency.checkAll ds = .ok ())
    (clear : Dependency.Clear ds) (between : Between config ds m) {D : AtomSet} {F : Atom} (ground : ∀ a ∈ D, a.IsGround)
    (known : ∀ a ∈ D, ¬ Reserved "aux#" a.predicate) (knownF : ¬ Reserved "aux#" F.predicate)
    (derives : Datalog (m.fullRules config) D F) : Entails ds D F := by
  intro M inputs given v
  obtain ⟨app, holds, expands, seeds⟩ := inputs.exists_seeds selecting checked clear
  have same {a : Atom} (ground : a.IsGround) (known : ¬ Reserved "aux#" a.predicate) (v : M.Assignment) :
      (M.expanded app holds).Satisfies v a ↔ M.Satisfies v a := by
    refine expands.satisfies known (fun s inside f mentioned => ?_)
    obtain ⟨c, rfl⟩ := ground s inside
    simp [Term.symbols] at mentioned
  have groundF : F.IsGround := derives.isGround (fun t member =>
    ((between.consistent (runs_shape config checked)).answered (fun _ shape => shape) member).2.1) ground
  apply (same groundF knownF v).mp
  exact between.satisfies checked (between.modelsStored selecting checked seeds)
    (fun a member v => (same (ground a member) (known a member) v).mpr (given a member v)) derives v

end State

/-- At every point of a selecting run, a structure of the inputs satisfies all stored rules under one meaning of the
new functions and auxiliary predicates; after the seeds, structures of the stored rules are structures of the inputs.
So the full rules derive from facts over constants about other predicates only such facts as the inputs entail. -/
theorem modelsStored_of_selecting (config : Config) (ds : List Dependency) (selecting : config.algorithm ≠ .existential)
    (checked : Dependency.checkAll ds = .ok ()) (clear : Dependency.Clear ds) :
    (∀ M : Structure.{u}, M.ModelsInputs ds → ∃ app holds, M.Expands (Reserved "sk#") (Reserved "aux#") app holds ∧
      ∀ m, State.Between config ds m → (M.expanded app holds).ModelsStored m) ∧
    (∀ m, State.Within config ds m → ∀ M : Structure.{u}, M.ModelsStored m → M.ModelsInputs ds) ∧
    (∀ m, State.Between config ds m → ∀ (D : AtomSet) (F : Atom), (∀ a ∈ D, a.IsGround) →
      (∀ a ∈ D, ¬ Reserved "aux#" a.predicate) → ¬ Reserved "aux#" F.predicate →
      Datalog (m.fullRules config) D F → Entails ds D F) ∧
    State.Within config ds (State.final config ds).2 ∧
    ∃ result, saturate config ds = .ok result ∧ result.fullRules = (State.final config ds).2.fullRules config := by
  refine ⟨fun M inputs => ?_, fun m within M => within.modelsInputs_of_selecting selecting checked,
    fun m between D F ground known knownF => between.entails selecting checked clear ground known knownF,
    .turn (State.final_reached config ds), _, saturate_of_checked config checked, rfl⟩
  obtain ⟨app, holds, expands, seeds⟩ := inputs.exists_seeds selecting checked clear
  exact ⟨app, holds, expands, fun m between => between.modelsStored selecting checked seeds⟩

/-- Of two dependencies that join, the structures extend to structures of the rules stored; and the full rules derive
`r(a)` from `p(a)`, so the dependencies entail it. -/
theorem entails_chained_selecting :
    ∃ result, Config.algorithm { algorithm := .skolem } ≠ .existential ∧
      Dependency.checkAll Dependency.chained = .ok () ∧ Dependency.Clear Dependency.chained ∧
      saturate { algorithm := .skolem } Dependency.chained = .ok result ∧
      (∀ M : Structure.{u}, M.ModelsInputs Dependency.chained → ∃ app holds,
        M.Expands (Reserved "sk#") (Reserved "aux#") app holds ∧
        (M.expanded app holds).ModelsStored (State.final { algorithm := .skolem } Dependency.chained).2) ∧
      (∀ M : Structure.{u}, M.ModelsStored (State.final { algorithm := .skolem } Dependency.chained).2 →
        M.ModelsInputs Dependency.chained) ∧
      Datalog result.fullRules (.singleton ⟨"p", [.const "a"]⟩) ⟨"r", [.const "a"]⟩ ∧
      Entails Dependency.chained (.singleton ⟨"p", [.const "a"]⟩) ⟨"r", [.const "a"]⟩ := by
  have clear : Dependency.Clear Dependency.chained := by decide +kernel
  obtain ⟨expands, follows, sound, final, result, ok, rules⟩ :=
    modelsStored_of_selecting { algorithm := .skolem } Dependency.chained (by decide) checkAll_chained clear
  have answered : .ofLists [⟨"p", [.var "u0"]⟩] [⟨"r", [.var "u0"]⟩] ∈
      (State.final { algorithm := .skolem } Dependency.chained).2.fullRules { algorithm := .skolem } := by decide +kernel
  have derives : Datalog result.fullRules (.singleton ⟨"p", [.const "a"]⟩) ⟨"r", [.const "a"]⟩ := by
    refine .rule (h := ⟨"r", [.var "u0"]⟩) (fun _ => "a") (rules ▸ answered) (fun a member => ?_) (by decide +kernel)
    obtain rfl : a = ⟨"p", [.var "u0"]⟩ := by simpa [Tgd.ofLists] using member
    exact .given (by decide +kernel)
  refine ⟨result, by decide, checkAll_chained, clear, ok, fun M inputs => ?_, follows _ final, derives,
    sound _ (.within final) _ _ (fun a member => ?_) (fun a member => ?_) (by decide +kernel) (rules ▸ derives)⟩
  · obtain ⟨app, holds, expands, stored⟩ := expands M inputs
    exact ⟨app, holds, expands, stored _ (.within final)⟩
  · rw [SortedSet.mem_singleton.mp member]
    simp [Atom.IsGround]
  · rw [SortedSet.mem_singleton.mp member]
    decide +kernel

end GuardedSaturation
