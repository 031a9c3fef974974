import Mathlib
import GuardedSaturation.Proofs.Herbrand
import GuardedSaturation.Proofs.Saturation.Soundness

/-! Completed runs of all algorithms answer alike. The stored rules of a selecting run are closed under resolution, so the
facts made by the rules on the left satisfy all of them, and with them the inputs; among these facts those over
constants are what the full rules derive. -/
namespace GuardedSaturation

namespace Herbrand
variable {algorithm : Algorithm} {L R : Rule → Prop} {rules : List Tgd} {D : AtomSet}
  (selecting : algorithm ≠ .existential) (saturated : algorithm.Saturated L R)
  (free : ∀ t ∈ rules, t.isFunctionFree = true) (ground : ∀ a ∈ D, a.IsGround)
  (listed : ∀ r, R r → r.tgd.isFunctionFree = true → r.tgd ∈ rules)

theorem models_left {l : Rule} (left : L l) : (model L rules D).Models l.tgd :=
  Structure.models_of_full (fun _ body _ head =>
    satisfies_iff.mpr (.of_left left (fun a member => satisfies_iff.mp (body a member)) head))

include selecting saturated free ground listed in
theorem models_right {r : Rule} (right : R r) : (model L rules D).Models r.tgd :=
  Structure.models_of_full (fun _ body _ head => satisfies_iff.mpr
    (holds_of_right selecting saturated free ground listed right (fun a member => satisfies_iff.mp (body a member)) head))

end Herbrand

namespace State
variable {config config' : Config} {ds : List Dependency} {s s' : State} {D : AtomSet} {F : Atom}

def Contains (s : State) (p : Part) (r : Rule) : Prop := ∃ id, id ∈ s.members p ∧ s.catalog.get? id = some r

theorem Completes.saturated_of_selecting (selecting : config.algorithm ≠ .existential)
    (checked : Dependency.checkAll ds = .ok ()) (completes : Completes config ds s) :
    config.algorithm.Saturated (s.Contains .left) (s.Contains .right) := by
  have runs := runs_shape config checked
  have consistent := completes.reached.consistent runs
  refine ⟨?_, ?_, ?_⟩
  · rintro l ⟨id, member, found⟩
    exact ⟨(consistent.rules id l found).2, consistent.parts .left id l member found⟩
  · rintro r ⟨id, member, found⟩
    obtain ⟨built, shape⟩ := consistent.rules id r found
    exact ⟨built, shape, consistent.parts .right id r member found⟩
  · rintro l r ⟨i, member, found⟩ ⟨j, member', found'⟩ c drawn
    have shape := Algorithm.Shape.conclusion (consistent.rules j r found').1 (consistent.parts .left i l member found)
      (consistent.parts .right j r member' found') (consistent.rules i l found).2 (consistent.rules j r found').2 drawn
    rw [Algorithm.shape_of_selecting selecting] at shape
    -- A rule stored at the end subsumes what is left of the conclusion, also if that itself was removed again.
    cases left : c.trimmed config.discardTautologies with
    | none => exact .inl (Tgd.trimmed_eq_none left)
    | some rest =>
      obtain ⟨id, q, known, same⟩ := completes.concluded runs member member' found found' c drawn rest left
      obtain ⟨k, q', stored, known', subsumes⟩ := consistent.covered id q known
      rw [same, shape.trimmed_eq left] at subsumes
      refine .inr ⟨q', ?_, subsumes⟩
      cases part : config.algorithm.partOf q.tgd <;> rw [part] at stored
      · exact .inl ⟨k, stored, known'⟩
      · exact .inr ⟨k, stored, known'⟩

theorem Completes.derives_of_selecting (selecting : config.algorithm ≠ .existential)
    (checked : Dependency.checkAll ds = .ok ()) (completes : Completes config ds s) (ground : ∀ a ∈ D, a.IsGround)
    (groundF : F.IsGround) (entails : Entails ds D F) : Datalog (s.fullRules config) D F := by
  have saturated := completes.saturated_of_selecting selecting checked
  have free (t : Tgd) (member : t ∈ s.fullRules config) : t.isFunctionFree = true :=
    ((completes.reached.consistent (runs_shape config checked)).answered (fun _ shape => shape) member).2.1
  have listed (r : Rule) (right : s.Contains .right r) (plain : r.tgd.isFunctionFree = true) : r.tgd ∈ s.fullRules config := by
    obtain ⟨id, member, found⟩ := right
    refine mem_fullRules.mpr ⟨id, r, member, found, ?_, rfl⟩
    cases kind : config.algorithm with
    | existential => contradiction
    | skolem | orderedSkolem => exact plain
  have stored : (Herbrand.model (s.Contains .left) (s.fullRules config) D).ModelsStored s := by
    intro p id r member found
    cases p with
    | left => exact Herbrand.models_left ⟨id, member, found⟩
    | right => exact Herbrand.models_right selecting saturated free ground listed ⟨id, member, found⟩
  have inputs := (Within.turn completes.reached).modelsInputs_of_selecting selecting checked stored
  have given (a : Atom) (member : a ∈ D) (v : Variable → Term) :
      (Herbrand.model (s.Contains .left) (s.fullRules config) D).Satisfies v a := by
    refine Herbrand.satisfies_iff.mpr ⟨0, .basic ?_⟩
    rw [Chase.subst_of_ground (ground a member)]
    exact .given member
  have holds := Herbrand.satisfies_iff.mp (entails _ inputs given Term.var)
  rw [Atom.subst_self] at holds
  exact holds.datalog selecting saturated groundF

theorem Completes.datalog_iff_of_existential (existential : config.algorithm = .existential)
    (checked : Dependency.checkAll ds = .ok ()) (completes : Completes config ds s) (ground : ∀ a ∈ D, a.IsGround)
    (groundF : F.IsGround) : Datalog (s.fullRules config) D F ↔ Entails ds D F := by
  have within := Within.turn completes.reached
  refine ⟨fun derives M inputs given => ?_, completes.datalog existential checked ground groundF⟩
  exact (Between.within within).satisfies checked (within.modelsStored existential checked inputs) given derives

/-- A completed run of any algorithm derives from facts over constants, about predicates that are not auxiliary, those
that the inputs entail. -/
theorem Completes.datalog_iff (checked : Dependency.checkAll ds = .ok ()) (clear : Dependency.Clear ds)
    (completes : Completes config ds s) (ground : ∀ a ∈ D, a.IsGround) (groundF : F.IsGround)
    (known : ∀ a ∈ D, ¬ Reserved "aux#" a.predicate) (knownF : ¬ Reserved "aux#" F.predicate) :
    Datalog (s.fullRules config) D F ↔ Entails ds D F := by
  by_cases existential : config.algorithm = .existential
  · exact completes.datalog_iff_of_existential existential checked ground groundF
  · exact ⟨(Between.within (Within.turn completes.reached)).entails existential checked clear ground known knownF,
      completes.derives_of_selecting existential checked ground groundF⟩

end State

/-- When a selecting run has completed, its full rules derive every fact over constants that the inputs entail from
given facts over constants. So the completed runs of all algorithms derive the same facts, auxiliary predicates apart. -/
theorem datalog_of_selecting (config : Config) (ds : List Dependency) (selecting : config.algorithm ≠ .existential)
    (checked : Dependency.checkAll ds = .ok ()) (D : AtomSet) (F : Atom) (ground : ∀ a ∈ D, a.IsGround)
    (groundF : F.IsGround) :
    (∀ s, State.Completes config ds s → Entails ds D F → Datalog (s.fullRules config) D F) ∧
    ∀ result, saturate config ds = .ok result → result.outcome = .completed →
      (Entails ds D F → Datalog result.fullRules D F) ∧
      (Dependency.Clear ds → (∀ a ∈ D, ¬ Reserved "aux#" a.predicate) → ¬ Reserved "aux#" F.predicate →
        ∀ config' result', saturate config' ds = .ok result' → result'.outcome = .completed →
          (Datalog result.fullRules D F ↔ Datalog result'.fullRules D F)) := by
  refine ⟨fun s completes => completes.derives_of_selecting selecting checked ground groundF, fun result ok completed => ⟨?_, ?_⟩⟩
  · have completes := completes_final ok completed
    obtain ⟨-, rfl⟩ := saturate_eq_ok ok
    exact completes.derives_of_selecting selecting checked ground groundF
  · intro clear known knownF config' result' ok' completed'
    have answers {config : Config} {result : Saturation} (ok : saturate config ds = .ok result)
        (completed : result.outcome = .completed) : Datalog result.fullRules D F ↔ Entails ds D F := by
      have completes := completes_final ok completed
      obtain ⟨-, rfl⟩ := saturate_eq_ok ok
      exact completes.datalog_iff checked clear ground groundF known knownF
    rw [answers ok completed, answers ok' completed']

/-- From `p(a)` the ordered run derives `r(a)`, by way of a value that a function takes, and so does the existential one. -/
theorem datalog_chained_ordered :
    ∃ result result', Config.orderedSkolem.algorithm ≠ .existential ∧ Dependency.checkAll Dependency.chained = .ok () ∧
      (∀ a ∈ SortedSet.singleton (Atom.mk "p" [.const "a"]), a.IsGround) ∧ (Atom.mk "r" [.const "a"]).IsGround ∧
      Entails Dependency.chained (.singleton ⟨"p", [.const "a"]⟩) ⟨"r", [.const "a"]⟩ ∧
      saturate .orderedSkolem Dependency.chained = .ok result ∧ result.outcome = .completed ∧
      saturate {} Dependency.chained = .ok result' ∧ result'.outcome = .completed ∧
      Datalog result.fullRules (.singleton ⟨"p", [.const "a"]⟩) ⟨"r", [.const "a"]⟩ ∧
      Datalog result'.fullRules (.singleton ⟨"p", [.const "a"]⟩) ⟨"r", [.const "a"]⟩ := by
  have ground : ∀ a ∈ SortedSet.singleton (Atom.mk "p" [.const "a"]), a.IsGround := by
    intro a member
    rw [SortedSet.mem_singleton.mp member]
    simp [Atom.IsGround]
  have groundF : (Atom.mk "r" [.const "a"]).IsGround := by simp [Atom.IsGround]
  have ok := saturate_of_checked .orderedSkolem checkAll_chained
  have ok' := saturate_of_checked {} checkAll_chained
  have completed : (State.final .orderedSkolem Dependency.chained).1.getD .popLimitReached = .completed := by decide +kernel
  have known : ∀ a ∈ SortedSet.singleton (Atom.mk "p" [.const "a"]), ¬ Reserved "aux#" a.predicate := by
    intro a member
    rw [SortedSet.mem_singleton.mp member]
    decide +kernel
  obtain ⟨-, answers⟩ :=
    datalog_of_selecting .orderedSkolem Dependency.chained (by decide) checkAll_chained _ _ ground groundF
  obtain ⟨derives, agrees⟩ := answers _ ok completed
  have derived := derives entails_chained
  exact ⟨_, _, by decide, checkAll_chained, ground, groundF, entails_chained, ok, completed, ok', completed_chained, derived,
    (agrees (by decide +kernel) known (by decide +kernel) _ _ ok' completed_chained).mp derived⟩

end GuardedSaturation
