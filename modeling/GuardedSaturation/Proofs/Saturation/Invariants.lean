import Mathlib
import GuardedSaturation.Proofs.Saturation.Runs

/-! Invariants of runs. A property of states that is kept when rules are taken up, stored and taken off the queue
holds at all points of a run, between any two admissions. -/
namespace GuardedSaturation.State

variable {config : Config} {ds : List Dependency} {P : Tgd → Prop} {I : State → Prop} {s m : State} {t : Tgd}

/-- Each single change that a run makes to a state keeps the property. A rule is stored only if it is new, and
if no stored rule subsumes it. -/
structure Invariant (config : Config) (P : Tgd → Prop) (I : State → Prop) : Prop where
  counted : ∀ s f, (∀ n : Stats, (f n).pops = n.pops ∧ (f n).unguardedResolvents = n.unguardedResolvents) →
    I s → I (s.count f)
  popped : ∀ s id queue, s.queue = id :: queue → I s → I (s.popped queue)
  taken : ∀ s r o, Consistent config P s → I s → I (s.taken r o)
  stored : ∀ s r o, Pending config P (s.taken r o) s.catalog.size r →
    (s.collection (config.algorithm.part r)).stored.isSubsumed (s.taken r o).catalog r.tgd = false →
    I s → I (s.taken r o) → I ((s.taken r o).stored config s.catalog.size r)

namespace Invariant

theorem enter (invariant : Invariant config P I) (closed : Closed config P) (consistent : Consistent config P s)
    (good : P t) (holds : I s) : I (s.enter config t) := by
  obtain ⟨id, -, result⟩ | ⟨r, o, o', new, -, -, rfl, built, result⟩ := enter_cases closed good s
  · rw [result]
    exact invariant.counted s _ (fun _ => ⟨rfl, rfl⟩) holds
  · have taken := invariant.taken s r o' consistent holds
    rw [result, settle_eq]
    split
    · exact invariant.counted _ _ (fun _ => ⟨rfl, rfl⟩) taken
    · next unsubsumed =>
      rw [collection_taken, Bool.not_eq_true] at unsubsumed
      exact invariant.stored s r o' (consistent.pending built good new o') unsubsumed holds taken

theorem accept (invariant : Invariant config P I) (closed : Closed config P) (consistent : Consistent config P s)
    (good : P t) (holds : I s) : I (s.accept config t) := by
  have tallied : I (s.tallied config t) := by
    unfold State.tallied
    split
    · exact invariant.counted s _ (fun _ => ⟨rfl, rfl⟩) holds
    · exact holds
  have consistent : Consistent config P (s.tallied config t) := by
    obtain ⟨f, same⟩ := tallied_cases config s t
    rw [same]
    exact consistent.count f
  rw [accept_eq]
  cases left : t.trimmed config.discardTautologies with
  | none => exact tallied
  | some rest => exact invariant.enter closed consistent (closed.trimmed t rest good left) tallied

theorem acceptAll (invariant : Invariant config P I) (closed : Closed config P) {ts : List Tgd}
    (consistent : Consistent config P s) (good : ∀ t ∈ ts, P t) (holds : I s) : I (s.acceptAll config ts) := by
  induction ts generalizing s with
  | nil => exact holds
  | cons t ts ih =>
    obtain ⟨here, later⟩ := List.forall_mem_cons.mp good
    exact ih (consistent.accept closed here).1 later (invariant.accept closed consistent here holds)

theorem join (invariant : Invariant config P I) (closed : Closed config P) (consistent : Consistent config P s)
    (id partner : RuleId) (holds : I s) : I (s.join config id partner) := by
  cases found : s.catalog.get? id with
  | none => rwa [join_of_unknown (.inl found)]
  | some r =>
    cases found' : s.catalog.get? partner with
    | none => rwa [join_of_unknown (.inr found')]
    | some mate =>
      by_cases meet : Meet config s r id partner
      · rw [(join_eq config found found').1 meet]
        apply invariant.acceptAll closed (consistent.count _) (consistent.drawn closed found found' meet)
        exact invariant.counted s _ (fun _ => ⟨rfl, rfl⟩) holds
      · rwa [(join_eq config found found').2 meet]

theorem joinAll (invariant : Invariant config P I) (closed : Closed config P) (consistent : Consistent config P s)
    (id : RuleId) (partners : List RuleId) (holds : I s) : I (partners.foldl (State.join config id) s) := by
  induction partners generalizing s with
  | nil => exact holds
  | cons partner partners ih =>
    exact ih (consistent.join closed id partner).1 (invariant.join closed consistent id partner holds)

theorem process (invariant : Invariant config P I) (closed : Closed config P) (consistent : Consistent config P s)
    (id : RuleId) (holds : I s) : I (s.process config id) := by
  obtain ⟨same, -⟩ | ⟨r, -, -, result⟩ := process_cases config s id
  · rwa [same]
  · rw [result]
    exact invariant.joinAll closed consistent id _ holds

theorem reached (invariant : Invariant config P I) (runs : Runs config ds P) (start : I (opening config ds))
    (reached : Reached config ds s) : I s := by
  induction reached with
  | initial => exact invariant.acceptAll runs.closed (consistent_opening config ds) runs.seeds start
  | turn reached next ih =>
    obtain ⟨id, queue, order, -, -, rfl⟩ := step_eq_ok next
    exact invariant.process runs.closed ((reached.consistent runs).popped queue) id (invariant.popped _ id queue order ih)

theorem within (invariant : Invariant config P I) (runs : Runs config ds P) (start : I (opening config ds))
    (within : Within config ds m) : I m := by
  have taking {s p : State} {id : RuleId} {r : Rule} (reached : Reached config ds s) (takes : Takes config s id r p) :
      Consistent config P p ∧ p.catalog.get? id = some r ∧ I p := by
    obtain ⟨queue, order, rfl⟩ := takes.queue
    have holds := invariant.reached runs start reached
    exact ⟨(reached.consistent runs).popped queue, takes.found, invariant.popped _ id queue order holds⟩
  cases within with
  | turn reached => exact invariant.reached runs start reached
  | joining reached takes passes =>
    obtain ⟨consistent, -, holds⟩ := taking reached takes
    obtain ⟨before, after, -, rfl⟩ := passes
    exact invariant.joinAll runs.closed consistent _ before holds
  | @drawing _ _ _ _ id _ _ _ partners _ reached takes order joined found meet passes =>
    obtain ⟨consistent, known, holds⟩ := taking reached takes
    obtain ⟨before, after, split, rfl⟩ := passes
    obtain ⟨consistent', grows⟩ := consistent.joinAll runs.closed id partners
    have holds := invariant.joinAll runs.closed consistent id partners holds
    rw [joined] at consistent' grows holds
    have drawn := consistent'.drawn runs.closed (grows.catalog _ _ known) found meet
    rw [split] at drawn
    apply invariant.acceptAll runs.closed (consistent'.count _)
    · exact fun t member => drawn t (List.mem_append_left _ member)
    · exact invariant.counted _ _ (fun _ => ⟨rfl, rfl⟩) holds

theorem between (invariant : Invariant config P I) (runs : Runs config ds P) (start : I (opening config ds))
    (between : Between config ds m) : I m := by
  cases between with
  | seeding passes =>
    obtain ⟨before, after, split, rfl⟩ := passes
    have seeds := runs.seeds
    rw [split] at seeds
    apply invariant.acceptAll runs.closed (consistent_opening config ds) ?_ start
    exact fun t member => seeds t (List.mem_append_left _ member)
  | within within => exact invariant.within runs start within

end Invariant

end GuardedSaturation.State
