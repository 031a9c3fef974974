import Mathlib
import GuardedSaturation.Proofs.NormalForms.Idempotence
import GuardedSaturation.Proofs.Saturation.Invariants
import GuardedSaturation.Proofs.Saturation.Meaning

/-! What a run answers, at whatever point it ends. Of the stored rules of one part none subsumes another: a new rule
is stored only if no stored one subsumes it, and removes those that it subsumes. All rules are in normal form. -/
namespace GuardedSaturation

/-- The property of rules that they have the right shape and are in normal form. -/
def Normal (config : Config) (t : Tgd) : Prop := config.algorithm.Shape t ∧ t.canonical = t

theorem Tgd.canonical_trimmed {discard : Bool} {t rest : Tgd} (normal : t.canonical = t)
    (left : t.trimmed discard = some rest) : rest.canonical = rest := by
  obtain rfl | ⟨less, -, rfl⟩ := trimmed_cases left
  · exact normal
  · exact canonical_canonical less

theorem Algorithm.Draws.canonical {algorithm : Algorithm} {l r : Rule} {c : Tgd} (draws : algorithm.Draws l r c) :
    c.canonical = c := by
  cases draws <;> exact Tgd.canonical_canonical _

theorem runs_normal (config : Config) {ds : List Dependency} (checked : Dependency.checkAll ds = .ok ()) :
    State.Runs config ds (Normal config) := by
  refine ⟨⟨fun _ normal => normal.1, fun t rest normal left => ?_, fun l r c _ right leftPart rightPart first second member => ?_⟩,
    fun t member => ⟨Algorithm.shape_of_seed checked member, ?_⟩⟩
  · exact ⟨normal.1.trimmed left, Tgd.canonical_trimmed normal.2 left⟩
  · exact ⟨Algorithm.Shape.conclusion right leftPart rightPart first.1 second.1 member,
      (Algorithm.draws_of_mem right leftPart rightPart first.1 second.1 member).canonical⟩
  · obtain ⟨p, rfl⟩ := Seeds.exists_canonical member
    exact Tgd.canonical_canonical p

namespace State
variable {config : Config} {ds : List Dependency} {P : Tgd → Prop} {s m : State}

/-- No stored rule subsumes another one of its part. -/
def Minimal (s : State) : Prop :=
  ∀ p i j r q, i ∈ s.members p → j ∈ s.members p → s.catalog.get? i = some r → s.catalog.get? j = some q →
    r.tgd.subsumes q.tgd = true → i = j

theorem minimal_opening (config : Config) (ds : List Dependency) : (opening config ds).Minimal := by
  intro p i j r q member
  simp [members_opening] at member

theorem Minimal.taken (minimal : s.Minimal) (consistent : Consistent config P s) (r : Rule) (o : AtomOrder) :
    (s.taken r o).Minimal := by
  have longer : (s.taken r o).catalog.Extends s.catalog := Catalog.extends_push
  have known {p : Part} {j : RuleId} {q : Rule} (member : j ∈ s.members p)
      (found : (s.taken r o).catalog.get? j = some q) : s.catalog.get? j = some q := by
    obtain ⟨q', found'⟩ := (consistent.exact p).known j member
    rw [longer j q' found'] at found
    exact found ▸ found'
  intro p i j q q' first second found found'
  rw [members, collection_taken] at first second
  exact minimal p i j q q' first second (known first found) (known second found')

theorem minimal (config : Config) (P : Tgd → Prop) : Invariant config P Minimal := by
  refine ⟨fun s f _ minimal => ?_, fun s id queue _ minimal => ?_, fun s r o consistent minimal => minimal.taken consistent r o,
    fun s r o pending unsubsumed _ minimal => ?_⟩
  · simp only [Minimal, members, collection_count]
    exact minimal
  · simp only [Minimal, members_popped]
    exact minimal
  · obtain ⟨-, mem⟩ := pending.exact_stored
    intro p i j q q' first second found found' subsumes
    rw [catalog_stored] at found found'
    rw [mem] at first second
    split at first
    · next here =>
      rw [if_pos here] at second
      -- The new rule subsumes none of the rules that are left, and none of them subsumes it.
      obtain rfl | ⟨old, -⟩ := first
      · obtain rfl | ⟨-, kept⟩ := second
        · rfl
        · rw [pending.found, Option.some.injEq] at found
          rw [← found, kept q' found'] at subsumes
          cases subsumes
      · obtain rfl | ⟨old', -⟩ := second
        · rw [pending.found, Option.some.injEq] at found'
          rw [← collection_taken r o] at unsubsumed
          have held := Collection.holdings_eq_some.mpr ⟨here ▸ old, q, found, rfl⟩
          have := (Subsumer.isSubsumed_iff (pending.exact _).stored (Collection.cataloged _ _)).mpr ⟨i, q.tgd, held, found' ▸ subsumes⟩
          rw [unsubsumed] at this
          cases this
        · exact minimal p i j q q' old old' found found' subsumes
    · next elsewhere =>
      rw [if_neg elsewhere] at second
      exact minimal p i j q q' first second found found' subsumes

/-- The stored rules that belong to the answer, in the order in which they were taken up. -/
def outputs (config : Config) (s : State) : List Tgd :=
  ((s.right.stored.members.toList.filterMap s.catalog.get?).filter config.algorithm.isOutput).map Rule.tgd

theorem fullRules_eq (config : Config) (s : State) : s.fullRules config = (SortedSet.ofList (s.outputs config)).toList := rfl

theorem Consistent.outputs_nodup (consistent : Consistent config P s) : (s.outputs config).Nodup := by
  have rules : (s.right.stored.members.toList.filterMap s.catalog.get?).Pairwise (fun r q => r.tgd ≠ q.tgd) := by
    apply List.pairwise_filterMap.mpr
    apply s.right.stored.members.nodup.imp
    intro i j apart r found q found' same
    exact apart (consistent.distinct i j r q found found' same)
  exact List.pairwise_map.mpr (rules.filter _)

end State

/-- Full rules that may be used as they are: guarded, without function terms, in normal form and in order, and none of
them more general than another. -/
structure WellFormed (rules : List Tgd) : Prop where
  full : ∀ t ∈ rules, t.isFull = true
  free : ∀ t ∈ rules, t.isFunctionFree = true
  guarded : ∀ t ∈ rules, t.Guarded
  normal : ∀ t ∈ rules, t.normalForm {} = t
  ascending : rules.Pairwise (fun s t => compare s t = .lt)
  minimal : ∀ s ∈ rules, ∀ t ∈ rules, s ≠ t → s.subsumes t = false

namespace State
variable {config : Config} {ds : List Dependency} {P : Tgd → Prop} {m : State}

theorem Consistent.wellFormed (consistent : Consistent config (Normal config) m) (minimal : m.Minimal) :
    WellFormed (m.fullRules config) := by
  have answered {t : Tgd} (member : t ∈ m.fullRules config) := consistent.answered (fun _ normal => normal.1) member
  refine ⟨fun t member => (answered member).1, fun t member => (answered member).2.1,
    fun t member => (answered member).2.2.1.guarded, fun t member => (answered member).2.2.2, SortedSet.ascending _,
    fun s first t second apart => ?_⟩
  obtain ⟨i, r, stored, found, -, rfl⟩ := mem_fullRules.mp first
  obtain ⟨j, q, stored', found', -, rfl⟩ := mem_fullRules.mp second
  by_contra subsumes
  have same := minimal .right i j r q stored stored' found found' (by simpa using subsumes)
  rw [same, found', Option.some.injEq] at found
  exact apart (congrArg Rule.tgd found.symm)

theorem Consistent.fullRules_perm (consistent : Consistent config P m) : (m.fullRules config).Perm (m.outputs config) := by
  have distinct : (m.fullRules config).Nodup :=
    (SortedSet.ascending (.ofList (m.outputs config))).imp (fun before same => by simp [same] at before)
  apply (List.perm_ext_iff_of_nodup distinct consistent.outputs_nodup).mpr
  intro t
  rw [fullRules_eq, SortedSet.mem_toList, SortedSet.mem_ofList]

theorem Between.minimal (runs : Runs config ds P) (between : Between config ds m) : m.Minimal :=
  (State.minimal config P).between runs (minimal_opening config ds) between

theorem Between.wellFormed (checked : Dependency.checkAll ds = .ok ()) (between : Between config ds m) :
    WellFormed (m.fullRules config) :=
  (between.consistent (runs_normal config checked)).wellFormed (between.minimal (runs_normal config checked))

end State

/-- What a run answers, however it ends, is well-formed; and between any two admissions none of the stored rules
of one part subsumes another, and those on the right would make a well-formed answer without any of them lost. -/
theorem fullRules_wellFormed (config : Config) (ds : List Dependency) (checked : Dependency.checkAll ds = .ok ()) :
    (∀ m, State.Between config ds m →
      (∀ p i j r q, i ∈ m.members p → j ∈ m.members p → m.catalog.get? i = some r → m.catalog.get? j = some q → i ≠ j →
        r.tgd ≠ q.tgd ∧ r.tgd.subsumes q.tgd = false) ∧
      WellFormed (m.fullRules config) ∧ (m.fullRules config).Perm (m.outputs config)) ∧
    ∃ s result, State.Between config ds s ∧ saturate config ds = .ok result ∧
      result.fullRules = s.fullRules config ∧ WellFormed result.fullRules := by
  have final := State.Between.within (.turn (State.final_reached config ds))
  refine ⟨fun m between => ⟨?_, between.wellFormed checked, ?_⟩,
    _, _, final, saturate_of_checked config checked, rfl, final.wellFormed checked⟩
  · have runs := runs_normal config checked
    intro p i j r q first second found found' apart
    refine ⟨fun same => apart ((between.consistent runs).distinct i j r q found found' same), ?_⟩
    by_contra subsumes
    exact apart (between.minimal runs p i j r q first second found found' (by simpa using subsumes))
  · exact (between.consistent (runs_normal config checked)).fullRules_perm

/-- Of two dependencies that join, a run that ends after one turn answers two well-formed rules. -/
theorem chained_wellFormed :
    ∃ result, Dependency.checkAll Dependency.chained = .ok () ∧
      saturate { maxPops? := some 1 } Dependency.chained = .ok result ∧ result.outcome = .popLimitReached ∧
      result.fullRules.length = 2 ∧ WellFormed result.fullRules := by
  obtain ⟨-, s, result, -, ok, -, wellFormed⟩ :=
    fullRules_wellFormed { maxPops? := some 1 } Dependency.chained checkAll_chained
  obtain ⟨-, same⟩ := saturate_eq_ok ok
  exact ⟨result, checkAll_chained, ok, by rw [same]; decide +kernel, by rw [same]; decide +kernel, wellFormed⟩

end GuardedSaturation
