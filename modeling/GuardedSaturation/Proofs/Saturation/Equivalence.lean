import Mathlib
import GuardedSaturation.Proofs.Saturation.Closure

/-! Two runs whose configurations differ in their indexes alone. Their states are alike: the
catalog, the queue and the numbers stored are the same, and so are all counts but the inferences.
The indexes answer alike where it matters, since partners that one index offers and the other
one does not have no conclusions. -/
namespace GuardedSaturation

/-- All but the index strategies and the timeout is the same. -/
structure Config.Agrees (config config' : Config) : Prop where
  algorithm : config'.algorithm = config.algorithm
  maxPops : config'.maxPops? = config.maxPops?
  shuffleSeed : config'.shuffleSeed? = config.shuffleSeed?
  discardTautologies : config'.discardTautologies = config.discardTautologies

def Stats.withoutInferences (n : Stats) : Stats := { n with inferences := 0 }

def Saturation.withoutInferences (result : Saturation) : Saturation :=
  { result with stats := result.stats.withoutInferences }

/-- A change of the counts that does not look at the inferences. -/
def Stats.Blind (f : Stats → Stats) : Prop :=
  ∀ n, (f n).withoutInferences = (f n.withoutInferences).withoutInferences

namespace State

structure Alike (s s' : State) : Prop where
  catalog : s'.catalog = s.catalog
  order : s'.order = s.order
  queue : s'.queue = s.queue
  members : ∀ p, s'.members p = s.members p
  stats : s'.stats.withoutInferences = s.stats.withoutInferences

variable {config config' : Config} {ds : List Dependency} {P : Tgd → Prop} {s s' s'' : State} {t : Tgd} {id : RuleId}
  {r mate : Rule} {p : Part}

theorem Alike.refl (s : State) : Alike s s := ⟨rfl, rfl, rfl, fun _ => rfl, rfl⟩

theorem Alike.symm (alike : Alike s s') : Alike s' s :=
  ⟨alike.catalog.symm, alike.order.symm, alike.queue.symm, fun p => (alike.members p).symm, alike.stats.symm⟩

theorem Alike.trans (first : Alike s s') (second : Alike s' s'') : Alike s s'' :=
  ⟨second.catalog.trans first.catalog, second.order.trans first.order, second.queue.trans first.queue,
    fun p => (second.members p).trans (first.members p), second.stats.trans first.stats⟩

theorem members_count (f : Stats → Stats) (p : Part) : (s.count f).members p = s.members p := by
  rw [members, collection_count]
  rfl

theorem Alike.count (alike : Alike s s') {f : Stats → Stats} (blind : Stats.Blind f) :
    Alike (s.count f) (s'.count f) := by
  refine ⟨alike.catalog, alike.order, alike.queue, fun p => ?_, ?_⟩
  · rw [members_count, members_count, alike.members]
  · change (f s'.stats).withoutInferences = (f s.stats).withoutInferences
    rw [blind, alike.stats, ← blind]

theorem Alike.holdings (alike : Alike s s') (p : Part) :
    (s'.collection p).holdings s'.catalog = (s.collection p).holdings s.catalog := by
  have same : (s'.collection p).stored.members = (s.collection p).stored.members := alike.members p
  unfold Collection.holdings
  rw [same, alike.catalog]

theorem Alike.isSubsumed (alike : Alike s s') {joinAtoms joinAtoms' : Rule → List Atom}
    (exact : (s.collection p).Exact s.catalog joinAtoms) (exact' : (s'.collection p).Exact s'.catalog joinAtoms') (t : Tgd) :
    (s'.collection p).stored.isSubsumed s'.catalog t = (s.collection p).stored.isSubsumed s.catalog t := by
  rw [Bool.eq_iff_iff, Subsumer.isSubsumed_iff exact'.stored (Collection.cataloged _ _),
    Subsumer.isSubsumed_iff exact.stored (Collection.cataloged _ _), alike.holdings]

theorem Alike.removed (alike : Alike s s') {joinAtoms joinAtoms' : Rule → List Atom}
    (exact : (s.collection p).Exact s.catalog joinAtoms) (exact' : (s'.collection p).Exact s'.catalog joinAtoms') (t : Tgd) :
    ((s'.collection p).removeSubsumed s'.catalog joinAtoms' t).1 =
      ((s.collection p).removeSubsumed s.catalog joinAtoms t).1 := by
  have same : (s'.collection p).stored.members = (s.collection p).stored.members := alike.members p
  change ((s'.collection p).stored.subsumed s'.catalog t).map Prod.fst =
    ((s.collection p).stored.subsumed s.catalog t).map Prod.fst
  rw [Subsumer.subsumed_eq exact'.stored (Collection.cataloged _ _),
    Subsumer.subsumed_eq exact.stored (Collection.cataloged _ _), same, alike.catalog]

/-- Whether a rule is stored or not depends on what is alike, and what it removes does too. -/
theorem Alike.settle (alike : Alike s s') (same : config'.algorithm = config.algorithm)
    (pending : Pending config P s id r) (pending' : Pending config' P s' id r) :
    Alike (s.settle config id r) (s'.settle config' id r) := by
  have exact := pending.exact (config.algorithm.part r)
  have exact' := pending'.exact (config.algorithm.part r)
  rw [settle_eq, settle_eq, same, alike.isSubsumed exact exact']
  split
  · exact alike.count (fun _ => rfl)
  · obtain ⟨-, mem⟩ := pending.exact_stored
    obtain ⟨-, mem'⟩ := pending'.exact_stored
    refine ⟨?_, ?_, ?_, fun p => ?_, ?_⟩
    · rw [catalog_stored, catalog_stored, alike.catalog]
    · rw [order_stored, order_stored, alike.order]
    · rw [queue_stored, queue_stored, alike.queue]
    · ext j
      rw [mem, mem', same, alike.members, alike.catalog]
    · have removed := alike.removed exact exact' r.tgd
      rw [same] at removed
      rw [stats_stored, stats_stored, same, removed]
      exact (alike.count (f := fun n => { n with removed := n.removed + _ }) (fun _ => rfl)).stats

structure Matched (config config' : Config) (s s' : State) : Prop where
  alike : Alike s s'
  left : Consistent config config.algorithm.Shape s
  right : Consistent config' config.algorithm.Shape s'

theorem Matched.count (matched : Matched config config' s s') {f : Stats → Stats} (blind : Stats.Blind f) :
    Matched config config' (s.count f) (s'.count f) :=
  ⟨matched.alike.count blind, matched.left.count f, matched.right.count f⟩

section Agrees
variable (agrees : config.Agrees config')
include agrees

theorem closed_of_agrees : Closed config' config.algorithm.Shape := agrees.algorithm ▸ closed_shape config'

theorem drawn_of_agrees (r mate : Rule) : drawn config' r mate = drawn config r mate := by
  rw [drawn, drawn, agrees.algorithm]

theorem Matched.enter (matched : Matched config config' s s') (good : config.algorithm.Shape t) :
    Matched config config' (s.enter config t) (s'.enter config' t) := by
  obtain ⟨alike, left, right⟩ := matched
  refine ⟨?_, (left.enter (closed_shape config) good).1, (right.enter (closed_of_agrees agrees) good).1⟩
  have catalog := alike.catalog
  rcases enter_cases (closed_shape config) good s with ⟨j, old, result⟩ | ⟨r, o, q, new, built, rfl, rfl, same, result⟩
  · rcases enter_cases (closed_of_agrees agrees) good s' with ⟨k, -, result'⟩ | ⟨_, _, _, new', -⟩
    · rw [result, result']
      exact alike.count (fun _ => rfl)
    · rw [catalog, old] at new'
      cases new'
  · rcases enter_cases (closed_of_agrees agrees) good s' with ⟨k, old', -⟩ | ⟨r', o', q', new', built', rfl, -, same', result'⟩
    · rw [catalog, new] at old'
      cases old'
    · rw [agrees.algorithm, alike.order, built, Except.ok.injEq, Prod.mk.injEq] at built'
      obtain ⟨rfl, rfl⟩ := built'
      rw [result, result', catalog]
      have pending := left.pending same good new q
      have pending' := right.pending same' good new' q
      rw [catalog] at pending'
      refine Alike.settle ⟨?_, rfl, alike.queue, fun p => ?_, alike.stats⟩ agrees.algorithm pending pending'
      · simp only [taken, catalog]
      · rw [members, members, collection_taken, collection_taken]
        exact alike.members p

theorem Matched.accept (matched : Matched config config' s s') (good : config.algorithm.Shape t) :
    Matched config config' (s.accept config t) (s'.accept config' t) := by
  have tallied : Matched config config' (s.tallied config t) (s'.tallied config' t) := by
    unfold State.tallied
    rw [agrees.discardTautologies]
    split
    · exact matched.count (fun _ => rfl)
    · exact matched
  rw [accept_eq, accept_eq, agrees.discardTautologies]
  split
  · exact tallied
  · next rest left => exact tallied.enter agrees (good.trimmed left)

theorem Matched.acceptAll {ts : List Tgd} (matched : Matched config config' s s')
    (good : ∀ t ∈ ts, config.algorithm.Shape t) :
    Matched config config' (s.acceptAll config ts) (s'.acceptAll config' ts) := by
  induction ts generalizing s s' with
  | nil => exact matched
  | cons t ts ih =>
    obtain ⟨here, later⟩ := List.forall_mem_cons.mp good
    exact ih (matched.accept agrees here) later

theorem meet_iff (alike : Alike s s') {partner : RuleId} : Meet config' s' r id partner ↔ Meet config s r id partner := by
  rw [Meet, Meet, agrees.algorithm, alike.members, alike.members]

theorem Matched.join (matched : Matched config config' s s') (id partner : RuleId) :
    Matched config config' (s.join config id partner) (s'.join config' id partner) := by
  have catalog := matched.alike.catalog
  have unknown (none : s.catalog.get? id = none ∨ s.catalog.get? partner = none) :
      Matched config config' (s.join config id partner) (s'.join config' id partner) := by
    rw [join_of_unknown none, join_of_unknown (catalog ▸ none)]
    exact matched
  cases found : s.catalog.get? id with
  | none => exact unknown (.inl found)
  | some r =>
    cases found' : s.catalog.get? partner with
    | none => exact unknown (.inr found')
    | some mate =>
      have eq := join_eq config found found'
      have eq' := join_eq (s := s') config' (catalog ▸ found) (catalog ▸ found')
      by_cases meet : Meet config s r id partner
      · have drawn := matched.left.drawn (closed_shape config) found found' meet
        rw [eq.1 meet, eq'.1 ((meet_iff agrees matched.alike).mpr meet), drawn_of_agrees agrees]
        apply Matched.acceptAll agrees _ drawn
        rw [noted, noted, drawn_of_agrees agrees]
        exact matched.count (fun _ => rfl)
      · rw [eq.2 meet, eq'.2 (fun met => meet ((meet_iff agrees matched.alike).mp met))]
        exact matched

end Agrees

/-- Joining with a mate that has no conclusions with the rule only counts an inference. -/
theorem join_idle (config : Config) (found : s.catalog.get? id = some r) {partner : RuleId} (found' : s.catalog.get? partner = some mate)
    (nothing : drawn config r mate = []) : Alike s (s.join config id partner) := by
  by_cases meet : Meet config s r id partner
  · rw [(join_eq config found found').1 meet, nothing, acceptAll, List.foldl_nil, noted, nothing]
    exact ⟨rfl, rfl, rfl, members_count _, rfl⟩
  · rw [(join_eq config found found').2 meet]
    exact .refl s

theorem foldl_filter_cons {σ α : Type} (f : σ → α → σ) (keep : α → Bool) (a : α) (l : List α) (s : σ) :
    ((a :: l).filter keep).foldl f s = (l.filter keep).foldl f (if keep a then f s a else s) := by
  cases kept : keep a <;> simp [kept]

/-- Of a list of partners, each run may leave out some that have no conclusions with the rule. -/
theorem Matched.joinAll (agrees : config.Agrees config') (matched : Matched config config' s s')
    (found : s.catalog.get? id = some r) {all : List RuleId} {keep keep' : RuleId → Bool}
    (idle : ∀ j ∈ all, keep j = true ∧ keep' j = true ∨ ∃ mate, s.catalog.get? j = some mate ∧ drawn config r mate = []) :
    Matched config config' ((all.filter keep).foldl (State.join config id) s)
      ((all.filter keep').foldl (State.join config' id) s') := by
  induction all generalizing s s' with
  | nil => exact matched
  | cons j all ih =>
    obtain ⟨here, later⟩ := List.forall_mem_cons.mp idle
    rw [foldl_filter_cons, foldl_filter_cons]
    have left := matched.left.join (closed_shape config) id j
    have right := matched.right.join (closed_of_agrees agrees) id j
    have grows : Grows s (if keep j then s.join config id j else s) := by
      split
      · exact left.2
      · exact .refl s
    apply ih _ (grows.catalog _ _ found)
    · intro k member
      apply (later k member).imp_right
      rintro ⟨mate, known, nothing⟩
      exact ⟨mate, grows.catalog _ _ known, nothing⟩
    · rcases here with ⟨kept, kept'⟩ | ⟨mate, known, nothing⟩
      · rw [if_pos kept, if_pos kept']
        exact matched.join agrees id j
      · have catalog := matched.alike.catalog
        have idle := join_idle config found known nothing
        have idle' := join_idle (s := s') config' (catalog ▸ found) (catalog ▸ known)
          ((drawn_of_agrees agrees r mate).trans nothing)
        refine ⟨?_, ?_, ?_⟩
        · have first : Alike s (if keep j then s.join config id j else s) := by
            split
            · exact idle
            · exact .refl s
          have second : Alike s' (if keep' j then s'.join config' id j else s') := by
            split
            · exact idle'
            · exact .refl s'
          exact first.symm.trans (matched.alike.trans second)
        · split
          · exact left.1
          · exact matched.left
        · split
          · exact right.1
          · exact matched.right

/-- Partners are stored in the other part. -/
theorem Consistent.partners_eq (consistent : Consistent config P s) (r : Rule) :
    (s.partners config r).toList =
      (s.members (config.algorithm.part r).other).toList.filter (fun j => j ∈ s.partners config r) := by
  have within {j : RuleId} (offered : j ∈ s.partners config r) : j ∈ s.members (config.algorithm.part r).other := by
    obtain ⟨a, inside, candidate⟩ := List.mem_flatMap.mp (SortedSet.mem_ofList.mp offered)
    obtain ⟨b, entry⟩ := (consistent.exact _).indexed.exists_of_candidate (SortedSet.mem_toList.mp candidate)
    exact (Collection.mem_entries.mp entry).1
  have same : s.partners config r =
      (s.members (config.algorithm.part r).other).filter (fun j => j ∈ s.partners config r) := by
    ext j
    simp only [SortedSet.mem_filter, decide_eq_true_eq]
    exact ⟨fun offered => ⟨within offered, offered⟩, And.right⟩
  exact congrArg SortedSet.toList same

theorem Matched.process (agrees : config.Agrees config') (matched : Matched config config' s s') (id : RuleId) :
    Matched config config' (s.process config id) (s'.process config' id) := by
  have alike := matched.alike
  rcases process_cases config s id with ⟨same, gone⟩ | ⟨r, found, stored, result⟩
  · rcases process_cases config' s' id with ⟨same', -⟩ | ⟨r, found', stored', -⟩
    · rw [same, same']
      exact matched
    · rw [alike.catalog] at found'
      rw [agrees.algorithm, alike.members] at stored'
      exact absurd stored' (gone r found')
  · rcases process_cases config' s' id with ⟨-, gone'⟩ | ⟨r', found', -, result'⟩
    · refine absurd ?_ (gone' r (alike.catalog ▸ found))
      rw [agrees.algorithm, alike.members]
      exact stored
    · rw [alike.catalog, found, Option.some.injEq] at found'
      subst found'
      rw [result, result', matched.left.partners_eq, matched.right.partners_eq, agrees.algorithm, alike.members]
      apply matched.joinAll agrees found
      intro j member
      obtain ⟨mate, known⟩ := (matched.left.exact _).known j member
      have meet : Meet config s r id j := ⟨stored, member⟩
      by_cases offered : j ∈ s.partners config r
      · by_cases offered' : j ∈ s'.partners config' r
        · exact .inl ⟨by simpa using offered, by simpa using offered'⟩
        · refine .inr ⟨mate, known, ?_⟩
          have right : Consistent config' config'.algorithm.Shape s' := agrees.algorithm ▸ matched.right
          rw [← drawn_of_agrees agrees]
          exact drawn_eq_nil right (alike.catalog ▸ found) (alike.catalog ▸ known)
            ((meet_iff agrees alike).mpr meet) offered'
      · exact .inr ⟨mate, known, drawn_eq_nil matched.left found known meet offered⟩

theorem Matched.step (agrees : config.Agrees config') (untimed : config.timeout? = none) (untimed' : config'.timeout? = none)
    (matched : Matched config config' s s') :
    (∃ o, s.step config = .error o ∧ s'.step config' = .error o) ∨
      ∃ next next', s.step config = .ok next ∧ s'.step config' = .ok next' ∧ Matched config config' next next' := by
  have queue := matched.alike.queue
  have stats := matched.alike.stats
  simp only [Stats.withoutInferences, Stats.mk.injEq] at stats
  have pops : s'.popsAreUp config' = s.popsAreUp config := by rw [popsAreUp, popsAreUp, agrees.maxPops, stats.2.2.2.2.1]
  have time : timeIsUp config = false := by simp [timeIsUp, untimed]
  have time' : timeIsUp config' = false := by simp [timeIsUp, untimed']
  unfold State.step
  rw [queue, pops, time, time']
  cases s.queue with
  | nil => exact .inl ⟨_, rfl, rfl⟩
  | cons id rest =>
    cases s.popsAreUp config with
    | true => exact .inl ⟨_, rfl, rfl⟩
    | false =>
      refine .inr ⟨_, _, rfl, rfl, ?_⟩
      have popped : Matched config config' (s.popped rest) (s'.popped rest) := by
        refine ⟨⟨matched.alike.catalog, matched.alike.order, rfl, fun p => ?_, ?_⟩, matched.left.popped rest,
          matched.right.popped rest⟩
        · rw [members_popped, members_popped, matched.alike.members]
        · exact (matched.alike.count (f := fun n => { n with pops := n.pops + 1 }) (fun _ => rfl)).stats
      exact popped.process agrees id

theorem Matched.advance (agrees : config.Agrees config') (untimed : config.timeout? = none)
    (untimed' : config'.timeout? = none) (matched : Matched config config' s s') (n : Nat) :
    (s'.advance config' n).1 = (s.advance config n).1 ∧
      Matched config config' (s.advance config n).2 (s'.advance config' n).2 := by
  induction n generalizing s s' with
  | zero => exact ⟨rfl, matched⟩
  | succ n ih =>
    rw [State.advance, State.advance]
    rcases matched.step agrees untimed untimed' with ⟨o, ended, ended'⟩ | ⟨next, next', continued, continued', matched'⟩
    · rw [ended, ended']
      exact ⟨rfl, matched⟩
    · rw [continued, continued']
      exact ih matched'

theorem Matched.advanceRounds (agrees : config.Agrees config') (untimed : config.timeout? = none)
    (untimed' : config'.timeout? = none) (matched : Matched config config' s s') (rounds turns : Nat) :
    (s'.advanceRounds config' rounds turns).1 = (s.advanceRounds config rounds turns).1 ∧
      Matched config config' (s.advanceRounds config rounds turns).2 (s'.advanceRounds config' rounds turns).2 := by
  induction rounds generalizing s s' turns with
  | zero => exact ⟨rfl, matched⟩
  | succ rounds ih =>
    have ⟨same, matched'⟩ := matched.advance agrees untimed untimed' turns
    rw [State.advanceRounds, State.advanceRounds]
    revert same matched'
    rcases s.advance config turns with ⟨outcome | o, t⟩ <;> rcases s'.advance config' turns with ⟨outcome' | o', t'⟩ <;>
      intro same matched'
    · exact ih matched' _
    · cases same
    · cases same
    · exact ⟨same, matched'⟩

theorem ofInputs_of_agrees (agrees : config.Agrees config') (ds : List Dependency) :
    Seeds.ofInputs config' ds = Seeds.ofInputs config ds := by
  rw [Seeds.ofInputs, Seeds.ofInputs, agrees.algorithm, agrees.shuffleSeed]

theorem matched_initial (agrees : config.Agrees config') (checked : Dependency.checkAll ds = .ok ()) :
    Matched config config' (initial config ds) (initial config' ds) := by
  rw [initial_eq, initial_eq, ofInputs_of_agrees agrees]
  apply Matched.acceptAll agrees
  · refine ⟨⟨rfl, rfl, rfl, fun p => ?_, ?_⟩, consistent_opening config ds, consistent_opening config' ds⟩
    · rw [members_opening, members_opening]
    · rw [opening, opening, ofInputs_of_agrees agrees]
  · intro t member
    exact Algorithm.shape_of_seed checked member

theorem Alike.fullRules (agrees : config.Agrees config') (alike : Alike s s') :
    s'.fullRules config' = s.fullRules config := by
  have members : s'.right.stored.members = s.right.stored.members := alike.members .right
  rw [State.fullRules, State.fullRules, agrees.algorithm, members, alike.catalog]

end State

/-- The index strategies bear on nothing but the inferences counted: after any number of turns
both runs have ended in the same way or none has, with the same full rules and counts, and
their answers are the same. -/
theorem saturate_agrees (config config' : Config) (agrees : config.Agrees config') (untimed : config.timeout? = none)
    (untimed' : config'.timeout? = none) (ds : List Dependency) (checked : Dependency.checkAll ds = .ok ()) :
    (∀ n, ((State.initial config' ds).advance config' n).1 = ((State.initial config ds).advance config n).1 ∧
      ((State.initial config' ds).advance config' n).2.fullRules config' =
        ((State.initial config ds).advance config n).2.fullRules config ∧
      ((State.initial config' ds).advance config' n).2.stats.withoutInferences =
        ((State.initial config ds).advance config n).2.stats.withoutInferences) ∧
    ∃ result result', saturate config ds = .ok result ∧ saturate config' ds = .ok result' ∧
      result'.withoutInferences = result.withoutInferences := by
  have matched := State.matched_initial agrees checked
  constructor
  · intro n
    obtain ⟨same, matched⟩ := matched.advance agrees untimed untimed' n
    exact ⟨same, matched.alike.fullRules agrees, matched.alike.stats⟩
  · refine ⟨_, _, saturate_of_checked config checked, saturate_of_checked config' checked, ?_⟩
    have rounds : State.rounds config' ds = State.rounds config ds := by
      rw [State.rounds, State.rounds, State.ofInputs_of_agrees agrees]
    obtain ⟨same, matched⟩ := matched.advanceRounds agrees untimed untimed' (State.rounds config ds) 1
    have final : (State.final config' ds).1 = (State.final config ds).1 := by rw [State.final, State.final, rounds, same]
    have alike : State.Alike (State.final config ds).2 (State.final config' ds).2 := by
      rw [State.final, State.final, rounds]
      exact matched.alike
    simp only [Saturation.withoutInferences, final, alike.fullRules agrees, alike.stats]

/-- Two dependencies that join are saturated alike by tries and paths and by exact sets and predicates. -/
theorem chained_agrees :
    Config.Agrees {} { subsumption := .exact, unification := .predicate, maxPredicates := 3 } ∧
      Dependency.checkAll Dependency.chained = .ok () ∧
      ∃ result result', saturate {} Dependency.chained = .ok result ∧
        saturate { subsumption := .exact, unification := .predicate, maxPredicates := 3 } Dependency.chained = .ok result' ∧
        result'.withoutInferences = result.withoutInferences := by
  have agrees : Config.Agrees {} { subsumption := .exact, unification := .predicate, maxPredicates := 3 } :=
    ⟨rfl, rfl, rfl, rfl⟩
  exact ⟨agrees, checkAll_chained, (saturate_agrees _ _ agrees rfl rfl Dependency.chained checkAll_chained).2⟩

end GuardedSaturation
