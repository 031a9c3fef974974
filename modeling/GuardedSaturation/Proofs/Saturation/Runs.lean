import Mathlib
import GuardedSaturation.Proofs.Saturation.Admission
import GuardedSaturation.Saturation.Run

/-! Whole runs: the states that a run goes through between two admissions, and the turns of its
loop. All of them are consistent. -/
namespace GuardedSaturation.State

/-- A fold over a list goes through a state when it has gone through the first part of the list. -/
def Passes {σ α : Type} (step : σ → α → σ) (l : List α) (s m : σ) : Prop :=
  ∃ before after, l = before ++ after ∧ before.foldl step s = m

def opening (config : Config) (ds : List Dependency) : State :=
  { start config with stats := Seeds.stats (Seeds.ofInputs config ds) ds }

theorem initial_eq (config : Config) (ds : List Dependency) :
    initial config ds = (opening config ds).acceptAll config (Seeds.ofInputs config ds) := rfl

def popped (s : State) (queue : List RuleId) : State :=
  { s with queue }.count (fun n => { n with pops := n.pops + 1 })

/-- The conclusions of a rule with a mate from the other part. -/
def drawn (config : Config) (r mate : Rule) : List Tgd :=
  match config.algorithm.part r with
  | .left => config.algorithm.conclusions r mate
  | .right => config.algorithm.conclusions mate r

/-- The state with the inference from a rule and its mate counted. -/
def noted (config : Config) (s : State) (r mate : Rule) : State :=
  s.count (fun n => { n with
    inferences := n.inferences + 1, generated := n.generated + (drawn config r mate).length })

def Meet (config : Config) (s : State) (r : Rule) (id partner : RuleId) : Prop :=
  id ∈ s.members (config.algorithm.part r) ∧ partner ∈ s.members (config.algorithm.part r).other

variable {config : Config} {ds : List Dependency} {P : Tgd → Prop} {s s' m : State} {id partner : RuleId}
  {queue : List RuleId} {r mate : Rule} {c : Tgd}

theorem stores_iff_mem {p : Part} : s.stores p id = true ↔ id ∈ s.members p := by simp [stores, Subsumer.contains, members]

theorem stores_iff_meet : (s.stores (config.algorithm.part r) id && s.stores (config.algorithm.part r).other partner) = true ↔
    Meet config s r id partner := by
  rw [Bool.and_eq_true, stores_iff_mem, stores_iff_mem, Meet]

theorem join_eq (config : Config) (found : s.catalog.get? id = some r) (found' : s.catalog.get? partner = some mate) :
    (Meet config s r id partner → s.join config id partner = (s.noted config r mate).acceptAll config (drawn config r mate)) ∧
      (¬ Meet config s r id partner → s.join config id partner = s) := by
  have unfolded : s.join config id partner =
      if (s.stores (config.algorithm.part r) id && s.stores (config.algorithm.part r).other partner) = true
      then (s.noted config r mate).acceptAll config (drawn config r mate) else s := by
    simp only [join, found, found']
    rfl
  exact ⟨fun meet => by rw [unfolded, if_pos (stores_iff_meet.mpr meet)],
    fun apart => by rw [unfolded, if_neg (fun both => apart (stores_iff_meet.mp both))]⟩

theorem join_of_unknown (unknown : s.catalog.get? id = none ∨ s.catalog.get? partner = none) :
    s.join config id partner = s := by
  unfold join
  rcases unknown with unknown | unknown
  · rw [unknown]
  · rw [unknown]
    cases s.catalog.get? id <;> rfl

structure Takes (config : Config) (s : State) (id : RuleId) (r : Rule) (p : State) : Prop where
  queue : ∃ queue, s.queue = id :: queue ∧ p = s.popped queue
  time : timeIsUp config = false
  pops : s.popsAreUp config = false
  found : s.catalog.get? id = some r
  stored : id ∈ s.members (config.algorithm.part r)

/-- The states that a turn of the loop begins with. -/
inductive Reached (config : Config) (ds : List Dependency) : State → Prop
  | initial : Reached config ds (initial config ds)
  | turn {s s' : State} (reached : Reached config ds s) (next : s.step config = .ok s') : Reached config ds s'

/-- The states at which the loop ends since nothing waits in the queue. -/
structure Completes (config : Config) (ds : List Dependency) (s : State) : Prop where
  reached : Reached config ds s
  ended : s.step config = .error .completed

/-- The states after the seeds: when a turn begins, before a rule is joined with its next
partner, and before the next conclusion from a rule and a partner is admitted. -/
inductive Within (config : Config) (ds : List Dependency) : State → Prop
  | turn {s : State} (reached : Reached config ds s) : Within config ds s
  | joining {s p m : State} {id : RuleId} {r : Rule} (reached : Reached config ds s) (takes : Takes config s id r p)
      (passes : Passes (join config id) (p.partners config r).toList p m) : Within config ds m
  | drawing {s p b m : State} {id partner : RuleId} {r mate : Rule} {before after : List RuleId}
      (reached : Reached config ds s) (takes : Takes config s id r p)
      (order : (p.partners config r).toList = before ++ partner :: after) (joined : before.foldl (join config id) p = b)
      (found : b.catalog.get? partner = some mate) (meet : Meet config b r id partner)
      (passes : Passes (accept config) (drawn config r mate) (b.noted config r mate) m) : Within config ds m

/-- The states between two admissions. -/
inductive Between (config : Config) (ds : List Dependency) : State → Prop
  | seeding {m : State} (passes : Passes (accept config) (Seeds.ofInputs config ds) (opening config ds) m) :
      Between config ds m
  | within {m : State} (within : Within config ds m) : Between config ds m

theorem Passes.acceptAll {ts : List Tgd} (consistent : Consistent config P s) (closed : Closed config P)
    (good : ∀ t ∈ ts, P t) (passes : Passes (accept config) ts s m) : Consistent config P m := by
  obtain ⟨before, after, rfl, rfl⟩ := passes
  exact (consistent.acceptAll closed (fun t member => good t (List.mem_append_left _ member))).1

theorem members_opening (config : Config) (ds : List Dependency) (p : Part) : (opening config ds).members p = ∅ := by
  cases p <;> change (Subsumer.empty config.maxPredicates config.subsumption).members = ∅ <;>
    cases config.subsumption <;> rfl

theorem consistent_opening (config : Config) (ds : List Dependency) : Consistent config P (opening config ds) := by
  have empty (id : RuleId) : (opening config ds).catalog.get? id = none := rfl
  refine ⟨fun id r found => ?_, fun id j r r' found => ?_, fun p => ?_, fun p id r member => ?_, fun id r found => ?_⟩
  · simp [empty] at found
  · simp [empty] at found
  · cases p <;> exact Collection.exact_empty config _
  · simp [members_opening] at member
  · simp [empty] at found

/-- Seeds of a run have the property, and so do all rules that follow. -/
structure Runs (config : Config) (ds : List Dependency) (P : Tgd → Prop) : Prop where
  closed : Closed config P
  seeds : ∀ t ∈ Seeds.ofInputs config ds, P t

theorem Runs.initial (runs : Runs config ds P) : Consistent config P (initial config ds) :=
  ((consistent_opening config ds).acceptAll runs.closed runs.seeds).1

theorem collection_popped (p : Part) : (s.popped queue).collection p = s.collection p := by cases p <;> rfl

theorem members_popped (p : Part) : (s.popped queue).members p = s.members p := by
  rw [members, collection_popped]
  rfl

theorem Consistent.popped (consistent : Consistent config P s) (queue : List RuleId) : Consistent config P (s.popped queue) := by
  refine ⟨consistent.rules, consistent.distinct, fun p => ?_, fun p => ?_, fun id r found => ?_⟩
  · rw [collection_popped]
    exact consistent.exact p
  · rw [members_popped]
    exact consistent.parts p
  · simp only [Covers, members_popped]
    exact consistent.covered id r found

theorem Consistent.drawn (consistent : Consistent config P s) (closed : Closed config P)
    (found : s.catalog.get? id = some r) (found' : s.catalog.get? partner = some mate)
    (meet : Meet config s r id partner) : ∀ c ∈ drawn config r mate, P c := by
  obtain ⟨built, good⟩ := consistent.rules id r found
  obtain ⟨built', good'⟩ := consistent.rules partner mate found'
  have part := consistent.parts _ id r meet.1 found
  have part' := consistent.parts _ partner mate meet.2 found'
  intro c member
  unfold State.drawn at member
  cases side : config.algorithm.part r <;> simp only [side, Part.other] at member part part'
  · exact closed.conclusion r mate c built built' part part' good good' member
  · exact closed.conclusion mate r c built' built part' part good' good member

theorem Consistent.join (consistent : Consistent config P s) (closed : Closed config P) (id partner : RuleId) :
    Consistent config P (s.join config id partner) ∧ Grows s (s.join config id partner) := by
  cases found : s.catalog.get? id with
  | none =>
    rw [join_of_unknown (.inl found)]
    exact ⟨consistent, .refl s⟩
  | some r =>
    cases found' : s.catalog.get? partner with
    | none =>
      rw [join_of_unknown (.inr found')]
      exact ⟨consistent, .refl s⟩
    | some mate =>
      by_cases meet : Meet config s r id partner
      · rw [(join_eq config found found').1 meet]
        obtain ⟨consistent', grows, -⟩ :=
          (consistent.count _).acceptAll closed (consistent.drawn closed found found' meet)
        exact ⟨consistent', (grows_count _).trans grows⟩
      · rw [(join_eq config found found').2 meet]
        exact ⟨consistent, .refl s⟩

theorem Consistent.joinAll (consistent : Consistent config P s) (closed : Closed config P) (id : RuleId)
    (partners : List RuleId) :
    Consistent config P (partners.foldl (State.join config id) s) ∧ Grows s (partners.foldl (State.join config id) s) := by
  induction partners generalizing s with
  | nil => exact ⟨consistent, .refl s⟩
  | cons partner partners ih =>
    obtain ⟨consistent, grows⟩ := consistent.join closed id partner
    obtain ⟨consistent, grows'⟩ := ih consistent
    exact ⟨consistent, grows.trans grows'⟩

/-- A rule taken off the queue is joined with all partners, if it is still stored. -/
theorem process_cases (config : Config) (p : State) (id : RuleId) :
    (p.process config id = p ∧ ∀ r, p.catalog.get? id = some r → id ∉ p.members (config.algorithm.part r)) ∨
    ∃ r, p.catalog.get? id = some r ∧ id ∈ p.members (config.algorithm.part r) ∧
      p.process config id = (p.partners config r).toList.foldl (join config id) p := by
  cases found : p.catalog.get? id with
  | none => exact .inl ⟨by rw [process, found], by simp⟩
  | some r =>
    by_cases stored : id ∈ p.members (config.algorithm.part r)
    · exact .inr ⟨r, rfl, stored, by simp only [process, found, if_pos (stores_iff_mem.mpr stored)]⟩
    · refine .inl ⟨by simp only [process, found, if_neg (mt stores_iff_mem.mp stored)], fun r' same => ?_⟩
      rw [Option.some.injEq] at same
      exact same ▸ stored

theorem Consistent.process (consistent : Consistent config P s) (closed : Closed config P) (id : RuleId) :
    Consistent config P (s.process config id) ∧ Grows s (s.process config id) := by
  rcases process_cases config s id with ⟨same, -⟩ | ⟨r, -, -, result⟩
  · rw [same]
    exact ⟨consistent, .refl s⟩
  · rw [result]
    exact consistent.joinAll closed id _

theorem step_eq_ok (next : s.step config = .ok s') :
    ∃ id queue, s.queue = id :: queue ∧ timeIsUp config = false ∧ s.popsAreUp config = false ∧
      s' = (s.popped queue).process config id := by
  unfold step at next
  split at next
  · cases next
  · next id queue order =>
    split at next
    · cases next
    · next time =>
      split at next
      · cases next
      · next pops =>
        exact ⟨id, queue, order, by simpa using time, by simpa using pops, (Except.ok.inj next).symm⟩

theorem queue_of_completed (ended : s.step config = .error .completed) : s.queue = [] := by
  unfold step at ended
  split at ended
  · assumption
  · split at ended
    · cases ended
    · split at ended <;> cases ended

/-- The states reached are consistent, and their catalogs never drop a rule. -/
theorem Reached.spec (runs : Runs config ds P) (reached : Reached config ds s) :
    Consistent config P s ∧ s.catalog.Extends (State.initial config ds).catalog := by
  induction reached with
  | initial => exact ⟨runs.initial, .refl _⟩
  | turn reached next ih =>
    obtain ⟨id, queue, -, -, -, rfl⟩ := step_eq_ok next
    obtain ⟨consistent, grows⟩ := (ih.1.popped queue).process runs.closed id
    exact ⟨consistent, grows.catalog.trans ih.2⟩

theorem Within.spec (runs : Runs config ds P) (within : Within config ds m) :
    Consistent config P m ∧ m.catalog.Extends (State.initial config ds).catalog := by
  cases within with
  | turn reached => exact reached.spec runs
  | @joining _ _ _ id _ reached takes passes =>
    obtain ⟨consistent, longer⟩ := reached.spec runs
    obtain ⟨queue, -, rfl⟩ := takes.queue
    obtain ⟨before, after, -, rfl⟩ := passes
    obtain ⟨consistent, grows⟩ := (consistent.popped queue).joinAll runs.closed id before
    exact ⟨consistent, grows.catalog.trans longer⟩
  | drawing reached takes order joined found meet passes =>
    obtain ⟨consistent, longer⟩ := reached.spec runs
    obtain ⟨queue, -, rfl⟩ := takes.queue
    obtain ⟨before, after, split, rfl⟩ := passes
    obtain ⟨consistent, grows⟩ := (consistent.popped queue).joinAll runs.closed _ _
    rw [joined] at consistent grows
    have drawn := consistent.drawn runs.closed (grows.catalog _ _ takes.found) found meet
    rw [split] at drawn
    obtain ⟨consistent, later, -⟩ :=
      (consistent.count _).acceptAll runs.closed (fun t member => drawn t (List.mem_append_left _ member))
    exact ⟨consistent, later.catalog.trans (grows.catalog.trans longer)⟩

theorem Reached.consistent (runs : Runs config ds P) (reached : Reached config ds s) : Consistent config P s :=
  (reached.spec runs).1

theorem Within.consistent (runs : Runs config ds P) (within : Within config ds m) : Consistent config P m :=
  (within.spec runs).1

theorem Between.consistent (runs : Runs config ds P) (between : Between config ds m) : Consistent config P m := by
  cases between with
  | seeding passes => exact passes.acceptAll (consistent_opening config ds) runs.closed runs.seeds
  | within within => exact within.consistent runs

/-- Turns of the loop lead from states reached to states reached, and an outcome is that of the
last one. -/
theorem advance_spec (n : Nat) (reached : Reached config ds s) :
    Reached config ds (s.advance config n).2 ∧
      ∀ o, (s.advance config n).1 = some o → (s.advance config n).2.step config = .error o := by
  induction n generalizing s with
  | zero => exact ⟨reached, by simp [advance]⟩
  | succ n ih =>
    rw [advance]
    split
    · next o ended => exact ⟨reached, fun o' same => by rw [ended, Option.some.inj same]⟩
    · next next' continued => exact ih (reached.turn continued)

theorem advanceRounds_spec (rounds turns : Nat) (reached : Reached config ds s) :
    Reached config ds (s.advanceRounds config rounds turns).2 ∧
      ∀ o, (s.advanceRounds config rounds turns).1 = some o →
        (s.advanceRounds config rounds turns).2.step config = .error o := by
  induction rounds generalizing s turns with
  | zero => exact ⟨reached, by simp [advanceRounds]⟩
  | succ rounds ih =>
    obtain ⟨reached', ended⟩ := advance_spec turns reached
    rw [advanceRounds]
    split
    · next o s' result =>
      rw [result] at reached' ended
      exact ⟨reached', fun o' same => by
        rw [Option.some.injEq] at same
        exact ended o' (by rw [same])⟩
    · next s' result =>
      rw [result] at reached'
      exact ih _ reached'

theorem final_reached (config : Config) (ds : List Dependency) : Reached config ds (final config ds).2 :=
  (advanceRounds_spec _ _ .initial).1

theorem final_ended {o : Outcome} (ended : (final config ds).1 = some o) : (final config ds).2.step config = .error o :=
  (advanceRounds_spec _ _ .initial).2 o ended

end GuardedSaturation.State

namespace GuardedSaturation
variable {config : Config} {ds : List Dependency} {result : Saturation}

theorem saturate_eq_ok (ok : saturate config ds = .ok result) :
    Dependency.checkAll ds = .ok () ∧
      result = { fullRules := (State.final config ds).2.fullRules config
                 outcome := (State.final config ds).1.getD .popLimitReached
                 stats := (State.final config ds).2.stats } := by
  obtain ⟨_, checked, rest⟩ := bind_ok.mp ok
  exact ⟨checked, (Except.ok.inj rest).symm⟩

theorem saturate_of_checked (config : Config) (checked : Dependency.checkAll ds = .ok ()) :
    saturate config ds = .ok { fullRules := (State.final config ds).2.fullRules config
                               outcome := (State.final config ds).1.getD .popLimitReached
                               stats := (State.final config ds).2.stats } := by
  rw [saturate, checked]
  rfl

/-- Two dependencies that join: the first invents a value, and the second uses it. -/
def Dependency.chained : List Dependency :=
  [⟨[⟨"p", [.var "x"]⟩], [⟨"q", [.var "x", .var "y"]⟩], ["y"]⟩, ⟨[⟨"q", [.var "x", .var "y"]⟩], [⟨"r", [.var "x"]⟩], []⟩]

theorem checkAll_chained : Dependency.checkAll Dependency.chained = .ok () := by decide +kernel

theorem completed_chained : (State.final {} Dependency.chained).1.getD .popLimitReached = .completed := by decide +kernel

theorem runs_shape (config : Config) (checked : Dependency.checkAll ds = .ok ()) :
    State.Runs config ds config.algorithm.Shape :=
  ⟨closed_shape config, fun _ member => Algorithm.shape_of_seed checked member⟩

theorem completes_final (ok : saturate config ds = .ok result) (completed : result.outcome = .completed) :
    State.Completes config ds (State.final config ds).2 := by
  obtain ⟨-, rfl⟩ := saturate_eq_ok ok
  refine ⟨State.final_reached config ds, State.final_ended ?_⟩
  cases ended : (State.final config ds).1 with
  | none => simp [ended] at completed
  | some o => simpa [ended] using completed

end GuardedSaturation
