import Mathlib
import GuardedSaturation.Proofs.Dependencies
import GuardedSaturation.Proofs.Saturation.Termination

/-! Runs that can fail. They drop a rule only for want of a guard and raise all other errors, also where the catalog lacks
a rule that was taken up or waits in the queue; and they have a clock. Such runs fail on inputs that break the contract, and
on no others. -/
namespace GuardedSaturation

/-- A configuration at some time after the start: the time is up, or there is all the time in the world. -/
def Config.at (config : Config) (now : Nat) : Config :=
  { config with timeout? := if config.timeout?.any (· ≤ now) then some 0 else none }

namespace State
variable {config : Config} {clock : Nat → Nat} {ds : List Dependency} {s s' m : State} {n turns : Nat}

/-- Takes up a rule, and fails unless it is for want of a guard. -/
def tryEnter (config : Config) (s : State) (t : Tgd) : Except Error State :=
  match s.catalog.intern config.algorithm.discipline s.order t with
  | .error e =>
    if e.isDiscardable then .ok (s.count (fun n => { n with unguardedResolvents := n.unguardedResolvents + 1 }))
    else .error e
  | .ok (.existing _, _, _) => .ok (s.count (fun n => { n with duplicates := n.duplicates + 1 }))
  | .ok (.new id, catalog, order) =>
    match catalog.get? id with
    | some r => .ok ({ s with catalog, order }.settle config id r)
    | none => .error ⟨.internal ("interned rule " ++ RuleId.text id ++ " missing from the arena"), none⟩

def tryAccept (config : Config) (s : State) (t : Tgd) : Except Error State :=
  let tautology (n : Stats) : Stats := { n with tautologies := n.tautologies + 1 }
  if config.discardTautologies then
    match t.withoutTautology with
    | none => .ok (s.count tautology)
    | some rest =>
      if rest.head.size < t.head.size then (s.count tautology).tryEnter config rest.canonical
      else s.tryEnter config rest
  else s.tryEnter config t

def tryAcceptAll (config : Config) (s : State) (ts : List Tgd) : Except Error State := ts.foldlM (tryAccept config) s

def tryJoin (config : Config) (id : RuleId) (s : State) (partner : RuleId) : Except Error State :=
  match s.catalog.get? id, s.catalog.get? partner with
  | some r, some mate =>
    let p := config.algorithm.part r
    if s.stores p id && s.stores p.other partner then (s.noted config r mate).tryAcceptAll config (drawn config r mate)
    else .ok s
  | _, _ => .ok s

def tryProcess (config : Config) (s : State) (id : RuleId) : Except Error State :=
  match s.catalog.get? id with
  | some r =>
    if s.stores (config.algorithm.part r) id then (s.partners config r).toList.foldlM (tryJoin config id) s else .ok s
  | none => .error ⟨.internal ("queued rule " ++ RuleId.text id ++ " missing from the arena"), none⟩

/-- One turn of the loop. The clock tells the time since the start when so many rules have been taken off the queue. -/
def tryStep (clock : Nat → Nat) (config : Config) (s : State) : Except Error (Except Outcome State) :=
  match s.queue with
  | [] => .ok (.error .completed)
  | id :: queue =>
    if config.timeout?.any (· ≤ clock s.stats.pops) then .ok (.error .timedOut)
    else if s.popsAreUp config then .ok (.error .popLimitReached)
    else ((s.popped queue).tryProcess config id).map .ok

def tryAdvance (clock : Nat → Nat) (config : Config) : Nat → State → Except Error (Option Outcome × State)
  | 0, s => .ok (none, s)
  | n + 1, s => do
    match ← s.tryStep clock config with
    | .error outcome => return (some outcome, s)
    | .ok next => next.tryAdvance clock config n

theorem tryEnter_eq (config : Config) (s : State) (t : Tgd) : s.tryEnter config t = .ok (s.enter config t) := by
  unfold tryEnter enter
  obtain ⟨id, existing⟩ | ⟨r, o, -, -, new⟩ | ⟨rule, error⟩ :=
    s.catalog.intern_results config.algorithm.discipline s.order t
  · simp only [existing]
  · have found : (⟨s.catalog.rules.push r⟩ : Catalog).get? s.catalog.size = some r := by
      rw [Catalog.get?_push, if_pos rfl]
    simp only [new, found]
  · simp only [error]
    rfl

theorem tryAccept_eq (config : Config) (s : State) (t : Tgd) : s.tryAccept config t = .ok (s.accept config t) := by
  unfold tryAccept accept
  simp only [tryEnter_eq]
  split
  · cases t.withoutTautology with
    | none => rfl
    | some rest => exact (apply_ite Except.ok _ _ _).symm
  · rfl

theorem tryAcceptAll_eq (config : Config) (s : State) (ts : List Tgd) :
    s.tryAcceptAll config ts = .ok (s.acceptAll config ts) := by
  have pure : tryAccept config = fun s t => .ok (s.accept config t) := funext₂ (tryAccept_eq config)
  rw [tryAcceptAll, pure]
  exact List.foldlM_pure

theorem tryJoin_eq (config : Config) (id : RuleId) (s : State) (partner : RuleId) :
    s.tryJoin config id partner = .ok (s.join config id partner) := by
  unfold tryJoin
  cases found : s.catalog.get? id with
  | none => rw [join_of_unknown (.inl found)]
  | some r =>
    cases found' : s.catalog.get? partner with
    | none => rw [join_of_unknown (.inr found')]
    | some mate =>
      simp only [tryAcceptAll_eq, join, found, found']
      exact (apply_ite Except.ok _ _ _).symm

theorem tryProcess_eq {id : RuleId} {r : Rule} (found : s.catalog.get? id = some r) :
    s.tryProcess config id = .ok (s.process config id) := by
  have pure : tryJoin config id = fun s partner => .ok (s.join config id partner) := funext₂ (tryJoin_eq config id)
  have folded (partners : List RuleId) : partners.foldlM (tryJoin config id) s = .ok (partners.foldl (join config id) s) := by
    rw [pure]
    exact List.foldlM_pure
  simp only [tryProcess, process, found, folded]
  exact (apply_ite Except.ok _ _ _).symm

/-- The rules that wait in the queue are in the catalog. -/
def Queued (s : State) : Prop := ∀ id ∈ s.queue, ∃ r, s.catalog.get? id = some r

theorem queued (config : Config) (P : Tgd → Prop) : Invariant config P Queued := by
  refine ⟨fun s f _ queued => queued, fun s id queue order queued j member => ?_, fun s r o _ queued id member => ?_,
    fun s r o pending _ _ queued id member => ?_⟩
  · exact queued j (order ▸ List.mem_cons_of_mem id member)
  · obtain ⟨q, found⟩ := queued id member
    exact ⟨q, Catalog.extends_push id q found⟩
  · rw [queue_stored] at member
    rw [catalog_stored]
    rcases List.mem_append.mp member with earlier | last
    · exact queued id earlier
    · rw [List.mem_singleton.mp last]
      exact ⟨r, pending.found⟩

/-- Every number that a run looks up has a rule: those in the queue, those stored, and those that an index offers. -/
structure Resolves (s : State) : Prop where
  queue : s.Queued
  stored : ∀ p, ∀ id ∈ s.members p, ∃ r, s.catalog.get? id = some r
  offered : ∀ p a, ∀ id ∈ (s.collection p).index.candidates a, ∃ r, s.catalog.get? id = some r

theorem Between.resolves (checked : Dependency.checkAll ds = .ok ()) (between : Between config ds m) : m.Resolves := by
  have runs := runs_shape config checked
  have exact := (between.consistent runs).exact
  refine ⟨(queued config _).between runs (by simp [Queued, opening, start]) between, fun p => (exact p).known,
    fun p a id member => ?_⟩
  obtain ⟨b, entry⟩ := (exact p).indexed.exists_of_candidate member
  exact (exact p).known id (Collection.mem_entries.mp entry).1

theorem Reached.queued (checked : Dependency.checkAll ds = .ok ()) (reached : Reached config ds s) : s.Queued :=
  (Between.within (.turn reached)).resolves checked |>.queue

theorem process_at (config : Config) (now : Nat) (s : State) (id : RuleId) :
    s.process (config.at now) id = s.process config id := rfl

/-- A turn under a clock is one in the configuration of its time. -/
theorem tryStep_eq (queued : s.Queued) : s.tryStep clock config = .ok (s.step (config.at (clock s.stats.pops))) := by
  unfold tryStep step
  cases order : s.queue with
  | nil => rfl
  | cons id queue =>
    obtain ⟨r, found⟩ := queued id (order ▸ List.mem_cons_self)
    have processed : (s.popped queue).tryProcess config id = .ok ((s.popped queue).process config id) := tryProcess_eq found
    have pops : s.popsAreUp (config.at (clock s.stats.pops)) = s.popsAreUp config := rfl
    by_cases late : config.timeout?.any (· ≤ clock s.stats.pops) = true
    · simp [late, timeIsUp, Config.at]
    · have onTime : timeIsUp (config.at (clock s.stats.pops)) = false := by simp [late, timeIsUp, Config.at]
      simp only [late, processed, onTime, pops, process_at, Except.map, Bool.false_eq_true, if_false]
      exact (apply_ite Except.ok _ _ _).symm

theorem step_at_zero (config : Config) (s : State) : s.step (config.at 0) = s.step config := by
  have same : timeIsUp (config.at 0) = timeIsUp config := by
    cases limit : config.timeout? <;> simp [timeIsUp, Config.at, limit]
  simp only [step, same, process_at]
  rfl

/-- With a clock that stands still, a run that can fail is the run. -/
theorem tryAdvance_still (checked : Dependency.checkAll ds = .ok ()) (reached : Reached config ds s) (turns : Nat) :
    s.tryAdvance (fun _ => 0) config turns = .ok (s.advance config turns) := by
  induction turns generalizing s with
  | zero => rfl
  | succ turns ih =>
    rw [tryAdvance, advance, tryStep_eq (reached.queued checked), step_at_zero]
    cases next : s.step config with
    | error o => rfl
    | ok s' => exact ih (reached.turn next)

/-- Under no clock does a run fail, or go on for longer than one without a limit of time. -/
theorem tryAdvance_ends (config : Config) (checked : Dependency.checkAll ds = .ok ())
    (reached : Reached { config with timeout? := none } ds s) (clock : Nat → Nat) (turns : Nat) :
    ∃ result, s.tryAdvance clock config turns = .ok result ∧
      (result.1 = none → (s.advance { config with timeout? := none } turns).1 = none) := by
  induction turns generalizing s with
  | zero => exact ⟨_, rfl, fun _ => rfl⟩
  | succ turns ih =>
    rw [tryAdvance, advance, tryStep_eq (reached.queued checked)]
    -- When the time is up a turn ends the run, whether rules wait or not. Until then it is one without a limit of time.
    by_cases late : config.timeout?.any (· ≤ clock s.stats.pops) = true
    · obtain ⟨o, ended⟩ : ∃ o, s.step (config.at (clock s.stats.pops)) = .error o := by
        cases order : s.queue <;> simp [step, order, timeIsUp, Config.at, late]
      rw [ended]
      exact ⟨_, rfl, by simp⟩
    · have onTime : config.at (clock s.stats.pops) = { config with timeout? := none } := by simp [Config.at, late]
      rw [onTime]
      cases next : s.step { config with timeout? := none } with
      | error o => exact ⟨_, rfl, by simp⟩
      | ok s' => exact ih (reached.turn next)

theorem tryAdvance_of_ended {o : Outcome} (ended : s.tryAdvance clock config n = .ok (some o, s')) (within : n ≤ turns) :
    s.tryAdvance clock config turns = .ok (some o, s') := by
  induction n generalizing s turns with
  | zero => simp [tryAdvance] at ended
  | succ n ih =>
    cases turns with
    | zero => simp at within
    | succ turns =>
      rw [tryAdvance] at ended ⊢
      cases here : s.tryStep clock config with
      | error e => simp [here, bind, Except.bind] at ended
      | ok turn =>
        rw [here] at ended
        cases turn with
        | error outcome => exact ended
        | ok next => exact ih ended (Nat.le_of_succ_le_succ within)

end State

/-- A run under a clock, for so many turns at most, that fails on whatever goes wrong. -/
def attempt (clock : Nat → Nat) (config : Config) (turns : Nat) (ds : List Dependency) : Except Error (Option Saturation) := do
  Dependency.checkAll ds
  let s ← (State.opening config ds).tryAcceptAll config (Seeds.ofInputs config ds)
  let (outcome?, s) ← s.tryAdvance clock config turns
  return outcome?.map (fun outcome => { fullRules := s.fullRules config, outcome, stats := s.stats })

section Attempts
variable {config : Config} {clock : Nat → Nat} {ds : List Dependency} {turns : Nat} {e : Error}

theorem attempt_of_rejected (rejected : Dependency.checkAll ds = .error e) : attempt clock config turns ds = .error e := by
  rw [attempt, rejected]
  rfl

theorem attempt_of_checked (checked : Dependency.checkAll ds = .ok ()) {outcome? : Option Outcome} {s : State}
    (result : (State.initial config ds).tryAdvance clock config turns = .ok (outcome?, s)) :
    attempt clock config turns ds =
      .ok (outcome?.map (fun outcome => { fullRules := s.fullRules config, outcome, stats := s.stats })) := by
  rw [attempt, checked, State.tryAcceptAll_eq, ← State.initial_eq]
  simp only [bind, Except.bind, result]
  rfl

theorem attempt_eq_error_iff : attempt clock config turns ds = .error e ↔ Dependency.checkAll ds = .error e := by
  refine ⟨fun failed => ?_, attempt_of_rejected⟩
  cases checked : Dependency.checkAll ds with
  | error e' => rw [Except.error.inj ((attempt_of_rejected checked).symm.trans failed)]
  | ok =>
    obtain ⟨⟨outcome?, s⟩, result, -⟩ := State.tryAdvance_ends config checked .initial clock turns
    rw [attempt_of_checked checked result] at failed
    cases failed

theorem exists_attempt (checked : Dependency.checkAll ds = .ok ()) (clock : Nat → Nat) (config : Config) :
    ∃ result bound, ∀ turns ≥ bound, attempt clock config turns ds = .ok (some result) := by
  obtain ⟨⟨outcome?, s⟩, ended, unended⟩ := State.tryAdvance_ends config checked .initial clock
    (2 ^ State.rounds config ds - 1)
  cases outcome? with
  | none =>
    obtain ⟨o, last⟩ := State.final_ends { config with timeout? := none } checked
    rw [State.final_eq] at last
    cases last.symm.trans (unended rfl)
  | some o => exact ⟨_, _, fun turns enough => attempt_of_checked checked (State.tryAdvance_of_ended ended enough)⟩

theorem exists_attempt_still (checked : Dependency.checkAll ds = .ok ()) (config : Config) :
    ∃ result bound, saturate config ds = .ok result ∧
      ∀ turns ≥ bound, attempt (fun _ => 0) config turns ds = .ok (some result) := by
  obtain ⟨o, last⟩ := State.final_ends config checked
  have ended := State.tryAdvance_still checked (State.Reached.initial : State.Reached config ds _) (2 ^ State.rounds config ds - 1)
  rw [← State.final_eq, ← Prod.mk.eta (p := State.final config ds), last] at ended
  refine ⟨_, 2 ^ State.rounds config ds - 1, saturate_of_checked config checked, fun turns enough => ?_⟩
  rw [attempt_of_checked checked (State.tryAdvance_of_ended ended enough), last]
  rfl

end Attempts

/-- Inputs are accepted if and only if they keep the contract, and the error of the others is about the first dependency
at fault. Runs fail on those others with that error, and on nothing else: all numbers that they look up have rules, and
whatever the clock says they come to an end. -/
theorem attempt_exact (ds : List Dependency) :
    (Dependency.checkAll ds = .ok () ↔ Dependency.Contract ds) ∧
    (∀ e, Dependency.checkAll ds = .error e → Dependency.Blames ds e) ∧
    ∀ config,
      (∀ e, saturate config ds = .error e ↔ Dependency.checkAll ds = .error e) ∧
      (∀ clock turns e, attempt clock config turns ds = .error e ↔ Dependency.checkAll ds = .error e) ∧
      (Dependency.checkAll ds = .ok () →
        (∀ m, State.Between config ds m → m.Resolves) ∧
        (∀ clock, ∃ result bound, ∀ turns ≥ bound, attempt clock config turns ds = .ok (some result)) ∧
        ∃ result bound, saturate config ds = .ok result ∧
          ∀ turns ≥ bound, attempt (fun _ => 0) config turns ds = .ok (some result)) := by
  refine ⟨Dependency.checkAll_eq_ok_iff, fun _ => Dependency.blames_of_checkAll, fun config => ⟨fun e => ?_, ?_, ?_⟩⟩
  · cases checked : Dependency.checkAll ds with
    | error e' => simp [saturate, checked, bind, Except.bind]
    | ok => simp [saturate_of_checked config checked]
  · exact fun clock turns e => attempt_eq_error_iff
  · exact fun checked => ⟨fun m between => between.resolves checked, fun clock => exists_attempt checked clock config,
      exists_attempt_still checked config⟩

end GuardedSaturation
