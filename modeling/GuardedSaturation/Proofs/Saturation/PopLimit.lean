import Mathlib
import GuardedSaturation.Proofs.Saturation.Ledger
import GuardedSaturation.Proofs.Saturation.Meaning

/-! Runs with a limit on the rules taken off the queue. Up to the limit such a run goes through the states of the run
without one, for each turn takes off one rule. What it has for an answer then is subsumed by the whole answer. -/
namespace GuardedSaturation

/-- A rule that belongs to the answer is subsumed only by rules that belong to it too, for they have its one head atom
and no other body atoms. -/
theorem Algorithm.isOutput_of_subsumes {algorithm : Algorithm} {q r : Rule} (shape : algorithm.Shape q.tgd)
    (shape' : algorithm.Shape r.tgd) (subsumes : q.tgd.subsumes r.tgd = true) (output : algorithm.isOutput r = true) :
    algorithm.isOutput q = true := by
  have free (selecting : algorithm ≠ .existential) (free : r.tgd.isFunctionFree = true) : q.tgd.isFunctionFree = true := by
    obtain ⟨h, single⟩ := ((shape_of_selecting selecting).mp shape).single
    obtain ⟨h', single'⟩ := ((shape_of_selecting selecting).mp shape').single
    obtain ⟨body, head⟩ := Tgd.subsumes_iff.mp subsumes
    obtain rfl : h' = h := (single h').mp (head h' ((single' h').mpr rfl))
    rw [Tgd.isFunctionFree_eq_true] at free ⊢
    exact ⟨fun a member => free.1 a (body a member), fun a member => free.2 a ((single' a).mpr ((single a).mp member))⟩
  cases algorithm with
  | existential => rfl
  | skolem | orderedSkolem => exact free (by decide) output

namespace State
variable {config : Config} {ds : List Dependency} {P : Tgd → Prop} {s : State} {k n : Nat}

theorem Reached.extends (runs : Runs config ds P) (reached : Reached config ds s) (n : Nat) :
    (s.advance config n).2.catalog.Extends s.catalog := by
  induction n generalizing s with
  | zero => exact .refl _
  | succ n ih =>
    rw [advance]
    cases next : s.step config with
    | error o => exact .refl _
    | ok s' =>
      have later := ih (reached.turn next)
      obtain ⟨id, queue, -, -, -, rfl⟩ := step_eq_ok next
      exact later.trans (((reached.consistent runs).popped queue).process runs.closed id).2.catalog

/-- What is answered at some turn is subsumed by what is answered at any later one, also if it was removed since. -/
theorem Reached.answers (checked : Dependency.checkAll ds = .ok ()) (reached : Reached config ds s) (n : Nat) {t : Tgd}
    (member : t ∈ s.fullRules config) : ∃ g ∈ (s.advance config n).2.fullRules config, g.subsumes t = true := by
  have runs := runs_shape config checked
  obtain ⟨id, r, stored, found, output, rfl⟩ := mem_fullRules.mp member
  have consistent := (advance_spec n reached).1.consistent runs
  have known := reached.extends runs n id r found
  obtain ⟨j, q, stored', found', subsumes⟩ := consistent.covered id r known
  rw [(reached.consistent runs).parts .right id r stored found] at stored'
  have shape := (consistent.rules j q found').2
  have output' := Algorithm.isOutput_of_subsumes shape (consistent.rules id r known).2 subsumes output
  exact ⟨q.tgd, mem_fullRules.mpr ⟨j, q, stored', found', output', rfl⟩, subsumes⟩

theorem goesOn_of_le {m : Nat} (goesOn : (s.advance config n).1 = none) (fewer : m ≤ n) :
    (s.advance config m).1 = none := by
  refine Option.eq_none_iff_forall_ne_some.mpr (fun o ended => ?_)
  rw [advance_of_ended ended fewer, ended] at goesOn
  cases goesOn

theorem advance_succ (goesOn : (s.advance config n).1 = none) :
    s.advance config (n + 1) = match (s.advance config n).2.step config with
      | .error o => (some o, (s.advance config n).2)
      | .ok next => (none, next) := advance_of_goesOn goesOn 1

theorem step_limited (unlimited : config.maxPops? = none) (fewer : s.stats.pops < k) :
    s.step { config with maxPops? := some k } = s.step config := by
  have below : s.popsAreUp { config with maxPops? := some k } = s.popsAreUp config := by
    simpa [popsAreUp, unlimited] using fewer
  simp only [step, below]
  rfl

theorem step_of_limit (untimed : config.timeout? = none) (limit : s.stats.pops = k) (waits : s.queue ≠ []) :
    s.step { config with maxPops? := some k } = .error .popLimitReached := by
  obtain ⟨id, queue, order⟩ := List.exists_cons_of_ne_nil waits
  simp [step, order, timeIsUp, untimed, popsAreUp, limit]

theorem advance_limited (unlimited : config.maxPops? = none) (checked : Dependency.checkAll ds = .ok ()) (within : n ≤ k)
    (goesOn : ((initial config ds).advance config n).1 = none) :
    (initial config ds).advance { config with maxPops? := some k } n = (initial config ds).advance config n := by
  induction n with
  | zero => rfl
  | succ n ih =>
    have before := goesOn_of_le goesOn n.le_succ
    have same := ih (Nat.le_of_succ_le within) before
    have fewer : ((initial config ds).advance config n).2.stats.pops < k := by
      rw [pops_of_goesOn (runs_shape config checked) before]
      exact within
    rw [advance_succ before, advance_succ (by rw [same]; exact before), same, step_limited unlimited fewer]

theorem final_limited (unlimited : config.maxPops? = none) (checked : Dependency.checkAll ds = .ok ()) (within : n ≤ k)
    (goesOn : ((initial config ds).advance config n).1 = none) {o : Outcome}
    (ended : ((initial config ds).advance config n).2.step { config with maxPops? := some k } = .error o) :
    final { config with maxPops? := some k } ds = (some o, ((initial config ds).advance config n).2) := by
  have same := advance_limited unlimited checked within goesOn
  have last : (initial config ds).advance { config with maxPops? := some k } (n + 1) =
      (some o, ((initial config ds).advance config n).2) := by
    rw [advance_succ (by rw [same]; exact goesOn), same, ended]
  have start : initial { config with maxPops? := some k } ds = initial config ds := rfl
  rw [final_of_ended checked (n := n + 1) (o := o) (by rw [start, last]), start, last]

end State

/-- A limit on the rules taken off the queue cuts the run without one, that takes off `P` of them. With a limit of `P`
or more it goes on to its end, and its answer is the same; with a lower limit it stops there, and every rule of its
answer is subsumed by a rule of the whole answer. -/
theorem saturate_limited (config : Config) (ds : List Dependency) (checked : Dependency.checkAll ds = .ok ())
    (untimed : config.timeout? = none) (unlimited : config.maxPops? = none) :
    ∃ whole, saturate config ds = .ok whole ∧ whole.outcome = .completed ∧ ∀ k,
      (whole.stats.pops ≤ k → saturate { config with maxPops? := some k } ds = .ok whole) ∧
      (k < whole.stats.pops → ∃ part, saturate { config with maxPops? := some k } ds = .ok part ∧
        part.outcome = .popLimitReached ∧ part.stats.pops = k ∧
        ∀ t ∈ part.fullRules, ∃ g ∈ whole.fullRules, g.subsumes t = true) := by
  have runs := runs_shape config checked
  obtain ⟨o, ended⟩ := State.final_ends config checked
  have stopped := State.final_ended ended
  obtain rfl := State.outcome_of_unlimited untimed unlimited stopped
  have last := State.advance_pops runs ended
  have goesOn : ((State.initial config ds).advance config (State.final config ds).2.stats.pops).1 = none := by rw [last]
  refine ⟨_, saturate_of_checked config checked, by rw [ended]; rfl, fun k => ⟨fun within => ?_, fun fewer => ?_⟩⟩
  · have empty := State.queue_of_completed stopped
    have final := State.final_limited (o := .completed) unlimited checked within goesOn (by rw [last]; simp [State.step, empty])
    rw [saturate_of_checked _ checked, final, last, ended]
    rfl
  · have before := State.goesOn_of_le goesOn (Nat.le_of_lt fewer)
    have limit := State.pops_of_goesOn runs before
    -- More rules were taken off the queue later on, so some wait in it.
    have waits : ((State.initial config ds).advance config k).2.queue ≠ [] := by
      intro empty
      have next := State.goesOn_of_le goesOn fewer
      rw [State.advance_succ before] at next
      simp [State.step, empty] at next
    have final := State.final_limited unlimited checked le_rfl before (State.step_of_limit untimed limit waits)
    refine ⟨_, saturate_of_checked _ checked, by rw [final]; rfl, by rw [final]; exact limit, fun t member => ?_⟩
    rw [final] at member
    have answered : t ∈ ((State.initial config ds).advance config k).2.fullRules config := member
    have later := State.advance_of_goesOn before ((State.final config ds).2.stats.pops - k)
    rw [Nat.add_sub_cancel' (Nat.le_of_lt fewer), last] at later
    have covered := (State.advance_spec k .initial).1.answers checked ((State.final config ds).2.stats.pops - k) answered
    rwa [← later] at covered

/-- A run that takes four rules off the queue needs a limit of four. With a limit of none it answers the seed
`p(u0) ∧ s(u0) → r(u0)`, that a rule of the whole answer subsumes. -/
theorem assorted_limited :
    ∃ whole part, Dependency.checkAll Dependency.assorted = .ok () ∧ saturate {} Dependency.assorted = .ok whole ∧
      whole.stats.pops = 4 ∧ saturate { maxPops? := some 4 } Dependency.assorted = .ok whole ∧
      saturate { maxPops? := some 0 } Dependency.assorted = .ok part ∧ part.outcome = .popLimitReached ∧ part.stats.pops = 0 ∧
      .ofLists [⟨"p", [.var "u0"]⟩, ⟨"s", [.var "u0"]⟩] [⟨"r", [.var "u0"]⟩] ∈ part.fullRules ∧
      .ofLists [⟨"p", [.var "u0"]⟩, ⟨"s", [.var "u0"]⟩] [⟨"r", [.var "u0"]⟩] ∉ whole.fullRules ∧
      ∃ g ∈ whole.fullRules,
        g.subsumes (.ofLists [⟨"p", [.var "u0"]⟩, ⟨"s", [.var "u0"]⟩] [⟨"r", [.var "u0"]⟩]) = true := by
  have checked : Dependency.checkAll Dependency.assorted = .ok () := by decide +kernel
  obtain ⟨whole, ok, -, limited⟩ := saturate_limited {} Dependency.assorted checked rfl rfl
  obtain ⟨-, same⟩ := saturate_eq_ok ok
  have pops : whole.stats.pops = 4 := by
    rw [same]
    decide +kernel
  obtain ⟨part, ok', outcome, none, covered⟩ := (limited 0).2 (by rw [pops]; decide)
  have answered : .ofLists [⟨"p", [.var "u0"]⟩, ⟨"s", [.var "u0"]⟩] [⟨"r", [.var "u0"]⟩] ∈ part.fullRules := by
    obtain ⟨-, same'⟩ := saturate_eq_ok ok'
    rw [same']
    decide +kernel
  refine ⟨whole, part, checked, ok, pops, (limited 4).1 pops.le, ok', outcome, none, answered, ?_, covered _ answered⟩
  rw [same]
  decide +kernel

end GuardedSaturation
