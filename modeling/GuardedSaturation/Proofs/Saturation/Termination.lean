import Mathlib
import GuardedSaturation.Proofs.Bounds
import GuardedSaturation.Proofs.Saturation.Invariants

/-! Runs without limits end. All rules of a run are bounded, so the catalog stays small; and the loop takes no more
rules off the queue than the catalog holds. -/
namespace GuardedSaturation

theorem runs_bounded (config : Config) {ds : List Dependency} (checked : Dependency.checkAll ds = .ok ()) :
    State.Runs config ds (Bounded config.algorithm (Seeds.ofInputs config ds)) :=
  ⟨⟨fun _ bounded => bounded.shape, fun _ _ bounded left => bounded.trimmed left,
    fun _ _ _ _ right leftPart rightPart first second member =>
      Bounded.conclusion right leftPart rightPart first second member⟩, fun _ member => Bounded.seed checked member⟩

namespace State
variable {config : Config} {ds : List Dependency} {P : Tgd → Prop} {seeds : List Tgd} {s : State}

/-- The catalog of bounded rules is small. -/
theorem Consistent.size_lt (consistent : Consistent config (Bounded config.algorithm seeds) s) :
    s.catalog.size < 4 ^ Seeds.atomCount seeds := by
  have bounded {t : Tgd} (member : t ∈ s.catalog.rules.toList.map Rule.tgd) : Bounded config.algorithm seeds t := by
    obtain ⟨r, present, rfl⟩ := List.mem_map.mp member
    obtain ⟨id, position, rfl⟩ := Array.mem_iff_getElem.mp (Array.mem_toList_iff.mp present)
    exact (consistent.rules id _ (Array.getElem?_eq_getElem position)).2
  have distinct : (s.catalog.rules.toList.map Rule.tgd).Nodup := by
    apply List.pairwise_iff_getElem.mpr
    intro i j first second before same
    simp only [List.length_map, Array.length_toList, List.getElem_map, Array.getElem_toList] at first second same
    have := consistent.distinct i j _ _ (Array.getElem?_eq_getElem first) (Array.getElem?_eq_getElem second) same
    exact before.ne this
  have counted := length_lt_of_atoms distinct (fun t member a => (bounded member).mem_atomSpace)
    (fun t member => by
      obtain ⟨a, inside, -⟩ := (bounded member).shape.guarded
      exact ⟨a, inside⟩)
  rw [List.length_map, Array.length_toList] at counted
  exact counted.trans_le (Nat.pow_le_pow_right (by norm_num) (Seeds.card_atomSpace seeds))

/-- Rules taken off the queue and rules that wait in it are rules of the catalog. -/
def Paced (s : State) : Prop := s.stats.pops + s.queue.length ≤ s.catalog.size

theorem paced (config : Config) (P : Tgd → Prop) : Invariant config P Paced := by
  refine ⟨fun s f same paced => ?_, fun s id queue order paced => ?_, fun s r o _ paced => ?_, fun s r o _ _ paced _ => ?_⟩
  · rw [Paced, catalog_count, queue_count, count, (same _).1]
    exact paced
  · simp only [Paced, popped, count, order, List.length_cons] at *
    omega
  · simp only [Paced, taken, Catalog.size, Array.size_push] at *
    omega
  · simp only [Paced, stats_stored, queue_stored, catalog_stored, List.length_append, List.length_singleton] at *
    simp only [taken, Catalog.size, Array.size_push] at *
    omega

theorem Reached.pops_lt (checked : Dependency.checkAll ds = .ok ()) (reached : Reached config ds s) :
    s.stats.pops < 4 ^ Seeds.atomCount (Seeds.ofInputs config ds) := by
  have runs := runs_bounded config checked
  have paced : s.Paced := (paced config _).reached runs (Nat.zero_le _) reached
  exact (Nat.le_of_add_right_le paced).trans_lt (reached.consistent runs).size_lt

theorem advance_add (m n : Nat) :
    s.advance config (m + n) = match s.advance config m with
      | (some o, s) => (some o, s)
      | (none, s) => s.advance config n := by
  induction m generalizing s with
  | zero => simp [advance]
  | succ m ih =>
    rw [Nat.succ_add, advance, advance]
    cases s.step config with
    | error o => rfl
    | ok next => exact ih

theorem advance_of_goesOn {m : Nat} (goesOn : (s.advance config m).1 = none) (n : Nat) :
    s.advance config (m + n) = (s.advance config m).2.advance config n := by
  rw [advance_add]
  cases first : s.advance config m with
  | mk outcome s' =>
    rw [first] at goesOn
    rw [show outcome = none from goesOn]

theorem advance_of_ended {m n : Nat} {o : Outcome} (ended : (s.advance config m).1 = some o) (within : m ≤ n) :
    s.advance config n = s.advance config m := by
  obtain ⟨k, rfl⟩ := Nat.exists_eq_add_of_le within
  rw [advance_add]
  cases last : s.advance config m with
  | mk outcome s' =>
    rw [last] at ended
    rw [show outcome = some o from ended]

/-- Turns that end the run go on up to the last state. -/
theorem advance_last {n : Nat} {o : Outcome} (ended : (s.advance config n).1 = some o) :
    ∃ m < n, s.advance config m = (none, (s.advance config n).2) := by
  induction n generalizing s with
  | zero => simp [advance] at ended
  | succ n ih =>
    rw [advance] at ended ⊢
    cases next : s.step config with
    | error o' => exact ⟨0, n.succ_pos, rfl⟩
    | ok s' =>
      simp only [next] at ended ⊢
      obtain ⟨m, fewer, goesOn⟩ := ih ended
      refine ⟨m + 1, Nat.succ_lt_succ fewer, ?_⟩
      simp only [advance, next, goesOn]

/-- The rounds together are one long run of turns. -/
theorem advanceRounds_eq (rounds turns : Nat) :
    s.advanceRounds config rounds turns = s.advance config (turns * (2 ^ rounds - 1)) := by
  induction rounds generalizing s turns with
  | zero => simp [advanceRounds, advance]
  | succ rounds ih =>
    have split : turns * (2 ^ (rounds + 1) - 1) = turns + 2 * turns * (2 ^ rounds - 1) := by
      have : 1 ≤ 2 ^ rounds := Nat.one_le_two_pow
      obtain ⟨k, power⟩ := Nat.exists_eq_add_of_le this
      rw [Nat.pow_succ, power]
      simp only [Nat.add_sub_cancel_left, show (1 + k) * 2 - 1 = 1 + 2 * k by omega]
      ring
    rw [split, advance_add, advanceRounds]
    cases s.advance config turns with
    | mk outcome s => cases outcome <;> simp [ih]

theorem pops_le (config : Config) (P : Tgd → Prop) (n : Nat) : Invariant config P (fun s => n ≤ s.stats.pops) := by
  refine ⟨fun s f same more => ?_, fun s id queue _ more => ?_, fun s r o _ more => more, fun s r o _ _ more _ => ?_⟩
  · simpa only [count, (same _).1] using more
  · exact more.trans (Nat.le_succ _)
  · rw [stats_stored]
    exact more

/-- Every turn takes a rule off the queue. -/
theorem Reached.le_pops (runs : Runs config ds P) (reached : Reached config ds s) {n : Nat}
    (goesOn : (s.advance config n).1 = none) : s.stats.pops + n ≤ (s.advance config n).2.stats.pops := by
  induction n generalizing s with
  | zero => exact le_rfl
  | succ n ih =>
    rw [advance] at goesOn ⊢
    cases next : s.step config with
    | error o => simp [next] at goesOn
    | ok s' =>
      simp only [next] at goesOn ⊢
      have later := ih (reached.turn next) goesOn
      obtain ⟨id, queue, -, -, -, rfl⟩ := step_eq_ok next
      have taken := (pops_le config P (s.stats.pops + 1)).process runs.closed ((reached.consistent runs).popped queue) id le_rfl
      omega

theorem final_eq (config : Config) (ds : List Dependency) :
    final config ds = (initial config ds).advance config (2 ^ rounds config ds - 1) := by
  rw [final, advanceRounds_eq, one_mul]

/-- Every run ends within its rounds. -/
theorem final_ends (config : Config) (checked : Dependency.checkAll ds = .ok ()) : ∃ o, (final config ds).1 = some o := by
  by_contra goesOn
  have unended : (final config ds).1 = none := by simpa [Option.eq_none_iff_forall_not_mem] using goesOn
  have fewer := (final_reached config ds).pops_lt checked
  rw [final_eq] at unended fewer
  -- Each turn took a rule off the queue, so by now it were more rules than the catalog can hold.
  have more := Reached.initial.le_pops (runs_bounded config checked) unended
  have power : 2 ^ rounds config ds = 2 * 4 ^ Seeds.atomCount (Seeds.ofInputs config ds) := by
    rw [rounds, pow_succ, pow_mul, mul_comm]
    norm_num
  omega

/-- A run that ends after some turns has ended so within its rounds. -/
theorem final_of_ended (checked : Dependency.checkAll ds = .ok ()) {n : Nat} {o : Outcome}
    (ended : ((initial config ds).advance config n).1 = some o) : final config ds = (initial config ds).advance config n := by
  obtain ⟨o', last⟩ := final_ends config checked
  rw [final_eq] at last ⊢
  rcases Nat.le_total (2 ^ rounds config ds - 1) n with within | within
  · exact (advance_of_ended last within).symm
  · exact advance_of_ended ended within

/-- A run can be followed in two stages, the second of them from the catalog written out. -/
theorem final_of_stages (checked : Dependency.checkAll ds = .ok ()) {m n : Nat} {catalog : Catalog} {o : Outcome}
    (goesOn : ((initial config ds).advance config m).1 = none)
    (known : ((initial config ds).advance config m).2.catalog = catalog)
    (ended : ({ ((initial config ds).advance config m).2 with catalog }.advance config n).1 = some o) :
    final config ds = { ((initial config ds).advance config m).2 with catalog }.advance config n := by
  subst known
  have whole := advance_of_goesOn goesOn n
  rw [← whole]
  exact final_of_ended checked (by rw [whole]; exact ended)

theorem outcome_of_unlimited {o : Outcome} (untimed : config.timeout? = none) (unlimited : config.maxPops? = none)
    (ended : s.step config = .error o) : o = .completed := by
  cases order : s.queue with
  | nil => simpa [step, order, eq_comm] using ended
  | cons id queue => simp [step, order, timeIsUp, untimed, popsAreUp, unlimited] at ended

end State

/-- Without limits the loop drains its queue after finitely many turns and the run completes. All along the
catalog holds rules from a finite stock only, since no conclusion is wider than the seeds on the left. -/
theorem saturate_completes (config : Config) (ds : List Dependency) (checked : Dependency.checkAll ds = .ok ())
    (untimed : config.timeout? = none) (unlimited : config.maxPops? = none) :
    (∃ turns s, (State.initial config ds).advance config turns = (some .completed, s) ∧ s.queue = [] ∧
      s.stats.pops < 4 ^ Seeds.atomCount (Seeds.ofInputs config ds) ∧
      saturate config ds = .ok { fullRules := s.fullRules config, outcome := .completed, stats := s.stats }) ∧
    ∀ m, State.Between config ds m →
      m.catalog.size < 4 ^ Seeds.atomCount (Seeds.ofInputs config ds) ∧
      ∀ i j l r, m.catalog.get? i = some l → m.catalog.get? j = some r →
        config.algorithm.part l = .left → config.algorithm.part r = .right → ∀ c ∈ config.algorithm.conclusions l r,
        c.Fits (Seeds.left config.algorithm (Seeds.ofInputs config ds)) ∧
        ∀ rest, c.trimmed config.discardTautologies = some rest →
          rest.Fits (Seeds.left config.algorithm (Seeds.ofInputs config ds)) := by
  have runs := runs_bounded config checked
  constructor
  · obtain ⟨o, ended⟩ := State.final_ends config checked
    have stopped := State.final_ended ended
    obtain rfl := State.outcome_of_unlimited untimed unlimited stopped
    refine ⟨2 ^ State.rounds config ds - 1, (State.final config ds).2, ?_, State.queue_of_completed stopped,
      (State.final_reached config ds).pops_lt checked, ?_⟩
    · rw [← ended, ← State.final_eq]
    · rw [saturate_of_checked config checked, ended]
      rfl
  · intro m between
    have consistent := between.consistent runs
    refine ⟨consistent.size_lt, fun i j l r found found' left right c member => ?_⟩
    obtain ⟨built, first⟩ := consistent.rules i l found
    obtain ⟨built', second⟩ := consistent.rules j r found'
    rw [Algorithm.part_of_built built] at left
    rw [Algorithm.part_of_built built'] at right
    obtain ⟨t, rfl, fits⟩ := Bounded.fits_conclusion built' left right first second member
    have fits := (Tgd.narrower_canonical t).fits fits
    exact ⟨fits, fun rest kept => (Tgd.narrower_trimmed kept).fits fits⟩

/-- Saturating two dependencies that join completes, and one conclusion is drawn: with one universal variable, as the
seed on the left has. -/
theorem chained_completes :
    ∃ s : State, saturate {} Dependency.chained = .ok { fullRules := s.fullRules {}, outcome := .completed, stats := s.stats } ∧
      s.queue = [] ∧ Seeds.left .existential (Seeds.ofInputs {} Dependency.chained) =
        [.ofLists [⟨"p", [.var "u0"]⟩] [⟨"q", [.var "u0", .var "e0"]⟩]] := by
  obtain ⟨⟨turns, s, -, empty, -, ok⟩, -⟩ := saturate_completes {} Dependency.chained checkAll_chained rfl rfl
  exact ⟨s, ok, empty, by decide +kernel⟩

end GuardedSaturation
