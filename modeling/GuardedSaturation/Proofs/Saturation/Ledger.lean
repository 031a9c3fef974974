import Mathlib
import GuardedSaturation.Proofs.Saturation.Termination

/-! The books of a run. Every candidate is dropped as a tautology, known already, without a guard, subsumed, or stored
and put into the queue; and every rule put into the queue waits there or was taken off it. So what a run counts adds up
before each turn of its loop and at its end. -/
namespace GuardedSaturation

namespace Collection
variable {c : Collection} {catalog : Catalog} {joinAtoms : Rule → List Atom} {id : RuleId} {r : Rule} {t : Tgd}

theorem Exact.mem_removed (exact : c.Exact catalog joinAtoms) :
    id ∈ (c.removeSubsumed catalog joinAtoms t).1 ↔
      id ∈ c.stored.members ∧ ∃ r, catalog.get? id = some r ∧ t.subsumes r.tgd = true := by
  change id ∈ (c.stored.subsumed catalog t).map Prod.fst ↔ _
  simp only [Subsumer.subsumed_eq exact.stored (c.cataloged catalog), List.mem_map, List.mem_filter, Subsumer.mem_entries]
  constructor
  · rintro ⟨⟨id, r⟩, ⟨⟨member, found⟩, subsumes⟩, rfl⟩
    exact ⟨member, r, found, subsumes⟩
  · rintro ⟨member, r, found, subsumes⟩
    exact ⟨(id, r), ⟨⟨member, found⟩, subsumes⟩, rfl⟩

/-- The rules of a collection are those that a new rule removes, and those that stay. -/
theorem Exact.size_removeSubsumed (exact : c.Exact catalog joinAtoms) (t : Tgd) :
    (c.removeSubsumed catalog joinAtoms t).1.length + (c.removeSubsumed catalog joinAtoms t).2.stored.members.size =
      c.stored.members.size := by
  obtain ⟨-, kept⟩ := exact.removeSubsumed t
  have sublist : (c.removeSubsumed catalog joinAtoms t).1.Sublist c.stored.members.toList :=
    Subsumer.subsumed_sublist exact.stored (c.cataloged catalog)
  -- Neither side has a rule twice, so it is enough that they have the same ones.
  have perm : ((c.removeSubsumed catalog joinAtoms t).1 ++
      (c.removeSubsumed catalog joinAtoms t).2.stored.members.toList).Perm c.stored.members.toList := by
    refine (List.perm_ext_iff_of_nodup ?_ c.stored.members.nodup).mpr (fun id => ?_)
    · refine List.nodup_append.mpr ⟨c.stored.members.nodup.sublist sublist, SortedSet.nodup _, fun i removed j stays same => ?_⟩
      obtain ⟨-, r, found, subsumes⟩ := exact.mem_removed.mp removed
      have := ((kept j).mp stays).2 r (same ▸ found)
      rw [subsumes] at this
      cases this
    · rw [List.mem_append, exact.mem_removed, SortedSet.mem_toList, SortedSet.mem_toList, kept, ← and_or_left]
      refine and_iff_left_of_imp (fun member => ?_)
      obtain ⟨r, found⟩ := exact.known id member
      cases subsumes : t.subsumes r.tgd with
      | true => exact .inl ⟨r, found, subsumes⟩
      | false =>
        refine .inr (fun s known => ?_)
        rw [found, Option.some.injEq] at known
        exact known ▸ subsumes
  simpa [SortedSet.size] using perm.length_eq

theorem Exact.size_insert (exact : c.Exact catalog joinAtoms) (found : catalog.get? id = some r)
    (fresh : id ∉ c.stored.members) (distinct : ∀ j s, catalog.get? j = some s → s.tgd = r.tgd → j = id) :
    (c.insert id r.tgd (joinAtoms r)).stored.members.size = c.stored.members.size + 1 := by
  obtain ⟨-, members⟩ := exact.insert found fresh distinct
  have perm : (c.insert id r.tgd (joinAtoms r)).stored.members.toList.Perm (id :: c.stored.members.toList) := by
    refine (List.perm_ext_iff_of_nodup (SortedSet.nodup _) (List.nodup_cons.mpr ⟨fresh, SortedSet.nodup _⟩)).mpr (fun j => ?_)
    rw [SortedSet.mem_toList, members, List.mem_cons, SortedSet.mem_toList]
  exact perm.length_eq

end Collection

namespace State
variable {config : Config} {ds : List Dependency} {P : Tgd → Prop} {s s' : State} {id : RuleId} {r : Rule} {t : Tgd}
  {ts us : List Tgd} {owed turns : Nat}

def held (s : State) : Nat := (s.members .left).size + (s.members .right).size

theorem held_count (f : Stats → Stats) : (s.count f).held = s.held := by simp only [held, members, collection_count]

theorem held_popped (queue : List RuleId) : (s.popped queue).held = s.held := by simp only [held, members_popped]

theorem held_taken (r : Rule) (o : AtomOrder) : (s.taken r o).held = s.held := by simp only [held, members, collection_taken]

def removedBy (config : Config) (s : State) (r : Rule) : Nat :=
  ((s.collection (config.algorithm.part r)).removeSubsumed s.catalog config.algorithm.joinAtoms r.tgd).1.length

theorem Pending.held_stored (pending : Pending config P s id r) :
    (s.stored config id r).held + s.removedBy config r = s.held + 1 := by
  have exact := pending.exact (config.algorithm.part r)
  obtain ⟨smaller, kept⟩ := exact.removeSubsumed r.tgd
  have here : ((s.stored config id r).members (config.algorithm.part r)).size + s.removedBy config r =
      (s.members (config.algorithm.part r)).size + 1 := by
    have inserts := smaller.size_insert pending.found (fun member => pending.absent _ ((kept id).mp member).1)
      (fun j q found same => pending.distinct j id q r found pending.found same)
    have removes := exact.size_removeSubsumed r.tgd
    rw [members, collection_stored, if_pos rfl, inserts, removedBy, members]
    omega
  have elsewhere (p : Part) (other : p ≠ config.algorithm.part r) : (s.stored config id r).members p = s.members p := by
    rw [members, collection_stored, if_neg other, members]
  cases side : config.algorithm.part r with
  | left =>
    rw [side] at here elsewhere
    rw [held, held, elsewhere .right (by decide)]
    omega
  | right =>
    rw [side] at here elsewhere
    rw [held, held, elsewhere .left (by decide)]
    omega

/-- What the entry of a rule does to the books: the rule is known, subsumed, or stored in place of others. -/
structure Enters (s s' : State) (known subsumed stored removed : Nat) : Prop where
  stats : s'.stats = { s.stats with
    duplicates := s.stats.duplicates + known, subsumed := s.stats.subsumed + subsumed, removed := s.stats.removed + removed }
  queue : s'.queue.length = s.queue.length + stored
  catalog : s'.catalog.size = s.catalog.size + (subsumed + stored)
  held : s'.held + removed = s.held + stored
  once : known + subsumed + stored = 1

theorem Consistent.enters (consistent : Consistent config P s) (closed : Closed config P) (good : P t) :
    ∃ known subsumed stored removed, Enters s (s.enter config t) known subsumed stored removed := by
  obtain ⟨id, -, result⟩ | ⟨r, o, o', new, -, -, rfl, built, result⟩ := enter_cases closed good s
  · exact ⟨1, 0, 0, 0, by rw [result]; exact ⟨rfl, rfl, rfl, held_count _, rfl⟩⟩
  · have pending := consistent.pending built good new o'
    have size : (s.taken r o').catalog.size = s.catalog.size + 1 := Array.size_push _
    rw [result, settle_eq]
    split
    · exact ⟨0, 1, 0, 0, rfl, rfl, size, (held_count _).trans (held_taken r o'), rfl⟩
    · refine ⟨0, 0, 1, (s.taken r o').removedBy config r, stats_stored, ?_, ?_, ?_, rfl⟩
      · rw [queue_stored, List.length_append]
        rfl
      · rw [catalog_stored, size]
      · rw [pending.held_stored, held_taken]

/-- The number of candidates that are dropped as a whole, for their bodies grant their heads. -/
def dropped (discard : Bool) (ts : List Tgd) : Nat := ts.countP (fun t => (t.trimmed discard).isNone)

/-- The books are in order after some candidates and turns, with some conclusions drawn that are still to be admitted. -/
structure Booked (config : Config) (ds : List Dependency) (ts : List Tgd) (owed turns : Nat) (s : State) : Prop where
  inputs : s.stats.inputs = ds.length
  nonTgd : s.stats.discardedNonTgd = ds.countP (fun d => !d.isTgd)
  unguarded : s.stats.discardedUnguarded = ds.countP (fun d => d.isTgd && d.toTgd.guard?.isNone)
  pops : s.stats.pops = turns
  candidates : s.stats.seeds + s.stats.generated = ts.length + owed
  exits : ts.length = dropped config.discardTautologies ts + s.stats.duplicates + s.stats.unguardedResolvents +
    s.stats.subsumed + s.stats.pops + s.queue.length
  tautologies : dropped config.discardTautologies ts ≤ s.stats.tautologies
  stored : s.held + s.stats.removed = s.stats.pops + s.queue.length
  catalog : s.catalog.size = s.stats.subsumed + s.stats.pops + s.queue.length

theorem booked_opening (config : Config) (ds : List Dependency) :
    Booked config ds [] (Seeds.ofInputs config ds).length 0 (opening config ds) := by
  have none : (opening config ds).held = 0 := by simp [held, members_opening, SortedSet.size]
  exact ⟨rfl, rfl, rfl, rfl, by simp [opening, Seeds.stats], rfl, Nat.zero_le _, none, rfl⟩

theorem dropped_append (discard : Bool) (ts us : List Tgd) :
    dropped discard (ts ++ us) = dropped discard ts + dropped discard us := List.countP_append

theorem dropped_eq_zero (ts : List Tgd) : dropped false ts = 0 :=
  List.countP_eq_zero.mpr (fun _ _ => Bool.false_ne_true)

theorem Booked.drop (booked : Booked config ds ts (owed + 1) turns s) (nothing : t.trimmed config.discardTautologies = none) :
    Booked config ds (ts ++ [t]) owed turns (s.tallied config t) := by
  have one : dropped config.discardTautologies [t] = 1 := by simp [dropped, nothing]
  have loses : loses config.discardTautologies t = true := by
    cases discard : config.discardTautologies with
    | false => simp [discard, Tgd.trimmed] at nothing
    | true =>
      have : t.withoutTautology = none := by simpa [discard, Tgd.trimmed] using nothing
      simp [State.loses, this]
  rw [State.tallied, if_pos loses]
  obtain ⟨inputs, nonTgd, unguarded, pops, candidates, exits, tautologies, stored, catalog⟩ := booked
  refine ⟨inputs, nonTgd, unguarded, pops, ?_, ?_, ?_, ?_, catalog⟩
  · simp only [count, List.length_append, List.length_singleton]
    omega
  · simp only [count, List.length_append, List.length_singleton, dropped_append, one]
    omega
  · simp only [count, dropped_append, one]
    omega
  · rw [held_count]
    exact stored

theorem Booked.tallied (booked : Booked config ds ts owed turns s) (t : Tgd) :
    Booked config ds ts owed turns (s.tallied config t) := by
  unfold State.tallied
  split
  -- Tautologies are counted also where a part of the head remains.
  · exact { booked with
      tautologies := booked.tautologies.trans (Nat.le_succ _)
      stored := by rw [held_count]; exact booked.stored }
  · exact booked

theorem Booked.enters {known subsumed stored removed : Nat} (booked : Booked config ds ts (owed + 1) turns s)
    (some : (t.trimmed config.discardTautologies).isSome) (enters : Enters s s' known subsumed stored removed) :
    Booked config ds (ts ++ [t]) owed turns s' := by
  have none : dropped config.discardTautologies [t] = 0 := by simp [dropped, Option.isSome_iff_ne_none.mp some]
  obtain ⟨stats, queue, size, held, once⟩ := enters
  obtain ⟨inputs, nonTgd, unguarded, pops, candidates, exits, tautologies, holds, catalog⟩ := booked
  refine ⟨?_, ?_, ?_, ?_, ?_, ?_, ?_, ?_, ?_⟩ <;>
    simp only [stats, queue, size, List.length_append, List.length_singleton, dropped_append, none] <;> omega

theorem Booked.accept (booked : Booked config ds ts (owed + 1) turns s) (consistent : Consistent config P s)
    (closed : Closed config P) (good : P t) : Booked config ds (ts ++ [t]) owed turns (s.accept config t) := by
  rw [accept_eq]
  cases left : t.trimmed config.discardTautologies with
  | none => exact booked.drop left
  | some rest =>
    have consistent : Consistent config P (s.tallied config t) := by
      obtain ⟨f, same⟩ := tallied_cases config s t
      rw [same]
      exact consistent.count f
    obtain ⟨known, subsumed, stored, removed, enters⟩ := consistent.enters closed (closed.trimmed t rest good left)
    exact (booked.tallied t).enters (by simp [left]) enters

theorem Booked.acceptAll (booked : Booked config ds ts (owed + us.length) turns s) (consistent : Consistent config P s)
    (closed : Closed config P) (good : ∀ t ∈ us, P t) : Booked config ds (ts ++ us) owed turns (s.acceptAll config us) := by
  induction us generalizing ts s with
  | nil =>
    rw [List.append_nil]
    exact booked
  | cons t us ih =>
    obtain ⟨here, later⟩ := List.forall_mem_cons.mp good
    have next := ih (booked.accept consistent closed here) (consistent.accept closed here).1 later
    rwa [List.append_assoc] at next

def joined (config : Config) (id : RuleId) (s : State) (partner : RuleId) : List Tgd :=
  match s.catalog.get? id, s.catalog.get? partner with
  | some r, some mate =>
    let p := config.algorithm.part r
    if s.stores p id && s.stores p.other partner then drawn config r mate else []
  | _, _ => []

def joinedAll (config : Config) (id : RuleId) : State → List RuleId → List Tgd
  | _, [] => []
  | s, partner :: partners => s.joined config id partner ++ joinedAll config id (s.join config id partner) partners

def turned (config : Config) (s : State) : List Tgd :=
  match s.queue with
  | [] => []
  | id :: queue =>
    let p := s.popped queue
    match p.catalog.get? id with
    | some r => if p.stores (config.algorithm.part r) id then p.joinedAll config id (p.partners config r).toList else []
    | none => []

def turnedAll (config : Config) : Nat → State → List Tgd
  | 0, _ => []
  | n + 1, s => match s.step config with
    | .error _ => []
    | .ok next => s.turned config ++ turnedAll config n next

/-- All candidates that a run admits up to some turn: the seeds, then the conclusions in the order in which they are
drawn. -/
def candidates (config : Config) (ds : List Dependency) (turns : Nat) : List Tgd :=
  Seeds.ofInputs config ds ++ (initial config ds).turnedAll config turns

theorem Booked.noted (booked : Booked config ds ts owed turns s) (r mate : Rule) :
    Booked config ds ts (owed + (drawn config r mate).length) turns (s.noted config r mate) :=
  { booked with
    candidates := by simp only [State.noted, count, ← Nat.add_assoc, booked.candidates]
    stored := by rw [State.noted, held_count]; exact booked.stored }

theorem Booked.join (booked : Booked config ds ts owed turns s) (consistent : Consistent config P s)
    (closed : Closed config P) (id partner : RuleId) :
    Booked config ds (ts ++ s.joined config id partner) owed turns (s.join config id partner) := by
  cases found : s.catalog.get? id with
  | none =>
    rw [join_of_unknown (.inl found), joined, found, List.append_nil]
    exact booked
  | some r =>
    cases found' : s.catalog.get? partner with
    | none =>
      rw [join_of_unknown (.inr found'), joined, found, found', List.append_nil]
      exact booked
    | some mate =>
      by_cases meet : Meet config s r id partner
      · rw [(join_eq config found found').1 meet]
        simp only [joined, found, found', if_pos (stores_iff_meet.mpr meet)]
        exact (booked.noted r mate).acceptAll (consistent.count _) closed (consistent.drawn closed found found' meet)
      · rw [(join_eq config found found').2 meet]
        simp only [joined, found, found', if_neg (mt stores_iff_meet.mp meet), List.append_nil]
        exact booked

theorem Booked.joinAll (booked : Booked config ds ts owed turns s) (consistent : Consistent config P s)
    (closed : Closed config P) (id : RuleId) (partners : List RuleId) :
    Booked config ds (ts ++ s.joinedAll config id partners) owed turns (partners.foldl (State.join config id) s) := by
  induction partners generalizing ts s with
  | nil =>
    rw [joinedAll, List.append_nil]
    exact booked
  | cons partner partners ih =>
    rw [joinedAll, ← List.append_assoc]
    exact ih (booked.join consistent closed id partner) (consistent.join closed id partner).1

theorem Booked.popped {id : RuleId} {queue : List RuleId} (booked : Booked config ds ts owed turns s)
    (order : s.queue = id :: queue) : Booked config ds ts owed (turns + 1) (s.popped queue) := by
  have length : s.queue.length = queue.length + 1 := by rw [order, List.length_cons]
  obtain ⟨inputs, nonTgd, unguarded, pops, candidates, exits, tautologies, stored, catalog⟩ := booked
  refine ⟨inputs, nonTgd, unguarded, congrArg (· + 1) pops, candidates, ?_, tautologies, ?_, ?_⟩
  · simp only [State.popped, count]
    omega
  · rw [held_popped]
    simp only [State.popped, count]
    omega
  · simp only [State.popped, count]
    omega

theorem Booked.turned (booked : Booked config ds ts owed turns s) (consistent : Consistent config P s)
    (closed : Closed config P) (next : s.step config = .ok s') :
    Booked config ds (ts ++ s.turned config) owed (turns + 1) s' := by
  obtain ⟨id, queue, order, -, -, rfl⟩ := step_eq_ok next
  have booked := booked.popped order
  simp only [State.turned, order]
  obtain ⟨same, absent⟩ | ⟨r, found, stored, result⟩ := process_cases config (s.popped queue) id
  -- A rule that was removed while it waited gives no candidates.
  · rw [same]
    cases found : (s.popped queue).catalog.get? id with
    | none => simpa using booked
    | some r => simpa only [if_neg (mt stores_iff_mem.mp (absent r found)), List.append_nil] using booked
  · rw [result]
    simp only [found, if_pos (stores_iff_mem.mpr stored)]
    exact booked.joinAll (consistent.popped queue) closed id _

theorem Booked.advance (booked : Booked config ds ts owed turns s) (runs : Runs config ds P) (reached : Reached config ds s)
    {n : Nat} (goesOn : (s.advance config n).1 = none) :
    Booked config ds (ts ++ s.turnedAll config n) owed (turns + n) (s.advance config n).2 := by
  -- Turn by turn from the first one, with the candidates so far before those of the turns to come.
  induction n generalizing ts turns s with
  | zero =>
    rw [turnedAll, List.append_nil]
    exact booked
  | succ n ih =>
    rw [State.advance] at goesOn ⊢
    rw [turnedAll]
    cases next : s.step config with
    | error o => simp [next] at goesOn
    | ok s' =>
      simp only [next] at goesOn ⊢
      have later := ih (booked.turned (reached.consistent runs) runs.closed next) (reached.turn next) goesOn
      rwa [List.append_assoc, Nat.add_assoc, Nat.add_comm 1 n] at later

theorem booked_initial (runs : Runs config ds P) : Booked config ds (Seeds.ofInputs config ds) 0 0 (initial config ds) := by
  have opened := booked_opening config ds
  rw [← Nat.zero_add (Seeds.ofInputs config ds).length] at opened
  exact opened.acceptAll (consistent_opening config ds) runs.closed runs.seeds

theorem pops_of_goesOn (runs : Runs config ds P) {n : Nat} (goesOn : ((initial config ds).advance config n).1 = none) :
    ((initial config ds).advance config n).2.stats.pops = n :=
  ((booked_initial runs).advance runs .initial goesOn).pops.trans (Nat.zero_add n)

/-- A run that is over has made as many turns as it took rules off the queue. -/
theorem advance_pops (runs : Runs config ds P) {o : Outcome} (ended : (final config ds).1 = some o) :
    (initial config ds).advance config (final config ds).2.stats.pops = (none, (final config ds).2) := by
  rw [final_eq] at ended ⊢
  obtain ⟨n, -, last⟩ := advance_last ended
  have pops := pops_of_goesOn (n := n) runs (by rw [last])
  rw [last] at pops
  rw [pops, last]

theorem booked_final (runs : Runs config ds P) {o : Outcome} (ended : (final config ds).1 = some o) :
    Booked config ds (candidates config ds (final config ds).2.stats.pops) 0 (final config ds).2.stats.pops
      (final config ds).2 := by
  have last := advance_pops runs ended
  have booked := (booked_initial runs).advance (n := (final config ds).2.stats.pops) runs .initial (by rw [last])
  rwa [last, Nat.zero_add] at booked

end State

/-- An input is left out for want of a head or of a guard, or it is expanded into seeds. -/
theorem Seeds.length_accepted (ds : List Dependency) :
    ds.length = ds.countP (fun d => !d.isTgd) + ds.countP (fun d => d.isTgd && d.toTgd.guard?.isNone) +
      (accepted ds).length := by
  induction ds with
  | nil => rfl
  | cons d ds ih =>
    rw [accepted] at ih ⊢
    cases head : d.isTgd <;> cases guard : d.toTgd.guard? <;> simp [head, guard] <;> omega

/-- Every candidate of a completed run is accounted for: it was a tautology as a whole, known, without a guard,
subsumed, or stored and later taken off the queue. Rules are lost from the store only by removal. -/
theorem saturate_accounts (config : Config) (ds : List Dependency) {result : Saturation}
    (ok : saturate config ds = .ok result) (completed : result.outcome = .completed) :
    let n := result.stats
    let s := (State.final config ds).2
    let ts := State.candidates config ds n.pops
    let d := State.dropped config.discardTautologies ts
    ts.length = n.seeds + n.generated ∧
      n.seeds + n.generated = d + n.duplicates + n.unguardedResolvents + n.subsumed + n.pops ∧
      d ≤ n.tautologies ∧ (config.discardTautologies = false → d = 0) ∧
      n.removed ≤ n.pops ∧ s.held = n.pops - n.removed ∧
      s.catalog.size = n.subsumed + n.pops ∧
      n.inputs = n.discardedNonTgd + n.discardedUnguarded + (Seeds.accepted ds).length := by
  intro n s ts d
  have empty : s.queue = [] := State.queue_of_completed (completes_final ok completed).ended
  obtain ⟨checked, same⟩ := saturate_eq_ok ok
  have stats : s.stats = n := by simp only [n, same, s]
  obtain ⟨o, ended⟩ := State.final_ends config checked
  have booked : State.Booked config ds (State.candidates config ds s.stats.pops) 0 s.stats.pops s :=
    State.booked_final (runs_shape config checked) ended
  rw [stats] at booked
  obtain ⟨inputs, nonTgd, unguarded, -, candidates, exits, tautologies, stored, catalog⟩ := booked
  simp only [stats, empty, List.length_nil] at inputs nonTgd unguarded candidates exits tautologies stored catalog
  refine ⟨candidates.symm, candidates.trans exits, tautologies, fun keeps => ?_, ?_, ?_, catalog, ?_⟩
  · simp only [d, keeps]
    exact State.dropped_eq_zero ts
  · omega
  · omega
  · rw [inputs, nonTgd, unguarded]
    exact Seeds.length_accepted ds

/-- Two dependencies that join, among a tautology, a copy, a rule that is subsumed, a rule that a conclusion
removes, a rule without a guard and a rule without a head. -/
def Dependency.assorted : List Dependency := Dependency.chained ++
  [⟨[⟨"p", [.var "x"]⟩], [⟨"p", [.var "x"]⟩], []⟩,
   ⟨[⟨"p", [.var "x"]⟩, ⟨"s", [.var "x"]⟩], [⟨"r", [.var "x"]⟩], []⟩,
   ⟨[⟨"p", [.var "y"]⟩], [⟨"q", [.var "y", .var "z"]⟩], ["z"]⟩,
   ⟨[⟨"q", [.var "x", .var "y"]⟩, ⟨"s", [.var "x"]⟩], [⟨"r", [.var "x"]⟩], []⟩,
   ⟨[⟨"p", [.var "x"]⟩, ⟨"s", [.var "y"]⟩], [⟨"q", [.var "x", .var "y"]⟩], []⟩,
   ⟨[⟨"p", [.var "x"]⟩], [], []⟩]

/-- Of ten candidates one is a tautology, four are known, one is subsumed and four are taken off the queue. -/
theorem assorted_accounts : ∃ result, saturate {} Dependency.assorted = .ok result ∧ result.outcome = .completed ∧
    (State.candidates {} Dependency.assorted result.stats.pops).length = 1 + 4 + 0 + 1 + 4 ∧
    (State.final {} Dependency.assorted).2.held = 4 - 1 ∧ (State.final {} Dependency.assorted).2.catalog.size = 1 + 4 ∧
    8 = 1 + 1 + (Seeds.accepted Dependency.assorted).length := by
  have ok := saturate_of_checked {} (show Dependency.checkAll Dependency.assorted = .ok () by decide +kernel)
  obtain ⟨candidates, exits, -, -, -, held, catalog, inputs⟩ := saturate_accounts {} Dependency.assorted ok (by decide +kernel)
  have stats : (State.final {} Dependency.assorted).2.stats =
      { inputs := 8, discardedUnguarded := 1, discardedNonTgd := 1, seeds := 6, pops := 4, inferences := 2, generated := 4,
        duplicates := 4, tautologies := 1, subsumed := 1, removed := 1 } := by decide +kernel
  have dropped : State.dropped true (State.candidates {} Dependency.assorted 4) = 1 := by decide +kernel
  have accounts := candidates.trans exits
  simp only [stats, dropped] at accounts held catalog inputs
  refine ⟨_, ok, by decide +kernel, ?_, held, catalog, inputs⟩
  simpa only [stats] using accounts

end GuardedSaturation
