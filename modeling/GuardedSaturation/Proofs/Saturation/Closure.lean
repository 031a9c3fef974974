import Mathlib
import GuardedSaturation.Proofs.Saturation.Runs

/-! Completed runs are closed under inference. Between two turns, a pair of stored rules of the
two parts either waits, because one of the rules is in the queue, or has been dealt with: all
its conclusions were admitted. When the queue is empty nothing waits. -/
namespace GuardedSaturation

namespace State
variable {config : Config} {ds : List Dependency} {P : Tgd → Prop} {s s' : State} {id partner : RuleId} {l r mate : Rule}

def Concluded (config : Config) (s : State) (l r : Rule) : Prop :=
  ∀ c ∈ config.algorithm.conclusions l r, Handled config s c

theorem Concluded.grows (concluded : Concluded config s l r) (grows : Grows s s') : Concluded config s' l r :=
  fun c member => (concluded c member).grows grows

/-- Pairs of stored rules wait in the queue or are dealt with. -/
def Settled (config : Config) (s : State) : Prop :=
  ∀ i j l r, i ∈ s.members .left → j ∈ s.members .right → s.catalog.get? i = some l → s.catalog.get? j = some r →
    i ∈ s.queue ∨ j ∈ s.queue ∨ Concluded config s l r

def Drawn (config : Config) (s : State) (r mate : Rule) : Prop := ∀ c ∈ drawn config r mate, Handled config s c

theorem Drawn.grows (all : Drawn config s r mate) (grows : Grows s s') : Drawn config s' r mate :=
  fun c member => (all c member).grows grows

theorem concluded_of_drawn (built : r.Built config.algorithm) {p : Part} (part : config.algorithm.partOf r.tgd = p)
    (all : Drawn config s r mate) :
    match p with
    | .left => Concluded config s r mate
    | .right => Concluded config s mate r := by
  have side := (Algorithm.part_of_built built).trans part
  cases p <;> simpa only [Drawn, drawn, side, Concluded] using all

theorem Grows.member_before (grows : Grows s s') {p : Part} (early : id < s.catalog.size)
    (member : id ∈ s'.members p) : id ∈ s.members p :=
  (grows.members p id member).resolve_right (fun late => absurd late.1 (Nat.not_le_of_lt early))

/-- After a rule has been joined with some partners, all of them that are left have been dealt
with, provided that the rule itself is left. -/
theorem drawn_of_joinAll (consistent : Consistent config P s) (closed : Closed config P) {partners : List RuleId}
    (member : partner ∈ partners) (found : s.catalog.get? id = some r) (found' : s.catalog.get? partner = some mate)
    (meet : Meet config (partners.foldl (join config id) s) r id partner) :
    Drawn config (partners.foldl (join config id) s) r mate := by
  induction partners generalizing s with
  | nil => simp at member
  | cons first partners ih =>
    obtain ⟨consistent', grows⟩ := consistent.join closed id first
    obtain ⟨-, later⟩ := consistent'.joinAll closed id partners
    rcases List.mem_cons.mp member with rfl | member
    · have whole := grows.trans later
      have meets : Meet config s r id partner :=
        ⟨whole.member_before (Catalog.lt_size found) meet.1, whole.member_before (Catalog.lt_size found') meet.2⟩
      obtain ⟨-, -, handled⟩ := (consistent.count _).acceptAll closed (consistent.drawn closed found found' meets)
      have all : Drawn config (s.join config id partner) r mate := by
        rw [(join_eq config found found').1 meets]
        exact handled
      exact all.grows later
    · exact ih consistent' member (grows.catalog _ _ found) (grows.catalog _ _ found') meet

/-- Partners that the index does not offer have no conclusions. -/
theorem drawn_eq_nil (consistent : Consistent config config.algorithm.Shape s) (found : s.catalog.get? id = some r)
    (found' : s.catalog.get? partner = some mate) (meet : Meet config s r id partner)
    (absent : partner ∉ s.partners config r) : drawn config r mate = [] := by
  obtain ⟨built, shape⟩ := consistent.rules id r found
  obtain ⟨built', shape'⟩ := consistent.rules partner mate found'
  have part := consistent.parts _ id r meet.1 found
  have part' := consistent.parts _ partner mate meet.2 found'
  have offered {a b : Atom} (inside : a ∈ config.algorithm.joinAtoms r) (inside' : b ∈ config.algorithm.joinAtoms mate)
      (overlap : a.Overlap b) : False := by
    refine absent (SortedSet.mem_ofList.mpr (List.mem_flatMap.mpr ⟨a, inside, ?_⟩))
    exact (consistent.exact _).indexed.mem_candidates (Collection.mem_entries.mpr ⟨meet.2, mate, found', inside'⟩) overlap
  apply List.eq_nil_iff_forall_not_mem.mpr
  intro c member
  unfold drawn at member
  cases side : config.algorithm.part r <;> simp only [side, Part.other] at member part part'
  · obtain ⟨a, inside, b, inside', overlap⟩ := Algorithm.overlap_of_conclusion built built' part part' shape member
    exact offered inside inside' overlap
  · obtain ⟨a, inside, b, inside', overlap⟩ := Algorithm.overlap_of_conclusion built' built part' part shape' member
    exact offered inside' inside overlap.symm

/-- A rule taken off the queue leaves no pair with it behind. -/
theorem drawn_of_process (consistent : Consistent config config.algorithm.Shape s) (found : s.catalog.get? id = some r)
    (found' : s.catalog.get? partner = some mate) (meet : Meet config (s.process config id) r id partner) :
    Drawn config (s.process config id) r mate := by
  have closed := closed_shape config
  obtain ⟨-, grows⟩ := consistent.process closed id
  have meets : Meet config s r id partner :=
    ⟨grows.member_before (Catalog.lt_size found) meet.1, grows.member_before (Catalog.lt_size found') meet.2⟩
  rcases process_cases config s id with ⟨-, absent⟩ | ⟨r', same, -, result⟩
  · exact absurd meets.1 (absent r found)
  · rw [found, Option.some.injEq] at same
    subst same
    rw [result] at meet ⊢
    by_cases offered : partner ∈ s.partners config r
    · exact drawn_of_joinAll consistent closed (SortedSet.mem_toList.mpr offered) found found' meet
    · intro c member
      rw [drawn_eq_nil consistent found found' meets offered] at member
      cases member

theorem settled_initial (runs : Runs config ds config.algorithm.Shape) : Settled config (initial config ds) := by
  intro i j l r left
  obtain ⟨-, grows, -⟩ := (consistent_opening config ds).acceptAll runs.closed runs.seeds
  rcases grows.members .left i left with old | ⟨-, queued⟩
  · simp [members_opening] at old
  · exact fun _ _ _ => .inl queued

theorem Settled.step (settled : Settled config s) (consistent : Consistent config config.algorithm.Shape s)
    (next : s.step config = .ok s') : Settled config s' := by
  obtain ⟨id, queue, order, -, -, rfl⟩ := step_eq_ok next
  have consistent := consistent.popped queue
  obtain ⟨consistent', grows⟩ := consistent.process (closed_shape config) id
  intro i j l r left right found found'
  -- Rules stored in this turn are in the queue; all others were stored before it.
  rcases grows.members .left i left with left' | ⟨-, queued⟩
  swap
  · exact .inl queued
  rcases grows.members .right j right with right' | ⟨-, queued⟩
  swap
  · exact .inr (.inl queued)
  obtain ⟨l', known⟩ := (consistent.exact .left).known i left'
  obtain ⟨r', known'⟩ := (consistent.exact .right).known j right'
  rw [grows.catalog i l' known, Option.some.injEq] at found
  rw [grows.catalog j r' known', Option.some.injEq] at found'
  subst found found'
  have part := consistent.parts .left i l' left' known
  have part' := consistent.parts .right j r' right' known'
  have built := (consistent.rules i l' known).1
  have built' := (consistent.rules j r' known').1
  have ofLeft (same : i = id) : Concluded config ((s.popped queue).process config id) l' r' := by
    subst same
    refine concluded_of_drawn built part (drawn_of_process consistent known known' ?_)
    rw [Meet, (Algorithm.part_of_built built).trans part]
    exact ⟨left, right⟩
  have ofRight (same : j = id) : Concluded config ((s.popped queue).process config id) l' r' := by
    subst same
    refine concluded_of_drawn built' part' (drawn_of_process consistent known' known ?_)
    rw [Meet, (Algorithm.part_of_built built').trans part']
    exact ⟨right, left⟩
  rw [members_popped] at left' right'
  rcases settled i j l' r' left' right' known known' with waits | waits | concluded
  · rw [order] at waits
    rcases List.mem_cons.mp waits with same | later
    · exact .inr (.inr (ofLeft same))
    · exact .inl (grows.queue i later)
  · rw [order] at waits
    rcases List.mem_cons.mp waits with same | later
    · exact .inr (.inr (ofRight same))
    · exact .inr (.inl (grows.queue j later))
  · have concluded : Concluded config (s.popped queue) l' r' := concluded
    exact .inr (.inr (concluded.grows grows))

theorem Reached.settled (runs : Runs config ds config.algorithm.Shape) (reached : Reached config ds s) :
    Settled config s := by
  induction reached with
  | initial => exact settled_initial runs
  | turn reached next ih => exact ih.step (reached.consistent runs) next

/-- Where the queue has run empty, what is left of every conclusion is in the catalog. -/
theorem Completes.concluded (runs : Runs config ds config.algorithm.Shape) (completes : Completes config ds s)
    {i j : RuleId} (left : i ∈ s.members .left) (right : j ∈ s.members .right)
    (found : s.catalog.get? i = some l) (found' : s.catalog.get? j = some r) : Concluded config s l r := by
  have empty := queue_of_completed completes.ended
  rcases completes.reached.settled runs i j l r left right found found' with waits | waits | concluded
  · simp [empty] at waits
  · simp [empty] at waits
  · exact concluded

theorem Consistent.covers (consistent : Consistent config P s) (found : s.catalog.get? id = some r) :
    s.Covers (config.algorithm.part r) r.tgd := by
  rw [Algorithm.part_of_built (consistent.rules id r found).1]
  exact consistent.covered id r found

end State

/-- Between two admissions of any run, every rule of the catalog is covered in its part and the
index of either part has exactly the join atoms stored there. Once a run has completed, what is left of a
conclusion from two stored rules is a rule of the catalog, and covered in its part. -/
theorem conclusions_covered (config : Config) (ds : List Dependency) (checked : Dependency.checkAll ds = .ok ()) :
    (∀ m, State.Between config ds m →
      (∀ id r, m.catalog.get? id = some r → m.Covers (config.algorithm.part r) r.tgd) ∧
      ∀ p, (m.collection p).index.Holds ((m.collection p).entries m.catalog config.algorithm.joinAtoms)) ∧
    (∀ s, State.Completes config ds s → ∀ i j l r, i ∈ s.members .left → j ∈ s.members .right →
      s.catalog.get? i = some l → s.catalog.get? j = some r →
      ∀ c ∈ config.algorithm.conclusions l r, ∀ rest, c.trimmed config.discardTautologies = some rest →
      ∃ id q, s.catalog.get? id = some q ∧ q.tgd = rest ∧ s.Covers (config.algorithm.part q) rest) ∧
    ∀ result, saturate config ds = .ok result → result.outcome = .completed →
      State.Completes config ds (State.final config ds).2 := by
  have runs := runs_shape config checked
  refine ⟨?_, ?_, fun result ok completed => completes_final ok completed⟩
  · intro m between
    have consistent := between.consistent runs
    exact ⟨fun id r found => consistent.covers found, fun p => (consistent.exact p).indexed⟩
  · intro s completes i j l r left right found found' c member rest kept
    obtain ⟨id, q, known, rfl⟩ := completes.concluded runs left right found found' c member rest kept
    exact ⟨id, q, known, rfl, (completes.reached.consistent runs).covers known⟩

/-- Of a rule that invents a value and one that uses it, the conclusion `p(u0) → r(u0)` is covered. -/
theorem chained_conclusion_covered :
    ∃ result l r, Dependency.checkAll Dependency.chained = .ok () ∧
      saturate {} Dependency.chained = .ok result ∧ result.outcome = .completed ∧
      0 ∈ (State.final {} Dependency.chained).2.members .left ∧ 1 ∈ (State.final {} Dependency.chained).2.members .right ∧
      (State.final {} Dependency.chained).2.catalog.get? 0 = some l ∧
      (State.final {} Dependency.chained).2.catalog.get? 1 = some r ∧
      .ofLists [⟨"p", [.var "u0"]⟩] [⟨"r", [.var "u0"]⟩] ∈ Algorithm.existential.conclusions l r ∧
      ∃ id q, (State.final {} Dependency.chained).2.catalog.get? id = some q ∧
        q.tgd = .ofLists [⟨"p", [.var "u0"]⟩] [⟨"r", [.var "u0"]⟩] ∧
        (State.final {} Dependency.chained).2.Covers (Algorithm.existential.part q)
          (.ofLists [⟨"p", [.var "u0"]⟩] [⟨"r", [.var "u0"]⟩]) := by
  have ok := saturate_of_checked {} checkAll_chained
  have left : 0 ∈ (State.final {} Dependency.chained).2.members .left := by decide +kernel
  have right : 1 ∈ (State.final {} Dependency.chained).2.members .right := by decide +kernel
  let l : Rule := ⟨.ofLists [⟨"p", [.var "u0"]⟩] [⟨"q", [.var "u0", .var "e0"]⟩], ⟨"p", [.var "u0"]⟩, .guarded⟩
  let r : Rule := ⟨.ofLists [⟨"q", [.var "u0", .var "u1"]⟩] [⟨"r", [.var "u0"]⟩], ⟨"q", [.var "u0", .var "u1"]⟩, .guarded⟩
  have found : (State.final {} Dependency.chained).2.catalog.get? 0 = some l := by decide +kernel
  have found' : (State.final {} Dependency.chained).2.catalog.get? 1 = some r := by decide +kernel
  have drawn : .ofLists [⟨"p", [.var "u0"]⟩] [⟨"r", [.var "u0"]⟩] ∈ Algorithm.existential.conclusions l r := by
    decide +kernel
  obtain ⟨-, covered, completes⟩ := conclusions_covered {} Dependency.chained checkAll_chained
  exact ⟨_, l, r, checkAll_chained, ok, completed_chained, left, right, found, found', drawn,
    covered _ (completes _ ok completed_chained) 0 1 l r left right found found' _ drawn _ (by decide +kernel)⟩

end GuardedSaturation
