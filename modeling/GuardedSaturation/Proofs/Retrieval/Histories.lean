import Mathlib
import GuardedSaturation.Proofs.Retrieval

/-! Histories of unification indexes. Whatever was put in and taken out before, both indexes file the pairs that still
stand, each as often as it stands; so they offer every rule that has an atom to unify with, and no rule without one. -/
namespace GuardedSaturation.UnificationIndex

inductive Call where
  | insert (id : RuleId) (a : Atom)
  | remove (id : RuleId) (a : Atom)

def perform (index : UnificationIndex) : Call → UnificationIndex
  | .insert id a => index.insert id a
  | .remove id a => index.remove id a

/-- The index of a strategy after some calls, the first one on the empty index. -/
def ofCalls (strategy : UnificationStrategy) (calls : List Call) : UnificationIndex :=
  calls.foldl perform (empty strategy)

def Call.change (pairs : List (RuleId × Atom)) : Call → List (RuleId × Atom)
  | .insert id a => (id, a) :: pairs
  | .remove id a => pairs.erase (id, a)

/-- The pairs that were put in and not taken out again, each as often as it stands. -/
def standing (calls : List Call) : List (RuleId × Atom) := calls.foldl Call.change []

/-- Every removal undoes an insertion that still stands. -/
inductive Proper : List Call → Prop
  | nil : Proper []
  | insert {calls : List Call} (earlier : Proper calls) (id : RuleId) (a : Atom) : Proper (calls ++ [.insert id a])
  | remove {calls : List Call} (earlier : Proper calls) {id : RuleId} {a : Atom} (stands : (id, a) ∈ standing calls) :
      Proper (calls ++ [.remove id a])

variable {index : UnificationIndex} {entries : List (RuleId × Atom)} {calls : List Call}
  {q : Atom} {id : RuleId}

theorem ofCalls_append (strategy : UnificationStrategy) (calls : List Call) (call : Call) :
    ofCalls strategy (calls ++ [call]) = (ofCalls strategy calls).perform call := by
  rw [ofCalls, List.foldl_append]
  rfl

theorem standing_append (calls : List Call) (call : Call) : standing (calls ++ [call]) = call.change (standing calls) := by
  rw [standing, List.foldl_append]
  rfl

theorem Proper.holds (proper : Proper calls) (strategy : UnificationStrategy) :
    (ofCalls strategy calls).Holds (standing calls) := by
  induction proper with
  | nil => exact holds_empty strategy
  | insert earlier id a ih =>
    rw [ofCalls_append, standing_append]
    exact ih.insert
  | remove earlier stands ih =>
    rw [ofCalls_append, standing_append]
    exact (ih.perm (List.perm_cons_erase stands)).remove

def kind : UnificationIndex → UnificationStrategy
  | .byPredicate _ => .predicate
  | .byPath _ => .path

theorem kind_perform (index : UnificationIndex) (call : Call) : (index.perform call).kind = index.kind := by
  cases index <;> cases call <;> rfl

theorem kind_ofCalls (strategy : UnificationStrategy) (calls : List Call) :
    (ofCalls strategy calls).kind = strategy := by
  induction calls using List.reverseRecOn with
  | nil => cases strategy <;> rfl
  | append_singleton calls call ih => rw [ofCalls_append, kind_perform, ih]

theorem Holds.mem_of_alike (holds : index.Holds entries) (kind : index.kind = .predicate) {a : Atom}
    (member : (id, a) ∈ entries) (alike : a.symbol = q.symbol) : id ∈ index.candidates q := by
  cases index with
  | byPredicate p =>
    rw [candidates, Postings.mem_ids, List.Perm.mem_iff holds, ← alike]
    exact List.mem_map_of_mem (f := fun e : RuleId × Atom => (e.2.symbol, e.1)) member
  | byPath p => cases kind

theorem Holds.isEmpty_iff (holds : index.Holds entries) : index.isEmpty = true ↔ entries = [] := by
  cases index with
  | byPredicate p =>
    rw [isEmpty, Postings.isEmpty, List.isEmpty_iff, ← List.length_eq_zero_iff, List.Perm.length_eq holds,
      List.length_map, List.length_eq_zero_iff]
  | byPath p =>
    rw [isEmpty, Postings.isEmpty, List.isEmpty_iff, ← List.length_eq_zero_iff, List.Perm.length_eq holds,
      List.length_eq_zero_iff, List.flatMap_eq_nil_iff]
    constructor
    · intro none
      -- Every atom has a path, its root.
      apply List.eq_nil_iff_forall_not_mem.mpr
      intro e member
      simpa [Path.ofAtom] using none e member
    · rintro rfl
      simp

/-- After any history of proper calls an index finds each rule that has an atom with an instance in common with the
one asked for, and only rules that have an atom at all, in ascending order; it is empty once nothing stands. Paths
narrow down what is found by predicate. -/
theorem candidates_of_history (calls : List Call) (proper : Proper calls) (q : Atom) :
    (∀ strategy,
      (∀ id a, (id, a) ∈ standing calls → (∃ g h, q.subst g = a.subst h) → id ∈ (ofCalls strategy calls).candidates q) ∧
      (∀ id ∈ (ofCalls strategy calls).candidates q, ∃ a, (id, a) ∈ standing calls) ∧
      ((ofCalls strategy calls).candidates q).toList.Pairwise (· < ·) ∧
      ((ofCalls strategy calls).isEmpty = true ↔ standing calls = [])) ∧
    (ofCalls .path calls).candidates q ⊆ (ofCalls .predicate calls).candidates q := by
  constructor
  · intro strategy
    have holds := proper.holds strategy
    refine ⟨fun id a stands overlap => holds.mem_candidates stands overlap, fun id found => holds.exists_of_candidate found,
      ?_, holds.isEmpty_iff⟩
    exact (SortedSet.ascending _).imp Nat.compare_eq_lt.mp
  · intro id found
    obtain ⟨a, stands, alike⟩ := (proper.holds .path).exists_alike found
    exact (proper.holds .predicate).mem_of_alike (kind_ofCalls _ _) stands alike

/-- A rule that was put in twice and taken out once is found by an atom that it unifies with only after renaming, and
one with another constant in its place is not found by path. -/
theorem candidates_renamed :
    ∃ (calls : List Call) (a q : Atom), a = ⟨"r", [.app "f" [.var "x"], .var "x"]⟩ ∧ q = ⟨"r", [.var "x", .const "c"]⟩ ∧
      calls = [.insert 7 a, .insert 3 ⟨"r", [.var "x", .const "d"]⟩, .insert 7 a, .remove 7 a] ∧ Proper calls ∧
      (7, a) ∈ standing calls ∧ 7 ∈ (ofCalls .path calls).candidates q ∧ 7 ∈ (ofCalls .predicate calls).candidates q ∧
      (ofCalls .path calls).candidates q ⊆ (ofCalls .predicate calls).candidates q ∧
      ((ofCalls .path calls).candidates q).toList = [7] ∧ ((ofCalls .predicate calls).candidates q).toList = [3, 7] := by
  let a : Atom := ⟨"r", [.app "f" [.var "x"], .var "x"]⟩
  let q : Atom := ⟨"r", [.var "x", .const "c"]⟩
  have proper : Proper [.insert 7 a, .insert 3 ⟨"r", [.var "x", .const "d"]⟩, .insert 7 a, .remove 7 a] :=
    (((Proper.nil.insert 7 a).insert 3 ⟨"r", [.var "x", .const "d"]⟩).insert 7 a).remove (by decide +kernel)
  have stands : (7, a) ∈ standing [.insert 7 a, .insert 3 ⟨"r", [.var "x", .const "d"]⟩, .insert 7 a, .remove 7 a] := by
    decide +kernel
  have overlap : ∃ g h, q.subst g = a.subst h :=
    ⟨fun _ => .app "f" [.const "c"], fun _ => .const "c", by decide +kernel⟩
  obtain ⟨each, narrower⟩ := candidates_of_history _ proper q
  exact ⟨_, a, q, rfl, rfl, rfl, proper, stands, (each .path).1 7 a stands overlap, (each .predicate).1 7 a stands overlap,
    narrower, by decide +kernel, by decide +kernel⟩

end GuardedSaturation.UnificationIndex
