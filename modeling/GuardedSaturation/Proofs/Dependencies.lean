import Mathlib
import GuardedSaturation.Dependency
import GuardedSaturation.Proofs.Folds
import GuardedSaturation.Proofs.Vocabulary

/-! The input contract. The check accepts exactly the inputs that keep it; otherwise its error is about the first
dependency that is at fault, and says which part of the contract that one breaks first. -/
namespace GuardedSaturation

/-- No function symbol occurs in the atom, however deep. -/
def Atom.Plain (a : Atom) : Prop := Term.symbolsAll a.args = []

theorem Term.isFunction_eq_false {t : Term} : t.isFunction = false ↔ t.symbols = [] := by
  cases t <;> simp [isFunction, symbols]

theorem Atom.isFunctional_eq_false_iff_plain {a : Atom} : a.isFunctional = false ↔ a.Plain := by
  simp only [isFunctional_eq_false, Plain, Term.symbolsAll_eq_flatMap, List.flatMap_eq_nil_iff, Term.isFunction_eq_false]

namespace Dependency
variable {d : Dependency} {ds es : List Dependency} {a : Atom} {atoms done : List Atom} {arities : Arities}
  {cause : Cause} {e : Error} {frames : List String} {n : Nat} {p : String}

/-- The contract of one dependency by itself. -/
structure WellFormed (d : Dependency) : Prop where
  plain : ∀ a ∈ d.atoms, a.Plain
  fresh : ∀ x ∈ d.existentials, ∀ a ∈ d.body, x ∉ a.vars

/-- Atoms with the same predicate name have the same arity. -/
def Uniform (atoms : List Atom) : Prop :=
  ∀ a ∈ atoms, ∀ b ∈ atoms, a.predicate = b.predicate → a.args.length = b.args.length

/-- The atoms of an input, in the order in which they are looked at. -/
def allAtoms (ds : List Dependency) : List Atom := ds.flatMap Dependency.atoms

/-- The contract of a whole input. -/
structure Contract (ds : List Dependency) : Prop where
  wellFormed : ∀ d ∈ ds, d.WellFormed
  uniform : Uniform (allAtoms ds)

/-- The arity at the first use of a predicate name. -/
def firstArity (atoms : List Atom) (p : String) : Option Nat := (atoms.find? (·.predicate = p)).map (·.args.length)

/-- What is wrong with a dependency of an input, and the checks that notice it. What it breaks of its own contract comes
before its use of predicates, and of each kind the first fault counts. -/
inductive Complaint (ds : List Dependency) (d : Dependency) : Cause → List String → Prop
  | functional {before after : List Atom} {a : Atom} (split : d.atoms = before ++ a :: after)
      (plain : ∀ b ∈ before, b.Plain) (functional : ¬ a.Plain) :
      Complaint ds d (.malformedInput ("function term in input atom " ++ a.text)) ["Dependency::validate", "check_arities"]
  | existential {before after : List Variable} {x : Variable} (plain : ∀ a ∈ d.atoms, a.Plain)
      (split : d.existentials = before ++ x :: after) (fresh : ∀ y ∈ before, ∀ a ∈ d.body, y ∉ a.vars)
      (used : ∃ a ∈ d.body, x ∈ a.vars) :
      Complaint ds d (.malformedInput ("existential variable " ++ x ++ " also occurs in the body"))
        ["Dependency::validate", "check_arities"]
  | arity {before after : List Atom} {a : Atom} {expected : Nat} (wellFormed : d.WellFormed)
      (split : d.atoms = before ++ a :: after)
      (agree : ∀ b ∈ before, firstArity (allAtoms ds) b.predicate = some b.args.length)
      (first : firstArity (allAtoms ds) a.predicate = some expected) (apart : expected ≠ a.args.length) :
      Complaint ds d (.arityMismatch a.predicate expected a.args.length) ["check_arities"]

theorem validate_cases (d : Dependency) :
    d.validate = .ok () ∧ d.WellFormed ∨
      ∃ cause, d.validate = .error ⟨cause, none⟩ ∧ ∀ ds, Complaint ds d cause ["Dependency::validate", "check_arities"] := by
  have plain (a : Atom) : a.Plain ↔ (!a.isFunctional) = true := by
    rw [← Atom.isFunctional_eq_false_iff_plain, Bool.not_eq_true']
  unfold validate
  split
  · next a found =>
    obtain ⟨functional, before, after, split, earlier⟩ := List.find?_eq_some_iff_append.mp found
    exact .inr ⟨_, rfl, fun ds => .functional split (fun b member => (plain b).mpr (earlier b member)) (by simp [plain, functional])⟩
  · next none =>
    have plain (a : Atom) (member : a ∈ d.atoms) : a.Plain := by
      rw [plain]
      simpa using List.find?_eq_none.mp none a member
    split
    · next x found =>
      obtain ⟨used, before, after, split, earlier⟩ := List.find?_eq_some_iff_append.mp found
      exact .inr ⟨_, rfl, fun ds => .existential plain split (by simpa using earlier) (by simpa using used)⟩
    · next unused =>
      exact .inl ⟨rfl, plain, by simpa using unused⟩

theorem firstArity_append (found : firstArity atoms p = some n) (more : List Atom) : firstArity (atoms ++ more) p = some n := by
  obtain ⟨a, first, rfl⟩ := Option.map_eq_some_iff.mp found
  rw [firstArity, List.find?_append, first]
  rfl

theorem exists_of_firstArity (found : firstArity atoms p = some n) : ∃ a ∈ atoms, a.predicate = p ∧ a.args.length = n := by
  obtain ⟨a, first, rfl⟩ := Option.map_eq_some_iff.mp found
  exact ⟨a, List.mem_of_find?_eq_some first, by simpa using List.find?_some first, rfl⟩

theorem uniform_iff : Uniform atoms ↔ ∀ a ∈ atoms, firstArity atoms a.predicate = some a.args.length := by
  constructor
  · intro uniform a member
    cases first : firstArity atoms a.predicate with
    | none => simpa using List.find?_eq_none.mp (Option.map_eq_none_iff.mp first) a member
    | some n =>
      obtain ⟨b, inside, same, rfl⟩ := exists_of_firstArity first
      rw [uniform b inside a member same]
  · intro agree a first b second same
    exact Option.some.inj ((agree a first).symm.trans (same ▸ agree b second))

/-- The arities of the predicate names that the atoms use. -/
def Tracks (arities : Arities) (atoms : List Atom) : Prop := ∀ p, arities.get? p = firstArity atoms p

theorem use_cases (tracks : Tracks arities atoms) (a : Atom) :
    (∃ arities', arities.use a = .ok arities' ∧ Tracks arities' (atoms ++ [a]) ∧
      firstArity (atoms ++ [a]) a.predicate = some a.args.length) ∨
    ∃ expected, arities.use a = .error ⟨.arityMismatch a.predicate expected a.args.length, none⟩ ∧
      firstArity atoms a.predicate = some expected ∧ expected ≠ a.args.length := by
  unfold Arities.use
  split
  · next unused =>
    have unused := (tracks a.predicate).symm.trans unused
    refine .inl ⟨_, rfl, fun p => ?_, ?_⟩
    · rw [SortedMap.get?_insert, tracks, firstArity, firstArity, List.find?_append]
      split
      · next same =>
        rw [firstArity, Option.map_eq_none_iff] at unused
        simp [same, unused]
      · next apart =>
        simp [Ne.symm apart]
    · rw [firstArity, Option.map_eq_none_iff] at unused
      simp [firstArity, unused]
  · next expected used =>
    have used := (tracks a.predicate).symm.trans used
    split
    · next agrees =>
      subst agrees
      refine .inl ⟨_, rfl, fun p => ?_, firstArity_append used [a]⟩
      rw [tracks]
      by_cases same : a.predicate = p
      · rw [← same, used, firstArity_append used]
      · simp [firstArity, List.find?_append, same]
    · next apart => exact .inr ⟨expected, rfl, used, apart⟩

/-- The uses of predicates in one dependency, after those in the ones before it. -/
theorem useAll_cases (tracks : Tracks arities done) (atoms : List Atom) :
    (∃ arities', atoms.foldlM Arities.use arities = .ok arities' ∧ Tracks arities' (done ++ atoms) ∧
      ∀ a ∈ atoms, firstArity (done ++ atoms) a.predicate = some a.args.length) ∨
    ∃ before a after expected, atoms = before ++ a :: after ∧
      (∀ b ∈ before, firstArity (done ++ atoms) b.predicate = some b.args.length) ∧
      firstArity (done ++ atoms) a.predicate = some expected ∧ expected ≠ a.args.length ∧
      atoms.foldlM Arities.use arities = .error ⟨.arityMismatch a.predicate expected a.args.length, none⟩ := by
  -- The atoms seen agree with the first uses among all so far, and these are what is recorded.
  let I (seen : List Atom) (arities : Arities) : Prop := Tracks arities (done ++ seen) ∧
    ∀ a ∈ seen, firstArity (done ++ seen) a.predicate = some a.args.length
  have step (atoms seen : List Atom) (arities : Arities) (a : Atom) (arities' : Arities) (_ : a ∈ atoms)
      (holds : I seen arities) (ok : arities.use a = .ok arities') : I (seen ++ [a]) arities' := by
    obtain ⟨next, same, tracks, agrees⟩ | ⟨expected, error, -⟩ := use_cases holds.1 a
    · obtain rfl := Except.ok.inj (same.symm.trans ok)
      rw [List.append_assoc] at tracks agrees
      refine ⟨tracks, fun b member => ?_⟩
      rcases List.mem_append.mp member with earlier | last
      · rw [← List.append_assoc]
        exact firstArity_append (holds.2 b earlier) [a]
      · rwa [List.mem_singleton.mp last]
    · simp [error] at ok
  have start : I [] arities := ⟨by simpa using tracks, by simp⟩
  obtain ⟨arities', ok⟩ | ⟨before, a, after, arities', e, rfl, ok, fails, error⟩ := foldlM_cases Arities.use atoms arities
  · obtain ⟨tracks, agree⟩ := foldlM_invariant (step _) start ok
    exact .inl ⟨arities', ok, tracks, agree⟩
  · obtain ⟨tracks, agree⟩ := foldlM_invariant (step _) start ok
    obtain ⟨next, same, -⟩ | ⟨expected, same, first, apart⟩ := use_cases tracks a
    · simp [same] at fails
    · obtain rfl := Except.error.inj (same.symm.trans fails)
      refine .inr ⟨before, a, after, expected, rfl, fun b member => ?_, ?_, apart, error⟩
      · rw [← List.append_assoc]
        exact firstArity_append (agree b member) _
      · rw [← List.append_assoc]
        exact firstArity_append first _

theorem mem_allAtoms : a ∈ allAtoms ds ↔ ∃ d ∈ ds, a ∈ d.atoms := List.mem_flatMap

theorem allAtoms_append (ds es : List Dependency) : allAtoms (ds ++ es) = allAtoms ds ++ allAtoms es := List.flatMap_append

theorem Contract.subset (contract : Contract es) (less : ds ⊆ es) : Contract ds := by
  have atoms {a : Atom} (member : a ∈ allAtoms ds) : a ∈ allAtoms es := by
    obtain ⟨d, inside, member⟩ := mem_allAtoms.mp member
    exact mem_allAtoms.mpr ⟨d, less inside, member⟩
  exact ⟨fun d member => contract.wellFormed d (less member),
    fun a first b second => contract.uniform a (atoms first) b (atoms second)⟩

theorem Complaint.not_contract (complaint : Complaint ds d cause frames) (member : d ∈ ds) : ¬ Contract ds := by
  intro contract
  have wellFormed := contract.wellFormed d member
  cases complaint with
  | functional split _ functional => exact functional (wellFormed.plain _ (by simp [split]))
  | @existential _ _ x _ split _ used =>
    obtain ⟨a, inside, occurs⟩ := used
    exact wellFormed.fresh x (by simp [split]) a inside occurs
  | @arity _ _ a _ _ split _ first apart =>
    obtain ⟨b, inside, same, arity⟩ := exists_of_firstArity first
    have inside' : a ∈ allAtoms ds := mem_allAtoms.mpr ⟨d, member, by simp [split]⟩
    exact apart (arity.symm.trans (contract.uniform b inside a inside' same))

theorem Complaint.append (complaint : Complaint ds d cause frames) (more : List Dependency) :
    Complaint (ds ++ more) d cause frames := by
  cases complaint with
  | functional split plain functional => exact .functional split plain functional
  | existential plain split fresh used => exact .existential plain split fresh used
  | arity wellFormed split agree first apart =>
    refine .arity wellFormed split (fun b member => ?_) ?_ apart
    · rw [allAtoms_append]
      exact firstArity_append (agree b member) _
    · rw [allAtoms_append]
      exact firstArity_append first _

/-- One dependency is checked after others that keep the contract. -/
theorem check_cases (contract : Contract ds) (tracks : Tracks arities (allAtoms ds)) (d : Dependency) (index : Nat) :
    (∃ arities', check arities (d, index) = .ok arities' ∧ Tracks arities' (allAtoms (ds ++ [d])) ∧ Contract (ds ++ [d])) ∨
    ∃ cause frames, check arities (d, index) = .error ⟨cause, some ⟨some index, some d.text, frames⟩⟩ ∧
      Complaint (ds ++ [d]) d cause frames := by
  have atoms : allAtoms (ds ++ [d]) = allAtoms ds ++ d.atoms := by simp [allAtoms]
  rcases validate_cases d with ⟨valid, wellFormed⟩ | ⟨cause, invalid, complaint⟩
  · rcases useAll_cases tracks d.atoms with
      ⟨arities', ok, tracks', agree⟩ | ⟨before, a, after, expected, split, agree, first, apart, error⟩
    · refine .inl ⟨arities', ?_, by rwa [atoms], ?_, ?_⟩
      · simp only [check, valid, ok, Except.mapError, bind, Except.bind]
      · simpa [or_imp, forall_and] using ⟨contract.wellFormed, wellFormed⟩
      · rw [uniform_iff, atoms]
        intro a member
        rcases List.mem_append.mp member with earlier | here
        · exact firstArity_append (uniform_iff.mp contract.uniform a earlier) _
        · exact agree a here
    · rw [← atoms] at agree first
      refine .inr ⟨_, _, ?_, .arity wellFormed split agree first apart⟩
      simp only [check, valid, error, Except.mapError, bind, Except.bind, Error.within]
  · refine .inr ⟨cause, _, ?_, complaint _⟩
    simp only [check, invalid, Except.mapError, bind, Except.bind, Error.within]

/-- The check of an input accepts it, or finds the first dependency that is at fault. -/
theorem checkAll_cases (ds : List Dependency) :
    checkAll ds = .ok () ∧ Contract ds ∨
    ∃ before d after cause frames, ds = before ++ d :: after ∧ Contract before ∧
      checkAll ds = .error ⟨cause, some ⟨some before.length, some d.text, frames⟩⟩ ∧
      Complaint (before ++ [d]) d cause frames := by
  -- The entries done keep the contract, and the first uses in them are recorded.
  let I (done : List (Dependency × Nat)) (arities : Arities) : Prop :=
    Tracks arities (allAtoms (done.map (·.1))) ∧ Contract (done.map (·.1))
  have step (entries done : List (Dependency × Nat)) (arities : Arities) (entry : Dependency × Nat) (arities' : Arities)
      (_ : entry ∈ entries) (holds : I done arities) (ok : check arities entry = .ok arities') :
      I (done ++ [entry]) arities' := by
    obtain ⟨next, same, tracks, contract⟩ | ⟨cause, frames, error, -⟩ := check_cases holds.2 holds.1 entry.1 entry.2
    · obtain rfl := Except.ok.inj (same.symm.trans ok)
      simpa [I] using ⟨tracks, contract⟩
    · simp [error] at ok
  have start : I [] ∅ := ⟨fun p => rfl, ⟨by simp, by simp [Uniform, allAtoms]⟩⟩
  obtain ⟨arities, ok⟩ | ⟨before, ⟨d, index⟩, after, arities, e, split, ok, fails, error⟩ := foldlM_cases check ds.zipIdx ∅
  · have holds := foldlM_invariant (step _) start ok
    simp only [I, List.zipIdx_map_fst] at holds
    exact .inl ⟨by simp only [checkAll, ok, Except.map], holds.2⟩
  · have holds := foldlM_invariant (step _) start ok
    obtain ⟨next, same, -⟩ | ⟨cause, frames, same, complaint⟩ := check_cases holds.2 holds.1 d index
    · simp [same] at fails
    · obtain rfl := Except.error.inj (same.symm.trans fails)
      have inputs : ds = before.map (·.1) ++ d :: after.map (·.1) := by
        rw [← List.zipIdx_map_fst 0 ds, split]
        simp
      have place : index = before.length := by
        have entry : ds.zipIdx[before.length]? = some (d, index) := by simp [split]
        simp only [List.getElem?_zipIdx, Option.map_eq_some_iff] at entry
        obtain ⟨_, -, same⟩ := entry
        simpa using (Prod.mk.inj same).2.symm
      refine .inr ⟨before.map (·.1), d, after.map (·.1), cause, frames, inputs, holds.2, ?_, complaint⟩
      simp only [checkAll, error, Except.map, List.length_map, place]

theorem checkAll_eq_ok_iff : checkAll ds = .ok () ↔ Contract ds := by
  obtain ⟨ok, contract⟩ | ⟨before, d, after, cause, frames, rfl, -, error, complaint⟩ := checkAll_cases ds
  · exact iff_of_true ok contract
  · refine iff_of_false (by simp [error]) ?_
    have wrong := complaint.append after
    rw [← List.append_cons] at wrong
    exact wrong.not_contract (by simp)

/-- The error is about the dependency from which on the input is rejected. -/
def Blames (ds : List Dependency) (e : Error) : Prop :=
  ∃ i d cause frames, ds[i]? = some d ∧ (∀ j, checkAll (ds.take j) = .ok () ↔ j ≤ i) ∧ Complaint ds d cause frames ∧
    e = ⟨cause, some ⟨some i, some d.text, frames⟩⟩

theorem blames_of_checkAll (error : checkAll ds = .error e) : Blames ds e := by
  obtain ⟨ok, -⟩ | ⟨before, d, after, cause, frames, rfl, contract, error', complaint⟩ := checkAll_cases ds
  · simp [ok] at error
  · refine ⟨before.length, d, cause, frames, by simp, fun j => ?_, ?_, Except.error.inj (error.symm.trans error')⟩
    · rw [checkAll_eq_ok_iff]
      constructor
      · intro accepted
        by_contra beyond
        refine complaint.not_contract (by simp) (accepted.subset ?_)
        have reaches : before ++ [d] = (before ++ d :: after).take (before.length + 1) := by
          rw [List.take_length_add_append, List.take_succ_cons, List.take_zero]
        rw [reaches]
        exact List.take_subset_take_left _ (Nat.lt_of_not_le beyond)
      · intro within
        rw [List.take_append_of_le_length within]
        exact contract.subset (List.take_subset j before)
    · have wrong := complaint.append after
      rwa [← List.append_cons] at wrong

/-- The second dependency uses `q` with another arity, and its existential variable stands in its body: this comes first. -/
example : checkAll [⟨[⟨"p", [.var "x"]⟩], [⟨"q", [.var "x"]⟩], []⟩,
      ⟨[⟨"q", [.var "x", .var "y"]⟩], [⟨"p", [.var "x"]⟩], ["y"]⟩] =
    .error ⟨.malformedInput "existential variable y also occurs in the body",
      some ⟨some 1, some "q(x, y) → p(x)", ["Dependency::validate", "check_arities"]⟩⟩ := by decide +kernel

end Dependency
end GuardedSaturation
