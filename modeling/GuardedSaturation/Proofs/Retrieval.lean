import Mathlib
import GuardedSaturation.Proofs.Calculus
import GuardedSaturation.Proofs.Subsumption.Filters
import GuardedSaturation.Retrieval.UnificationIndex

/-! Unification indexes: what they file is exactly the atoms put in and not yet taken out, and
rules are found by every atom that has a common instance with one of theirs. So rules that are
not found have no conclusions. -/
namespace GuardedSaturation

/-- Two atoms, each with variables of its own, have a common instance. -/
def Atom.Overlap (a b : Atom) : Prop := ∃ g h, a.subst g = b.subst h

theorem Atom.Overlap.symm {a b : Atom} (overlap : a.Overlap b) : b.Overlap a := by
  obtain ⟨g, h, same⟩ := overlap
  exact ⟨h, g, same.symm⟩

namespace Postings
variable {κ : Type} [DecidableEq κ] {p : Postings κ} {ks : List κ} {id : RuleId} {rest : List (κ × RuleId)}

theorem withdrawAll_perm (filed : p.filed.Perm (ks.map (·, id) ++ rest)) : (p.withdrawAll ks id).filed.Perm rest := by
  rw [filed_withdrawAll]
  refine (filed.diff_right _).trans ?_
  clear filed
  induction ks with
  | nil => exact .refl _
  | cons k ks ih => simpa using ih

end Postings

namespace UnificationIndex
variable {index : UnificationIndex} {entries entries' : List (RuleId × Atom)} {id : RuleId} {a : Atom}

/-- The index files the atoms of the entries, each as often as it occurs, and nothing else. -/
def Holds (index : UnificationIndex) (entries : List (RuleId × Atom)) : Prop :=
  match index with
  | .byPredicate p => p.filed.Perm (entries.map (fun e => (e.2.symbol, e.1)))
  | .byPath p => p.filed.Perm (entries.flatMap (fun e => (Path.ofAtom e.2).map (·, e.1)))

theorem holds_empty (strategy : UnificationStrategy) : (empty strategy).Holds [] := by
  cases strategy <;> exact .refl _

theorem Holds.perm (holds : index.Holds entries) (perm : entries.Perm entries') : index.Holds entries' := by
  cases index with
  | byPredicate p => exact List.Perm.trans holds (perm.map _)
  | byPath p => exact List.Perm.trans holds (perm.flatMap_right _)

theorem Holds.insert (holds : index.Holds entries) : (index.insert id a).Holds ((id, a) :: entries) := by
  cases index with
  | byPredicate p => exact List.Perm.cons _ holds
  | byPath p =>
    refine (p.filed_fileAll _ id).trans ?_
    rw [List.flatMap_cons]
    exact List.Perm.append_left _ holds

theorem Holds.remove (holds : index.Holds ((id, a) :: entries)) : (index.remove id a).Holds entries := by
  cases index with
  | byPredicate p => exact Postings.withdrawAll_perm (show p.filed.Perm ([a.symbol].map (·, id) ++ _) from holds)
  | byPath p => exact Postings.withdrawAll_perm holds

theorem Holds.insertAll {atoms : List Atom} (holds : index.Holds entries) :
    (atoms.foldl (fun index a => index.insert id a) index).Holds (atoms.map (id, ·) ++ entries) := by
  induction atoms generalizing index entries with
  | nil => exact holds
  | cons a atoms ih => exact (ih holds.insert).perm (by simp [List.perm_middle])

theorem Holds.removeAll {atoms : List Atom} (holds : index.Holds (atoms.map (id, ·) ++ entries)) :
    (atoms.foldl (fun index a => index.remove id a) index).Holds entries := by
  induction atoms generalizing index with
  | nil => exact holds
  | cons a atoms ih => exact ih holds.remove

end UnificationIndex

section Candidates
variable {p : Postings Path} {entries : List (RuleId × Atom)} {id : RuleId} {a q : Atom} {g h : Variable → Term}

/-- Terms with a common instance: one of them is a variable, or both begin alike. -/
theorem Term.head_of_overlap {s t : Term} (same : s.subst g = t.subst h) :
    s.isVariable = true ∨ t.head = .variable ∨ t.head = s.head := by
  cases s with
  | var x => exact .inl rfl
  | const c =>
    cases t with
    | var y => exact .inr (.inl rfl)
    | const d | app f args => simp_all [head]
  | app f args =>
    cases t with
    | var y => exact .inr (.inl rfl)
    | const d => simp at same
    | app e args' =>
      have lengths := congrArg Term.head same
      simp only [subst_app, head, List.length_map] at lengths
      exact .inr (.inr lengths.symm)

/-- Of the paths of an atom only the first one is a root. -/
theorem Path.root_mem_ofAtom {s : Symbol} : Path.root s ∈ Path.ofAtom a ↔ s = a.symbol := by
  simp only [ofAtom, List.mem_cons, Path.root.injEq, List.mem_flatMap, or_iff_left_iff_imp]
  rintro ⟨⟨t, i⟩, -, inside⟩
  cases t <;> simp [ofArgument] at inside

theorem mem_filed (filed : p.filed.Perm (entries.flatMap (fun e => (Path.ofAtom e.2).map (·, e.1))))
    (member : (id, a) ∈ entries) {path : Path} (inside : path ∈ Path.ofAtom a) : (path, id) ∈ p.filed :=
  filed.mem_iff.mpr (List.mem_flatMap.mpr ⟨(id, a), member, List.mem_map_of_mem inside⟩)

theorem mem_ofAtom_argument {t : Term} {i : Nat} (argument : (t, i) ∈ a.args.zipIdx) {path : Path}
    (inside : path ∈ Path.ofArgument a.symbol i t) : path ∈ Path.ofAtom a :=
  List.mem_cons_of_mem _ (List.mem_flatMap.mpr ⟨(t, i), argument, inside⟩)

theorem mem_underFunction (predicate : Symbol) (i : Nat) {f : String} {args args' : List Term}
    (filed : ∀ path ∈ Path.ofArgument predicate i (.app f args'), (path, id) ∈ p.filed)
    (same : (Term.app f args).subst g = (Term.app f args').subst h) :
    id ∈ p.underFunction predicate i f args := by
  simp only [Term.subst_app, Term.app.injEq, true_and] at same
  have length : args.length = args'.length := by simpa using congrArg List.length same
  simp only [Postings.underFunction, SortedSet.mem_filter, Postings.mem_ids, List.all_eq_true, Bool.or_eq_true,
    decide_eq_true_eq]
  refine ⟨?_, fun entry member => ?_⟩
  · rw [length]
    exact filed _ List.mem_cons_self
  · obtain ⟨inner, place⟩ := entry
    obtain ⟨bound, rfl⟩ := List.getElem?_eq_some_iff.mp (List.mk_mem_zipIdx_iff_getElem?.mp member)
    have images : (args[place]).subst g = (args'[place]).subst h := by
      have := congrArg (fun l => l[place]?) same
      simpa [bound, length ▸ bound] using this
    have inner : (Path.inner predicate i ⟨f, args.length⟩ place (args'[place]).head, id) ∈ p.filed := by
      refine filed _ (List.mem_cons_of_mem _ (List.mem_map.mpr ⟨(args'[place], place), ?_, by rw [length]⟩))
      exact List.mk_mem_zipIdx_iff_getElem?.mpr (by simp [length ▸ bound])
    rcases Term.head_of_overlap images with free | free | equal
    · exact .inl (.inl free)
    · exact .inr (free ▸ inner)
    · exact .inl (.inr (equal ▸ inner))

theorem mem_underArgument (predicate : Symbol) (i : Nat) {s t : Term}
    (filed : ∀ path ∈ Path.ofArgument predicate i t, (path, id) ∈ p.filed) (same : s.subst g = t.subst h)
    {matching : SortedSet RuleId} (found : p.underArgument predicate i s = some matching) : id ∈ matching := by
  have head : (Path.argument predicate i t.head, id) ∈ p.filed := filed _ List.mem_cons_self
  cases s with
  | var x => simp [Postings.underArgument] at found
  | const c =>
    simp only [Postings.underArgument, Option.some.injEq] at found
    rw [← found, SortedSet.mem_union, Postings.mem_ids, Postings.mem_ids]
    rcases Term.head_of_overlap same with free | free | equal
    · cases free
    · exact .inr (free ▸ head)
    · rw [equal] at head
      exact .inl head
  | app f args =>
    simp only [Postings.underArgument, Option.some.injEq] at found
    rw [← found, SortedSet.mem_union, Postings.mem_ids]
    cases t with
    | var y => exact .inr head
    | const c => simp at same
    | app e args' =>
      have symbol : f = e := by
        simp only [Term.subst_app, Term.app.injEq] at same
        exact same.1
      subst symbol
      exact .inl (mem_underFunction predicate i filed same)

/-- By path, the rules filed under the predicate that no argument narrows away. -/
theorem UnificationIndex.mem_byPath :
    id ∈ (byPath p).candidates q ↔ (Path.root q.symbol, id) ∈ p.filed ∧ ∀ entry ∈ q.args.zipIdx, ∀ matching,
      p.underArgument q.symbol entry.2 entry.1 = some matching → id ∈ matching := by
  have folded {step : SortedSet RuleId → Term × Nat → SortedSet RuleId}
      (each : ∀ found entry, id ∈ step found entry ↔
        id ∈ found ∧ ∀ matching, p.underArgument q.symbol entry.2 entry.1 = some matching → id ∈ matching)
      (arguments : List (Term × Nat)) (start : SortedSet RuleId) :
      id ∈ arguments.foldl step start ↔ id ∈ start ∧ ∀ entry ∈ arguments, ∀ matching,
        p.underArgument q.symbol entry.2 entry.1 = some matching → id ∈ matching := by
    induction arguments generalizing start with
    | nil => simp
    | cons entry arguments ih => rw [List.foldl_cons, ih, each, List.forall_mem_cons, and_assoc]
  rw [candidates, folded, Postings.mem_ids]
  intro found entry
  cases p.underArgument q.symbol entry.2 entry.1 <;> simp

theorem UnificationIndex.Holds.mem_candidates {index : UnificationIndex} (holds : index.Holds entries)
    (member : (id, a) ∈ entries) (overlap : q.Overlap a) : id ∈ index.candidates q := by
  obtain ⟨g, h, same⟩ := overlap
  have symbol : q.symbol = a.symbol := by simpa using congrArg Atom.symbol same
  cases index with
  | byPredicate p =>
    rw [candidates, Postings.mem_ids, symbol]
    exact (List.Perm.mem_iff holds).mpr (List.mem_map_of_mem (f := fun e : RuleId × Atom => (e.2.symbol, e.1)) member)
  | byPath p =>
    refine mem_byPath.mpr ⟨symbol ▸ mem_filed holds member List.mem_cons_self, fun entry argument matching found => ?_⟩
    obtain ⟨s, i⟩ := entry
    have here := List.mk_mem_zipIdx_iff_getElem?.mp argument
    have images := congrArg (fun b : Atom => b.args[i]?) same
    simp only [Atom.args_subst, List.getElem?_map, here, Option.map_some] at images
    obtain ⟨t, there, equal⟩ := Option.map_eq_some_iff.mp images.symm
    refine mem_underArgument q.symbol i (fun path inside => mem_filed holds member ?_) equal.symm found
    exact mem_ofAtom_argument (List.mk_mem_zipIdx_iff_getElem?.mpr there) (symbol ▸ inside)

theorem UnificationIndex.Holds.exists_alike {index : UnificationIndex} (holds : index.Holds entries)
    (candidate : id ∈ index.candidates q) : ∃ a, (id, a) ∈ entries ∧ a.symbol = q.symbol := by
  cases index with
  | byPredicate p =>
    rw [candidates, Postings.mem_ids, List.Perm.mem_iff holds, List.mem_map] at candidate
    obtain ⟨e, member, same⟩ := candidate
    obtain ⟨symbol, number⟩ := Prod.mk.inj same
    exact ⟨e.2, number ▸ member, symbol⟩
  | byPath p =>
    have root := (mem_byPath.mp candidate).1
    rw [List.Perm.mem_iff holds, List.mem_flatMap] at root
    obtain ⟨e, member, inside⟩ := root
    obtain ⟨path, present, same⟩ := List.mem_map.mp inside
    obtain ⟨rfl, number⟩ := Prod.mk.inj same
    exact ⟨e.2, number ▸ member, (Path.root_mem_ofAtom.mp present).symm⟩

theorem UnificationIndex.Holds.exists_of_candidate {index : UnificationIndex} (holds : index.Holds entries)
    (candidate : id ∈ index.candidates q) : ∃ a, (id, a) ∈ entries := by
  obtain ⟨a, member, -⟩ := holds.exists_alike candidate
  exact ⟨a, member⟩

end Candidates

namespace Algorithm
open Unifier Substitution Evolve
variable {algorithm : Algorithm} {l r : Rule} {c : Tgd}

/-- Rules with a conclusion have join atoms with a common instance. -/
theorem overlap_of_conclusion (left : l.Built algorithm) (right : r.Built algorithm)
    (leftPart : algorithm.partOf l.tgd = .left) (rightPart : algorithm.partOf r.tgd = .right)
    (leftShape : algorithm.Shape l.tgd) (member : c ∈ algorithm.conclusions l r) :
    ∃ a ∈ algorithm.joinAtoms l, ∃ b ∈ algorithm.joinAtoms r, a.Overlap b := by
  by_cases selecting : algorithm = .existential
  · subst selecting
    obtain ⟨t, evolved, -⟩ := List.mem_flatMap.mp member
    obtain ⟨σ, left', pairs, joining, some, -, -⟩ := mem_evolve.mp evolved
    obtain ⟨a, inside, h, head, τ, found⟩ := joining.first_pair some
    rw [Tgd.renameApart_eq] at inside
    obtain ⟨b, present, rfl⟩ := AtomSet.mem_subst.mp (SortedSet.mem_toList.mp inside)
    have equal := mostGeneral_unifies acyclic_empty found
    rw [Atom.subst_subst] at equal
    refine ⟨h, ?_, b, ?_, _, _, equal.symm⟩
    · simp only [joinAtoms, part_of_built left, leftPart]
      exact head
    · simp only [joinAtoms, part_of_built right, rightPart]
      exact present
  · rw [conclusions_of_selecting selecting] at member
    obtain ⟨t, resolved, rfl⟩ := List.mem_map.mp member
    obtain ⟨⟨selection, found, s, selected, h, head, σ, unifier, -⟩, -⟩ := mem_resolve.mp resolved
    have equal := mostGeneral_unifies acyclic_empty unifier
    rw [applyAtom, Atom.subst_subst] at equal
    refine ⟨h, ?_, s, ?_, _, _, equal⟩
    · obtain ⟨selection', found', -, -, covers⟩ := left.selection selecting
      obtain ⟨-, -, atoms⟩ := Selection.eligible_head ((partOf_skolem_left selecting).mp leftPart)
      obtain ⟨only, alone⟩ := ((shape_of_selecting selecting).mp leftShape).single
      rw [joinAtoms_of_selecting selecting found']
      rw [atoms] at covers
      exact covers h head (fun b inside => ((alone b).mp inside).trans ((alone h).mp head).symm)
    · rw [joinAtoms_of_selecting selecting found]
      exact selected

end Algorithm
end GuardedSaturation
