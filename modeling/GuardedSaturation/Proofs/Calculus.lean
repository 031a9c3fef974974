import Mathlib
import GuardedSaturation.Proofs.Seeds

/-! The calculi: which part a rule belongs to, what its selected atoms are, and that
conclusions from rules of the right shape have it again. -/
namespace GuardedSaturation

namespace Term

theorem compareAllBy_self (weight : Symbol → Nat) {ts : List Term}
    (each : ∀ t ∈ ts, compareBy weight t t = .eq) : compareAllBy weight ts ts = .eq := by
  induction ts with
  | nil => rfl
  | cons t ts ih =>
    obtain ⟨first, rest⟩ := List.forall_mem_cons.mp each
    rw [compareAllBy, first, ih rest]
    rfl

theorem compareBy_self (weight : Symbol → Nat) (t : Term) : compareBy weight t t = .eq := by
  induction t with
  | var x => simp [compareBy]
  | const c => simp [compareBy]
  | app f args ih => simp [compareBy, compareAllBy_self weight ih]

end Term

namespace AtomOrder
variable {o : AtomOrder}

theorem compareNoted_self (a : Atom) : o.compareNoted a a = .eq := by
  simp [compareNoted, Term.compareAllBy_self _ (fun t _ => Term.compareBy_self o.weight t)]

theorem mem_of_mem_maximal {atoms : List Atom} {a : Atom} (member : a ∈ (o.maximal atoms).1) : a ∈ atoms :=
  (List.mem_filter.mp member).1

theorem mem_maximal_of_alone {atoms : List Atom} {a : Atom} (member : a ∈ atoms) (alone : ∀ b ∈ atoms, b = a) :
    a ∈ (o.maximal atoms).1 := by
  refine List.mem_filter.mpr ⟨member, List.all_eq_true.mpr (fun b inside => ?_)⟩
  rw [alone b inside, compareNoted_self]
  rfl

end AtomOrder

namespace Rule

/-- The rule was built for an algorithm from its own dependency. -/
def Built (algorithm : Algorithm) (r : Rule) : Prop :=
  ∃ o o', build algorithm.discipline o r.tgd = .ok (r, o')

variable {algorithm : Algorithm} {r : Rule}

/-- A rule of a selecting tier selects all eligible atoms or the maximal ones. -/
theorem Built.selection_eq (built : r.Built algorithm) (selecting : algorithm ≠ .existential) :
    r.selection? = some (Selection.eligible r.tgd) ∨
      ∃ o : AtomOrder, r.selection? =
        some ⟨(o.maximal (Selection.eligible r.tgd).atoms).1, (Selection.eligible r.tgd).side⟩ := by
  obtain ⟨o, o', built⟩ := built
  cases found : r.tgd.guard with
  | error e => simp [build, found, bind, Except.bind] at built
  | ok g =>
    cases algorithm with
    | existential => contradiction
    | skolem =>
      simp only [build, found, Algorithm.discipline, bind, Except.bind, pure, Except.pure, Except.ok.injEq,
        Prod.mk.injEq] at built
      rw [← built.1]
      exact .inl rfl
    | orderedSkolem =>
      simp only [build, found, Algorithm.discipline, bind, Except.bind, pure, Except.pure, Except.ok.injEq,
        Prod.mk.injEq] at built
      rw [← built.1]
      exact .inr ⟨o, rfl⟩

/-- A rule of a selecting tier selects eligible atoms, on their side; the only atom of a head
is always selected. -/
theorem Built.selection (built : r.Built algorithm) (selecting : algorithm ≠ .existential) :
    ∃ selection, r.selection? = some selection ∧ selection.side = (Selection.eligible r.tgd).side ∧
      (∀ a ∈ selection.atoms, a ∈ (Selection.eligible r.tgd).atoms) ∧
      ∀ h ∈ (Selection.eligible r.tgd).atoms, (∀ b ∈ (Selection.eligible r.tgd).atoms, b = h) →
        h ∈ selection.atoms := by
  obtain whole | ⟨o, maximal⟩ := built.selection_eq selecting
  · exact ⟨_, whole, rfl, fun a member => member, fun h member _ => member⟩
  · exact ⟨_, maximal, rfl, fun a member => AtomOrder.mem_of_mem_maximal member,
      fun h member alone => AtomOrder.mem_maximal_of_alone member alone⟩

end Rule

namespace Selection
variable {t : Tgd}

theorem eligible_head (side : (eligible t).side = .head) :
    t.isFunctionFree = false ∧ t.body.isFunctional = false ∧ (eligible t).atoms = t.head.toList := by
  unfold eligible at *
  split at side
  · cases side
  · next plain =>
    split at side
    · next functional => simp [Tgd.isFunctionFree, functional, plain]
    · cases side

theorem eligible_body (side : (eligible t).side = .body) {a : Atom} (member : a ∈ (eligible t).atoms) :
    a ∈ t.body ∧ (a.isFunctional = true ∨ t.isFunctionFree = true ∧ ∀ x ∈ t.body.vars, x ∈ a.vars) := by
  unfold eligible at *
  split at side
  · next functional =>
    rw [if_pos functional] at member
    obtain ⟨inside, kind⟩ := List.mem_filter.mp member
    exact ⟨inside, .inl kind⟩
  · next plain =>
    split at side
    · cases side
    · next plain' =>
      rw [if_neg plain, if_neg plain'] at member
      obtain ⟨inside, covers⟩ := Tgd.mem_guardCandidates.mp member
      exact ⟨inside, .inr ⟨by simp [Tgd.isFunctionFree, plain, plain'], covers⟩⟩

end Selection

/-- A head that is selected has a function term. -/
theorem Tgd.Resolvable.isFunctional_head {t : Tgd} (shape : t.Resolvable) (side : (Selection.eligible t).side = .head)
    {h : Atom} (head : h ∈ t.head) : h.isFunctional = true := by
  obtain ⟨functional, plain, -⟩ := Selection.eligible_head side
  obtain ⟨only, alone⟩ := shape.single
  by_contra notFunctional
  refine absurd (Tgd.isFunctionFree_eq_true.mpr ⟨AtomSet.isFunctional_eq_false.mp plain, fun a member => ?_⟩)
    (by simp [functional])
  rw [(alone a).mp member, ← (alone h).mp head]
  simpa using notFunctional

namespace Algorithm

def sidePart : Side → Part
  | .head => .left
  | .body => .right

/-- The part that the rule of a dependency belongs to. -/
def partOf (algorithm : Algorithm) (t : Tgd) : Part :=
  match algorithm with
  | .existential => if t.isFull then .right else .left
  | .skolem | .orderedSkolem => sidePart (Selection.eligible t).side

variable {algorithm : Algorithm} {l r : Rule} {t c : Tgd}

theorem part_of_built (built : r.Built algorithm) : algorithm.part r = algorithm.partOf r.tgd := by
  by_cases selecting : algorithm = .existential
  · subst selecting
    rfl
  · obtain ⟨⟨atoms, kind⟩, found, side, -⟩ := built.selection selecting
    have parts : algorithm.part r = sidePart kind := by
      cases algorithm with
      | existential => contradiction
      | skolem | orderedSkolem => cases kind <;> simp [part, found, sidePart]
    rw [parts, show kind = (Selection.eligible r.tgd).side from side]
    cases algorithm with
    | existential => contradiction
    | skolem | orderedSkolem => rfl

theorem partOf_existential_left : partOf .existential t = .left ↔ t.isFull = false := by
  cases full : t.isFull <;> simp [partOf, full]

theorem partOf_existential_right : partOf .existential t = .right ↔ t.isFull = true := by
  cases full : t.isFull <;> simp [partOf, full]

theorem partOf_skolem_left (selecting : algorithm ≠ .existential) :
    algorithm.partOf t = .left ↔ (Selection.eligible t).side = .head := by
  cases algorithm with
  | existential => contradiction
  | skolem | orderedSkolem => cases side : (Selection.eligible t).side <;> simp [partOf, sidePart, side]

theorem partOf_skolem_right (selecting : algorithm ≠ .existential) :
    algorithm.partOf t = .right ↔ (Selection.eligible t).side = .body := by
  cases algorithm with
  | existential => contradiction
  | skolem | orderedSkolem => cases side : (Selection.eligible t).side <;> simp [partOf, sidePart, side]

theorem conclusions_of_selecting (selecting : algorithm ≠ .existential) :
    algorithm.conclusions l r = (resolve l r).map Tgd.canonical := by
  cases algorithm with
  | existential => contradiction
  | skolem | orderedSkolem => rfl

theorem shape_of_selecting (selecting : algorithm ≠ .existential) : algorithm.Shape t ↔ t.Resolvable := by
  cases algorithm with
  | existential => contradiction
  | skolem | orderedSkolem => rfl

theorem joinAtoms_of_selecting (selecting : algorithm ≠ .existential) {selection : Selection}
    (found : r.selection? = some selection) : algorithm.joinAtoms r = selection.atoms := by
  cases algorithm with
  | existential => contradiction
  | skolem | orderedSkolem => simp [joinAtoms, found]

end Algorithm

section Resolve
open Unifier Substitution
variable {producer consumer : Rule} {t : Tgd}

/-- What resolution makes of two rules before those with nested function terms are dropped. -/
def resolvents (producer consumer : Rule) : List Tgd :=
  match consumer.selection? with
  | none => []
  | some selection =>
    let apart := consumer.tgd.renamingApart Evolve.stem producer.tgd
    let renamed := apart.applyTgd consumer.tgd
    (SortedSet.ofList ((selection.atoms.map apart.applyAtom).flatMap (fun selected =>
      producer.head.toList.filterMap (fun head => (mostGeneral ∅ head selected).map (fun σ =>
        σ.applyTgd ⟨producer.body ∪ renamed.body.erase selected, renamed.head⟩))))).toList

theorem resolve_eq_filter (producer consumer : Rule) :
    resolve producer consumer = (resolvents producer consumer).filter (fun t => !t.hasNested) := by
  unfold resolve resolvents
  cases consumer.selection? with
  | none => rfl
  | some selection =>
    refine congrArg SortedSet.toList (SortedSet.ext (t := SortedSet.filter _ _) (fun t => ?_))
    simp only [SortedSet.mem_filter, SortedSet.mem_ofList, List.mem_flatMap, List.mem_filterMap, Option.bind_eq_bind,
      Option.bind_eq_some_iff, Option.map_eq_some_iff, Option.ite_none_left_eq_some, Option.some.injEq, Bool.not_eq_true']
    constructor
    · rintro ⟨s, selected, h, member, σ, found, flat, rfl⟩
      exact ⟨⟨s, selected, h, member, σ, found, rfl⟩, by simpa using flat⟩
    · rintro ⟨⟨s, selected, h, member, σ, found, rfl⟩, flat⟩
      exact ⟨s, selected, h, member, σ, found, by simpa using flat, rfl⟩

/-- A head atom of the producer is unified with a selected atom of the consumer, which goes. -/
def Resolvent (producer consumer : Rule) (t : Tgd) : Prop :=
  ∃ selection, consumer.selection? = some selection ∧ ∃ s ∈ selection.atoms, ∃ h ∈ producer.head, ∃ σ,
    let apart := consumer.tgd.renamingApart Evolve.stem producer.tgd
    let S := apart.applyAtom s
    mostGeneral ∅ h S = some σ ∧
    t = σ.applyTgd ⟨producer.body ∪ (consumer.tgd.renameApart Evolve.stem producer.tgd).body.erase S,
      (consumer.tgd.renameApart Evolve.stem producer.tgd).head⟩

theorem mem_resolvents : t ∈ resolvents producer consumer ↔ Resolvent producer consumer t := by
  unfold resolvents Resolvent
  cases consumer.selection? with
  | none => simp
  | some selection =>
    simp only [SortedSet.mem_toList, SortedSet.mem_ofList, List.mem_flatMap, List.mem_map, List.mem_filterMap,
      exists_exists_and_eq_and, Option.map_eq_some_iff, Option.some.injEq, exists_eq_left', Tgd.renameApart]
    constructor
    · rintro ⟨s, selected, h, member, σ, found, rfl⟩
      exact ⟨s, selected, h, member, σ, found, rfl⟩
    · rintro ⟨s, selected, h, member, σ, found, rfl⟩
      exact ⟨s, selected, h, member, σ, found, rfl⟩

theorem mem_resolve : t ∈ resolve producer consumer ↔ Resolvent producer consumer t ∧ t.hasNested = false := by
  rw [resolve_eq_filter, List.mem_filter, mem_resolvents, Bool.not_eq_true']

end Resolve

namespace Algorithm
variable {algorithm : Algorithm} {l r : Rule} {t c : Tgd}

theorem applyAtom_renamingApart {t other : Tgd} {stem : String} {a : Atom} (member : a ∈ t.body) :
    (t.renamingApart stem other).applyAtom a = a.subst (fun x => .var (t.nameApart stem other x)) :=
  Atom.subst_congr (fun _ inside =>
    Tgd.image_renamingApart (Tgd.mem_vars_of_body (AtomSet.mem_vars_of_mem member inside)))

theorem isFunctional_rename {g : Variable → Variable} (a : Atom) :
    (a.subst (fun x => .var (g x))).isFunctional = a.isFunctional := by
  simp [Atom.isFunctional, Function.comp_def, Tgd.isFunction_rename]

theorem joinable (selecting : algorithm ≠ .existential) (right : r.Built algorithm)
    (leftPart : algorithm.partOf l.tgd = .left) (rightPart : algorithm.partOf r.tgd = .right)
    (leftShape : algorithm.Shape l.tgd) (rightShape : algorithm.Shape r.tgd) {selection : Selection}
    (found : r.selection? = some selection) {s h : Atom} (selected : s ∈ selection.atoms) (head : h ∈ l.head) :
    Tgd.Joinable l.tgd (r.tgd.renameApart Evolve.stem l.tgd) h
      ((r.tgd.renamingApart Evolve.stem l.tgd).applyAtom s) := by
  rw [shape_of_selecting selecting] at leftShape rightShape
  rw [partOf_skolem_left selecting] at leftPart
  rw [partOf_skolem_right selecting] at rightPart
  obtain ⟨selection', found', -, eligible, -⟩ := right.selection selecting
  rw [found, Option.some.injEq] at found'
  subst found'
  obtain ⟨-, plain, -⟩ := Selection.eligible_head leftPart
  obtain ⟨inside, kind⟩ := Selection.eligible_body rightPart (eligible s selected)
  rw [applyAtom_renamingApart inside, Tgd.renameApart_eq]
  refine ⟨leftShape, rightShape.rename, head, leftShape.isFunctional_head leftPart head, AtomSet.isFunctional_eq_false.mp plain,
    AtomSet.mem_subst.mpr ⟨s, inside, rfl⟩, ?_⟩
  rw [isFunctional_rename]
  refine kind.imp id (fun ⟨free, covers⟩ => ⟨Tgd.isFunctionFree_subst free (fun _ => rfl), fun y mentioned => ?_⟩)
  obtain ⟨x, mentioned, image⟩ := AtomSet.mem_vars_subst.mp mentioned
  exact Atom.mem_vars_subst.mpr ⟨x, covers x mentioned, image⟩

/-- How conclusions are drawn: they are the normal forms of the parts of what evolution makes of the rules, or of what
resolution makes of them on two atoms. -/
inductive Draws (algorithm : Algorithm) (l r : Rule) : Tgd → Prop
  | evolution (existential : algorithm = .existential) {t p : Tgd} (evolved : t ∈ evolve l.tgd r.tgd)
      (part : p ∈ t.headParts) : Draws algorithm l r p.canonical
  | resolution (selecting : algorithm ≠ .existential) {h s : Atom} {σ : Substitution}
      (join : Tgd.Joinable l.tgd (r.tgd.renameApart Evolve.stem l.tgd) h s) (unifier : Unifier.mostGeneral ∅ h s = some σ) :
      Draws algorithm l r (σ.applyTgd ⟨l.tgd.body ∪ (r.tgd.renameApart Evolve.stem l.tgd).body.erase s,
        (r.tgd.renameApart Evolve.stem l.tgd).head⟩).canonical

theorem draws_of_mem (right : r.Built algorithm) (leftPart : algorithm.partOf l.tgd = .left)
    (rightPart : algorithm.partOf r.tgd = .right) (leftShape : algorithm.Shape l.tgd) (rightShape : algorithm.Shape r.tgd)
    (member : c ∈ algorithm.conclusions l r) : algorithm.Draws l r c := by
  by_cases selecting : algorithm = .existential
  · subst selecting
    obtain ⟨t, evolved, part⟩ := List.mem_flatMap.mp member
    obtain ⟨p, present, rfl⟩ := List.mem_map.mp part
    exact .evolution rfl evolved present
  · rw [conclusions_of_selecting selecting] at member
    obtain ⟨t, resolved, rfl⟩ := List.mem_map.mp member
    obtain ⟨⟨selection, found, s, selected, h, head, σ, unifier, rfl⟩, -⟩ := mem_resolve.mp resolved
    exact .resolution selecting (joinable selecting right leftPart rightPart leftShape rightShape found selected head) unifier

theorem Shape.conclusion (right : r.Built algorithm)
    (leftPart : algorithm.partOf l.tgd = .left) (rightPart : algorithm.partOf r.tgd = .right)
    (leftShape : algorithm.Shape l.tgd) (rightShape : algorithm.Shape r.tgd)
    (member : c ∈ algorithm.conclusions l r) : algorithm.Shape c := by
  obtain ⟨rfl, evolved, part⟩ | ⟨selecting, join, unifier⟩ :=
    draws_of_mem right leftPart rightPart leftShape rightShape member
  · exact Tgd.Evolvable.conclusion leftShape rightShape (partOf_existential_left.mp leftPart) evolved
      (List.mem_map_of_mem part)
  · exact (shape_of_selecting selecting).mpr (join.resolvable unifier).canonical

end Algorithm
end GuardedSaturation
