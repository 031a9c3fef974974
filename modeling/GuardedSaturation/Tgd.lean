import GuardedSaturation.AtomSet

/-! Tuple-generating dependencies: rules `body → ∃ existentials. head`. The variables of
the body are universal, those of the head alone existential. -/
namespace GuardedSaturation
open Std

structure Tgd where
  body : AtomSet
  head : AtomSet
deriving DecidableEq, Inhabited

namespace Tgd

instance : Ord Tgd := ⟨compareLex (compareOn body) (compareOn head)⟩

instance : TransOrd Tgd := inferInstanceAs (TransCmp (compareLex (compareOn body) (compareOn head)))

instance : LawfulEqOrd Tgd where
  eq_of_compare {s t} h := by
    obtain ⟨first, second⟩ := Ordering.then_eq_eq.mp h
    have := LawfulEqOrd.eq_of_compare (α := SortedSet Atom) first
    have := LawfulEqOrd.eq_of_compare (α := SortedSet Atom) second
    cases s; cases t
    simp_all

def ofLists (body head : List Atom) : Tgd := ⟨.ofList body, .ofList head⟩

def universals (t : Tgd) : List Variable := t.body.vars

def existentials (t : Tgd) : List Variable := t.head.vars.filter (· ∉ t.universals)

@[simp] theorem mem_existentials {t : Tgd} {x : Variable} :
    x ∈ t.existentials ↔ x ∈ t.head.vars ∧ x ∉ t.universals := by
  simp [existentials]

/-- Universal variables, then existential ones. -/
def vars (t : Tgd) : List Variable := t.universals ++ t.existentials

/-- The body variables that the head mentions too. -/
def frontier (t : Tgd) : List Variable := t.universals.filter (· ∈ t.head.vars)

def isFull (t : Tgd) : Bool := t.head.vars.all (· ∈ t.universals)

theorem isFull_iff {t : Tgd} : t.isFull ↔ t.existentials = [] := by
  simp [isFull, existentials, List.filter_eq_nil_iff]

def isFunctionFree (t : Tgd) : Bool := !t.body.isFunctional && !t.head.isFunctional

def isConstraint (t : Tgd) : Bool := t.head.isFalsity

def hasNested (t : Tgd) : Bool := t.body.any Atom.hasNested || t.head.any Atom.hasNested

def subst (g : Variable → Term) (t : Tgd) : Tgd := ⟨t.body.subst g, t.head.subst g⟩

def text (t : Tgd) : String :=
  t.body.text ++ " → " ++
  (if t.existentials.isEmpty then "" else "∃" ++ ", ".intercalate t.existentials ++ ". ") ++
  t.head.text

end Tgd
end GuardedSaturation
