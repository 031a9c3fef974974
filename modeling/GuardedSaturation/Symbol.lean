/-! Names: variables, and the symbols of predicates and functions. -/
namespace GuardedSaturation
open Std

abbrev Variable := String

/-- The `n`-th variable with a given stem, written stem first and number after it. -/
def Variable.indexed (stem : String) (n : Nat) : Variable := stem ++ toString n

/-- A predicate or function symbol. Symbols of one name and different arities differ. -/
structure Symbol where
  name : String
  arity : Nat
deriving DecidableEq, Inhabited

namespace Symbol

instance : Ord Symbol := ⟨compareLex (compareOn name) (compareOn arity)⟩

instance : TransOrd Symbol := inferInstanceAs (TransCmp (compareLex (compareOn name) (compareOn arity)))

instance : LawfulEqOrd Symbol where
  eq_of_compare {a b} h := by
    obtain ⟨first, second⟩ := Ordering.then_eq_eq.mp h
    cases a; cases b
    simp_all [compareOn]

/-- The symbol with its arity, as in `edge/2`. -/
def signature (s : Symbol) : String := s.name ++ "/" ++ toString s.arity

end Symbol

/-- Falsity is a predicate without arguments and with a name of its own. -/
def falsity : Symbol := ⟨"⊥", 0⟩

end GuardedSaturation
