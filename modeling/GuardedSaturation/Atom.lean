import GuardedSaturation.Error
import GuardedSaturation.Term.Order

/-! Atoms: a predicate name over terms. The arity of the predicate is the number of terms. -/
namespace GuardedSaturation
open Std

structure Atom where
  predicate : String
  args : List Term
deriving DecidableEq, Inhabited

namespace Atom

def symbol (a : Atom) : Symbol := ⟨a.predicate, a.args.length⟩

/-- By predicate name, arity, and terms from left to right. -/
instance : Ord Atom := ⟨compareLex (compareOn symbol) (compareOn args)⟩

instance : TransOrd Atom := inferInstanceAs (TransCmp (compareLex (compareOn symbol) (compareOn args)))

instance : LawfulEqOrd Atom where
  eq_of_compare {a b} h := by
    obtain ⟨first, second⟩ := Ordering.then_eq_eq.mp h
    have := LawfulEqOrd.eq_of_compare (α := Symbol) first
    have := LawfulEqOrd.eq_of_compare (α := List Term) second
    cases a; cases b
    simp_all [symbol]

def falsity : Atom := ⟨"⊥", []⟩

def isFalsity (a : Atom) : Bool := a.symbol = GuardedSaturation.falsity

def text (a : Atom) : String :=
  if a.args.isEmpty then a.predicate
  else a.predicate ++ "(" ++ ", ".intercalate (Term.textAll a.args) ++ ")"

/-- Variables in order of first occurrence. -/
def vars (a : Atom) : List Variable := (Term.varsAll a.args).eraseDups

@[simp] theorem mem_vars {a : Atom} {x : Variable} : x ∈ a.vars ↔ ∃ t ∈ a.args, x ∈ t.vars := by
  simp [vars, Term.varsAll_eq_flatMap]

def mentions (a : Atom) (x : Variable) : Bool := (Term.varsAll a.args).contains x

def subst (g : Variable → Term) (a : Atom) : Atom := ⟨a.predicate, Term.substAll g a.args⟩

@[simp] theorem symbol_subst (g : Variable → Term) (a : Atom) : (a.subst g).symbol = a.symbol := by
  simp [symbol, subst, Term.substAll_eq_map]

/-- The function terms among the arguments, with their positions. -/
def functionTerms (a : Atom) : List (Nat × Term) :=
  a.args.zipIdx.filterMap (fun (t, i) => if t.isFunction then some (i, t) else none)

def isFunctional (a : Atom) : Bool := a.args.any Term.isFunction

def hasNested (a : Atom) : Bool := a.args.any Term.isNested

def overVariables (predicate : String) (xs : List Variable) : Atom := ⟨predicate, xs.map .var⟩

/-- The atom of a symbol with a declared arity. -/
def ofSymbol (s : Symbol) (args : List Term) : Except Error Atom := do
  s.checkCount args.length
  return ⟨s.name, args⟩

end Atom

namespace Term

/-- The function term of a symbol with a declared arity. -/
def ofSymbol (s : Symbol) (args : List Term) : Except Error Term := do
  s.checkCount args.length
  return .app s.name args

/-- Adds the variables of a term, in order of first occurrence, to a list of variables. -/
def collectVars (seen : List Variable) (t : Term) : List Variable :=
  seen ++ (t.vars.filter (· ∉ seen)).eraseDups

end Term
end GuardedSaturation
