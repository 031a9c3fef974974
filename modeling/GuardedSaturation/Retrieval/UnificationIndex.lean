import GuardedSaturation.Retrieval.Path

/-! Unification indexes: which rules hold an atom that may unify with a given one. A rule
is inserted once for each of its atoms, and found until each has been removed. -/
namespace GuardedSaturation

inductive UnificationStrategy where
  | predicate
  | path
deriving DecidableEq

/-- An index files a rule under the predicates of its atoms, or under all their paths. -/
inductive UnificationIndex where
  | byPredicate (postings : Postings Symbol)
  | byPath (postings : Postings Path)

namespace UnificationIndex

def empty : UnificationStrategy → UnificationIndex
  | .predicate => .byPredicate ∅
  | .path => .byPath ∅

def clear : UnificationIndex → UnificationIndex
  | .byPredicate _ => .byPredicate ∅
  | .byPath _ => .byPath ∅

def isEmpty : UnificationIndex → Bool
  | .byPredicate p => p.isEmpty
  | .byPath p => p.isEmpty

def insert (index : UnificationIndex) (id : RuleId) (a : Atom) : UnificationIndex :=
  match index with
  | .byPredicate p => .byPredicate (p.file a.symbol id)
  | .byPath p => .byPath (p.fileAll (Path.ofAtom a) id)

def remove (index : UnificationIndex) (id : RuleId) (a : Atom) : UnificationIndex :=
  match index with
  | .byPredicate p => .byPredicate (p.withdraw a.symbol id)
  | .byPath p => .byPath (p.withdrawAll (Path.ofAtom a) id)

/-- The rules that may hold an atom unifiable with the given one. -/
def candidates (index : UnificationIndex) (a : Atom) : SortedSet RuleId :=
  match index with
  | .byPredicate p => p.ids a.symbol
  | .byPath p =>
    let narrow (found : SortedSet RuleId) (entry : Term × Nat) : SortedSet RuleId :=
      match p.underArgument a.symbol entry.2 entry.1 with
      | some matching => found ∩ matching
      | none => found
    a.args.zipIdx.foldl narrow (p.ids (.root a.symbol))

end UnificationIndex
end GuardedSaturation
