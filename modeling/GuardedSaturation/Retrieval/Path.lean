import GuardedSaturation.Retrieval.Postings

/-! Paths of an atom: its predicate, the head of each argument, and the head of each
argument of a function term among them. -/
namespace GuardedSaturation

/-- What a term begins with. -/
inductive Term.Head where
  | variable
  | const (c : String)
  | function (s : Symbol)
deriving DecidableEq

def Term.head : Term → Term.Head
  | .var _ => .variable
  | .const c => .const c
  | .app f args => .function ⟨f, args.length⟩

inductive Path where
  | root (predicate : Symbol)
  | argument (predicate : Symbol) (position : Nat) (head : Term.Head)
  | inner (predicate : Symbol) (position : Nat) (function : Symbol) (place : Nat) (head : Term.Head)
deriving DecidableEq

namespace Path

/-- The paths that begin at an argument. -/
def ofArgument (predicate : Symbol) (position : Nat) (t : Term) : List Path :=
  .argument predicate position t.head ::
    match t with
    | .app f args =>
      args.zipIdx.map (fun (arg, place) => .inner predicate position ⟨f, args.length⟩ place arg.head)
    | _ => []

def ofAtom (a : Atom) : List Path :=
  .root a.symbol :: a.args.zipIdx.flatMap (fun (t, position) => ofArgument a.symbol position t)

end Path

namespace Postings

/-- The rules filed under a function term whose arguments agree with those of a term, as
far as one of the two is a variable or both have the same head. -/
def underFunction (p : Postings Path) (predicate : Symbol) (position : Nat) (f : String) (args : List Term) :
    SortedSet RuleId :=
  let symbol : Symbol := ⟨f, args.length⟩
  let agrees (entry : Term × Nat) (id : RuleId) : Bool :=
    let (inner, place) := entry
    inner.isVariable ||
      id ∈ p.ids (.inner predicate position symbol place inner.head) ||
      id ∈ p.ids (.inner predicate position symbol place .variable)
  (p.ids (.argument predicate position (.function symbol))).filter
    (fun id => args.zipIdx.all (fun entry => agrees entry id))

/-- The rules filed under an argument that may be equal to a term: all rules, for a variable. -/
def underArgument (p : Postings Path) (predicate : Symbol) (position : Nat) (t : Term) :
    Option (SortedSet RuleId) :=
  let wildcard := p.ids (.argument predicate position .variable)
  match t with
  | .var _ => none
  | .const c => some (p.ids (.argument predicate position (.const c)) ∪ wildcard)
  | .app f args => some (p.underFunction predicate position f args ∪ wildcard)

end Postings
end GuardedSaturation
