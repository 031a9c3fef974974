import GuardedSaturation.Tgd

/-! Variable normal form: universal and existential variables are numbered, each kind by
itself, in an order that depends on the shape of the rule and not on its names. -/
namespace GuardedSaturation

/-- How the order of the variables is found. -/
inductive NamingMode where
  /-- By first occurrence: universal variables, then existential ones. -/
  | naive
  /-- By shape: head atoms, then body atoms, the least first each time. -/
  | sorted
deriving DecidableEq

structure Naming where
  universalStem : String := "u"
  existentialStem : String := "e"
  mode : NamingMode := .sorted
deriving DecidableEq

inductive Quantifier where
  | universal
  | existential
deriving DecidableEq, Ord

/-- What a term shows of itself, its names set aside: a variable shows its number if it has
one, and else its place among the variables of the atom that have none. -/
inductive Shape where
  | const (c : String)
  | app (f : String) (args : List Shape)
  | numbered (kind : Quantifier) (number : Nat)
  | fresh (kind : Quantifier) (place : Nat)
deriving Inhabited

namespace Shape

mutual
protected def compare : Shape → Shape → Ordering
  | .const c, .const d => Ord.compare c d
  | .const _, _ => .lt
  | .app .., .const _ => .gt
  | .app f ss, .app g ts =>
      (Ord.compare f g).then ((Ord.compare ss.length ts.length).then (compareAll ss ts))
  | .app .., _ => .lt
  | .numbered k m, .numbered l n => (Ord.compare k l).then (Ord.compare m n)
  | .numbered .., .fresh .. => .lt
  | .numbered .., _ => .gt
  | .fresh k m, .fresh l n => (Ord.compare k l).then (Ord.compare m n)
  | .fresh .., _ => .gt

def compareAll : List Shape → List Shape → Ordering
  | [], [] => .eq
  | [], _ :: _ => .lt
  | _ :: _, [] => .gt
  | s :: ss, t :: ts => (Shape.compare s t).then (compareAll ss ts)
end

mutual
def ofTerm (leaf : Variable → Shape) : Term → Shape
  | .var x => leaf x
  | .const c => .const c
  | .app f args => .app f (ofTerms leaf args)

def ofTerms (leaf : Variable → Shape) : List Term → List Shape
  | [] => []
  | t :: ts => ofTerm leaf t :: ofTerms leaf ts
end

end Shape

namespace Tgd

def quantifier (t : Tgd) (x : Variable) : Quantifier :=
  if x ∈ t.universals then .universal else .existential

/-- The number of a variable: how many of its kind stand before it in the order. -/
def rank (t : Tgd) (order : List Variable) (x : Variable) : Nat :=
  (order.filter (fun y => t.quantifier y = t.quantifier x)).idxOf x

/-- The variables of an atom that the order does not hold yet. -/
def unranked (order : List Variable) (a : Atom) : List Variable := a.vars.filter (· ∉ order)

def shapes (t : Tgd) (order : List Variable) (a : Atom) : List Shape :=
  let leaf (x : Variable) : Shape :=
    if x ∈ order then .numbered (t.quantifier x) (t.rank order x)
    else .fresh (t.quantifier x) ((unranked order a).idxOf x)
  Shape.ofTerms leaf a.args

/-- Shorter names come first. -/
def compareNames (x y : Variable) : Ordering :=
  (compare x.utf8ByteSize y.utf8ByteSize).then (compare x y)

/-- Atoms go by predicate, then by shape; between equal shapes the names decide. -/
def compareAtoms (t : Tgd) (order : List Variable) (a b : Atom) : Ordering :=
  (compare a.symbol b.symbol).then <|
  (Shape.compareAll (t.shapes order a) (t.shapes order b)).then <|
  List.compareLex compareNames (unranked order a) (unranked order b)

def leastAtom (t : Tgd) (order : List Variable) (a : Atom) (rest : List Atom) : Atom :=
  rest.foldl (fun least b => if t.compareAtoms order b least = .lt then b else least) a

/-- Takes the least atom, ranks its variables, and goes on with the atoms left, for at most
`n` atoms. -/
def rankAtoms (t : Tgd) : Nat → List Variable → List Atom → List Variable
  | n + 1, order, a :: rest =>
    let least := t.leastAtom order a rest
    rankAtoms t n (order ++ unranked order least) ((a :: rest).erase least)
  | _, order, _ => order

def sortedOrder (t : Tgd) : List Variable :=
  t.rankAtoms t.body.size (t.rankAtoms t.head.size [] t.head.toList) t.body.toList

def variableOrder (t : Tgd) : NamingMode → List Variable
  | .naive => t.vars
  | .sorted => t.sortedOrder

/-- Names every variable by its kind and number. -/
def normalForm (naming : Naming) (t : Tgd) : Tgd :=
  let order := t.variableOrder naming.mode
  let rename (x : Variable) : Variable :=
    match t.quantifier x with
    | .universal => .indexed naming.universalStem (t.rank order x)
    | .existential => .indexed naming.existentialStem (t.rank order x)
  t.subst (fun x => .var (rename x))

end Tgd
end GuardedSaturation
