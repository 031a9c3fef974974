import GuardedSaturation.Atom
import GuardedSaturation.Numbering

/-! The order on atoms that decides which of them are maximal. Symbols weigh by number, and
get their numbers when an atom that has them is first looked at. -/
namespace GuardedSaturation

namespace Term

mutual
/-- The function symbols of a term, outermost first and from left to right. -/
def symbols : Term → List Symbol
  | .var _ | .const _ => []
  | .app f args => ⟨f, args.length⟩ :: symbolsAll args

def symbolsAll : List Term → List Symbol
  | [] => []
  | t :: ts => symbols t ++ symbolsAll ts
end

mutual
/-- Variables, then constants, then function terms by the weight of the symbol. -/
def compareBy (weight : Symbol → Nat) : Term → Term → Ordering
  | .var x, .var y => compare x y
  | .var _, _ => .lt
  | .const _, .var _ => .gt
  | .const c, .const d => compare c d
  | .const _, .app .. => .lt
  | .app f ss, .app g ts =>
      (compare (weight ⟨f, ss.length⟩) (weight ⟨g, ts.length⟩)).then (compareAllBy weight ss ts)
  | .app .., _ => .gt

def compareAllBy (weight : Symbol → Nat) : List Term → List Term → Ordering
  | [], [] => .eq
  | [], _ :: _ => .lt
  | _ :: _, [] => .gt
  | s :: ss, t :: ts => (compareBy weight s t).then (compareAllBy weight ss ts)
end

end Term

structure AtomOrder where
  predicates : Numbering Symbol := ∅
  functions : Numbering Symbol := ∅

namespace AtomOrder

/-- Numbers the symbols of an atom: its predicate, the symbols of its arguments, and those
inside them. -/
def note (o : AtomOrder) (a : Atom) : AtomOrder where
  predicates := o.predicates.note a.symbol
  functions := o.functions.noteAll (a.args.filterMap Term.symbol? ++ Term.symbolsAll a.args)

def noteAll (o : AtomOrder) (atoms : List Atom) : AtomOrder := atoms.foldl note o

def weight (o : AtomOrder) (s : Symbol) : Nat := o.functions.keys.idxOf s

/-- The greatest weight of a function symbol among the arguments. -/
def topWeight (o : AtomOrder) (a : Atom) : Option Nat :=
  ((a.args.filterMap Term.symbol?).map o.weight).max?

/-- The first argument with a function symbol of the greatest weight. -/
def topPosition (o : AtomOrder) (a : Atom) : Option Nat :=
  (o.topWeight a).bind (fun top => a.args.findIdx? (fun t => t.symbol?.map o.weight = some top))

/-- Atoms go by greatest weight, predicate, position of that weight, and arguments. -/
def compareNoted (o : AtomOrder) (a b : Atom) : Ordering :=
  (compare (o.topWeight a) (o.topWeight b)).then <|
  (compare (o.predicates.keys.idxOf a.symbol) (o.predicates.keys.idxOf b.symbol)).then <|
  (compare (o.topPosition a) (o.topPosition b)).then <|
  Term.compareAllBy o.weight a.args b.args

def compare (o : AtomOrder) (a b : Atom) : Ordering × AtomOrder :=
  let o := o.noteAll [a, b]
  (o.compareNoted a b, o)

/-- The atoms that none of the others exceeds, in the order given. -/
def maximal (o : AtomOrder) (atoms : List Atom) : List Atom × AtomOrder :=
  let o := o.noteAll atoms
  (atoms.filter (fun a => atoms.all (fun b => o.compareNoted a b ≠ .lt)), o)

end AtomOrder
end GuardedSaturation
