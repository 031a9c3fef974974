import GuardedSaturation.Inference.Resolve
import GuardedSaturation.NormalForm.Variables
import GuardedSaturation.Saturation.Config
import GuardedSaturation.Skolemizer

/-! The calculus of each algorithm: the rules an input begins with, the two parts that rules
fall into, and the conclusions from one rule of either part. -/
namespace GuardedSaturation

inductive Part where
  | left
  | right
deriving DecidableEq

def Part.other : Part → Part
  | .left => .right
  | .right => .left

/-- The name-independent form that stored rules have. -/
def Tgd.canonical (t : Tgd) : Tgd := t.normalForm {}

/-- The existential and the full part of a rule in canonical form. -/
def Tgd.canonicalParts (t : Tgd) : List Tgd := t.headParts.map Tgd.canonical

namespace Algorithm

def discipline : Algorithm → Discipline
  | .existential => .guarded
  | .skolem => .skolemized
  | .orderedSkolem => .ordered

/-- The rules that an input rule begins with. -/
def seedsOf (algorithm : Algorithm) (z : Skolemizer) (t : Tgd) : List Tgd × Skolemizer :=
  match algorithm with
  | .existential => (t.canonicalParts, z)
  | .skolem | .orderedSkolem =>
    let (rules, z) := z.frontierProjected t.canonical
    (rules.map Tgd.canonical, z)

/-- Rules with existential variables or a selected head are on the left. -/
def part (algorithm : Algorithm) (r : Rule) : Part :=
  match algorithm with
  | .existential => if r.tgd.isFull then .right else .left
  | .skolem | .orderedSkolem =>
    match r.selection? with
    | some ⟨_, .head⟩ => .left
    | _ => .right

/-- The atoms that a rule finds partners by, and is found by. -/
def joinAtoms (algorithm : Algorithm) (r : Rule) : List Atom :=
  match algorithm with
  | .existential =>
    match algorithm.part r with
    | .left => r.head.toList
    | .right => r.body.toList
  | .skolem | .orderedSkolem =>
    match r.selection? with
    | some selection => selection.atoms
    | none => []

def conclusions (algorithm : Algorithm) (left right : Rule) : List Tgd :=
  match algorithm with
  | .existential => (evolve left.tgd right.tgd).flatMap Tgd.canonicalParts
  | .skolem | .orderedSkolem => (resolve left right).map Tgd.canonical

/-- The rules on the right that belong to the answer. -/
def isOutput (algorithm : Algorithm) (r : Rule) : Bool :=
  match algorithm with
  | .existential => true
  | .skolem | .orderedSkolem => r.tgd.isFunctionFree

end Algorithm
end GuardedSaturation
