import GuardedSaturation.AtomOrder
import GuardedSaturation.Guard

/-! Rules: dependencies with a guard and, for resolution, the atoms selected to resolve on. -/
namespace GuardedSaturation

inductive Side where
  | body
  | head
deriving DecidableEq

/-- The atoms a rule resolves on, all on one side of it. -/
structure Selection where
  atoms : List Atom
  side : Side
deriving DecidableEq

/-- The functional body atoms; without any, all head atoms if one is functional; without
function terms at all, the guards. -/
def Selection.eligible (t : Tgd) : Selection :=
  if t.body.isFunctional then ⟨t.body.toList.filter Atom.isFunctional, .body⟩
  else if t.head.isFunctional then ⟨t.head.toList, .head⟩
  else ⟨t.guardCandidates, .body⟩

/-- How a rule takes part in inferences. -/
inductive Tier where
  /-- By its guard alone. -/
  | guarded
  /-- By every eligible atom. -/
  | skolemized (selection : Selection)
  /-- By the maximal eligible atoms. -/
  | ordered (selection : Selection)
deriving DecidableEq

def Tier.selection? : Tier → Option Selection
  | .guarded => none
  | .skolemized selection | .ordered selection => some selection

/-- What a rule is built for. -/
inductive Discipline where
  | guarded
  | skolemized
  | ordered
deriving DecidableEq

structure Rule where
  tgd : Tgd
  guard : Atom
  tier : Tier
deriving DecidableEq

namespace Rule

def body (r : Rule) : AtomSet := r.tgd.body

def head (r : Rule) : AtomSet := r.tgd.head

def selection? (r : Rule) : Option Selection := r.tier.selection?

/-- The selected atoms of one side. -/
def selected (r : Rule) (side : Side) : List Atom :=
  match r.selection? with
  | some selection => if selection.side = side then selection.atoms else []
  | none => []

/-- The rule of a selecting tier has a function term. -/
def functional? (r : Rule) : Option Bool := r.selection?.map (fun _ => !r.tgd.isFunctionFree)

/-- The rule of a selecting tier has a function term in its head only. -/
def nonFull? (r : Rule) : Option Bool :=
  r.selection?.map (fun _ => r.head.isFunctional && !r.body.isFunctional)

/-- The rule of a dependency under a discipline. The ordered one numbers the symbols of the
eligible atoms; without a guard there is no rule, and nothing is numbered. -/
def build (discipline : Discipline) (o : AtomOrder) (t : Tgd) : Except Error (Rule × AtomOrder) := do
  let guard ← t.guard
  let eligible := Selection.eligible t
  match discipline with
  | .guarded => return (⟨t, guard, .guarded⟩, o)
  | .skolemized => return (⟨t, guard, .skolemized eligible⟩, o)
  | .ordered =>
    let (atoms, o) := o.maximal eligible.atoms
    return (⟨t, guard, .ordered ⟨atoms, eligible.side⟩⟩, o)

end Rule
end GuardedSaturation
