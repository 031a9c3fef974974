import GuardedSaturation.NormalForm.Head
import GuardedSaturation.Substitution

/-! Skolemization. The numbers of the function symbols `sk#n` and of the auxiliary
predicates `aux#n` only grow, so that no two rules share one. -/
namespace GuardedSaturation

structure Skolemizer where
  functions : Nat := 0
  predicates : Nat := 0
deriving DecidableEq

namespace Skolemizer

def functionName (n : Nat) : String := "sk#" ++ toString n

def predicateName (n : Nat) : String := "aux#" ++ toString n

/-- Replaces every existential variable by a function symbol of its own over `args`. -/
def replaceExistentials (z : Skolemizer) (t : Tgd) (args : List Variable) : Tgd × Skolemizer :=
  let witness (x : Variable) : Term :=
    if x ∈ t.existentials
    then .overVariables (functionName (z.functions + t.existentials.idxOf x)) args
    else .var x
  (⟨t.body, t.head.subst witness⟩, { z with functions := z.functions + t.existentials.length })

/-- Existential variables become functions of the universal ones. -/
def skolemize (z : Skolemizer) (t : Tgd) : Tgd × Skolemizer := z.replaceExistentials t t.universals

/-- Existential variables become functions of the universal ones that the head mentions. -/
def skolemizeFrontier (z : Skolemizer) (t : Tgd) : Tgd × Skolemizer := z.replaceExistentials t t.frontier

def singleHeaded (z : Skolemizer) (t : Tgd) : List Tgd × Skolemizer :=
  let (t, z) := z.skolemize t
  (t.singleHeads, z)

/-- Skolemizes over the frontier, one rule for each head atom. If the body has variables
outside the frontier, it first grants an auxiliary atom over the frontier, and this atom the head. -/
def frontierProjected (z : Skolemizer) (t : Tgd) : List Tgd × Skolemizer :=
  if t.isConstraint then ([t], z)
  else if t.existentials.isEmpty || t.universals.length ≤ t.frontier.length then
    let (t, z) := z.skolemizeFrontier t
    (t.singleHeads, z)
  else
    let aux := Atom.overVariables (predicateName z.predicates) t.frontier
    let z := { z with predicates := z.predicates + 1 }
    let (produced, z) := z.skolemizeFrontier ⟨.singleton aux, t.head⟩
    (⟨t.body, .singleton aux⟩ :: produced.singleHeads, z)

end Skolemizer
end GuardedSaturation
