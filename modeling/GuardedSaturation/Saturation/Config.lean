import GuardedSaturation.Retrieval.UnificationIndex
import GuardedSaturation.Subsumption.Subsumer

/-! How a run is to be made. The index strategies bear on its speed alone. -/
namespace GuardedSaturation

inductive Algorithm where
  /-- Evolution of rules with existential variables. -/
  | existential
  /-- Resolution of Skolemized rules on every eligible atom. -/
  | skolem
  /-- Resolution of Skolemized rules on maximal atoms. -/
  | orderedSkolem
deriving DecidableEq

structure Config where
  algorithm : Algorithm := .existential
  subsumption : SubsumptionStrategy := .trie
  unification : UnificationStrategy := .path
  maxPredicates : Nat := 150
  /-- In milliseconds. -/
  timeout? : Option Nat := none
  maxPops? : Option Nat := none
  shuffleSeed? : Option Nat := none
  discardTautologies : Bool := true
deriving DecidableEq

namespace Config

/-- No index narrows anything down. -/
def exhaustive : Config := { subsumption := .exhaustive, unification := .predicate }

def orderedSkolem : Config := { algorithm := .orderedSkolem, subsumption := .exact }

end Config

def Algorithm.text : Algorithm → String
  | .existential => "Existential"
  | .skolem => "Skolem"
  | .orderedSkolem => "OrderedSkolem"

def SubsumptionStrategy.text : SubsumptionStrategy → String
  | .exhaustive => "Exhaustive"
  | .predicate => "Predicate"
  | .atom => "Atom"
  | .trie => "Trie"
  | .exact => "Exact"

def UnificationStrategy.text : UnificationStrategy → String
  | .predicate => "Predicate"
  | .path => "Path"

end GuardedSaturation
