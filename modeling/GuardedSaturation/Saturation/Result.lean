import GuardedSaturation.Tgd

/-! What a run answers: the full rules, how it ended, and what it counted. -/
namespace GuardedSaturation

inductive Outcome where
  /-- The queue ran empty: the rules are a fixpoint. -/
  | completed
  | timedOut
  | popLimitReached
deriving DecidableEq

def Outcome.text : Outcome → String
  | .completed => "Completed"
  | .timedOut => "TimedOut"
  | .popLimitReached => "PopLimitReached"

structure Stats where
  inputs : Nat := 0
  discardedUnguarded : Nat := 0
  discardedNonTgd : Nat := 0
  seeds : Nat := 0
  /-- Rules taken off the queue. -/
  pops : Nat := 0
  /-- Pairs of rules that conclusions were drawn from. -/
  inferences : Nat := 0
  generated : Nat := 0
  /-- Candidates that the catalog held already. -/
  duplicates : Nat := 0
  /-- Candidates that lost head atoms to their body. -/
  tautologies : Nat := 0
  /-- Candidates without a guard. -/
  unguardedResolvents : Nat := 0
  /-- Candidates that a stored rule subsumed. -/
  subsumed : Nat := 0
  /-- Stored rules that a candidate subsumed. -/
  removed : Nat := 0
deriving DecidableEq

/-- A summary of the counts. Time is not measured and given as none. -/
def Stats.text (s : Stats) : String :=
  toString s.inputs ++ " inputs (" ++ toString s.discardedUnguarded ++ " unguarded, " ++
  toString s.discardedNonTgd ++ " non-TGD), " ++ toString s.seeds ++ " seeds, " ++
  toString s.pops ++ " pops, " ++ toString s.inferences ++ " inferences, " ++
  toString s.generated ++ " generated, " ++ toString s.subsumed ++ " subsumed, " ++
  toString s.removed ++ " removed in 0ns"

structure Saturation where
  fullRules : List Tgd
  outcome : Outcome
  stats : Stats
deriving DecidableEq

namespace Saturation

def isComplete (s : Saturation) : Bool := s.outcome = .completed

/-- One rule on each line. -/
def text (s : Saturation) : String := String.join (s.fullRules.map (fun t => t.text ++ "\n"))

end Saturation
end GuardedSaturation
