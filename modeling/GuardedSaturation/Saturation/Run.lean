import GuardedSaturation.Dependency
import GuardedSaturation.Random.Shuffle
import GuardedSaturation.Saturation.State

/-! Whole runs: from dependencies to the full rules of their saturation. -/
namespace GuardedSaturation

namespace Seeds

/-- The inputs that a run begins with: a head, and a guard. -/
def accepted (ds : List Dependency) : List Tgd :=
  ((ds.filter Dependency.isTgd).map Dependency.toTgd).filter (·.guard?.isSome)

def expand (algorithm : Algorithm) : Skolemizer → List Tgd → List Tgd
  | _, [] => []
  | z, t :: ts =>
    let (rules, z) := algorithm.seedsOf z t
    rules ++ expand algorithm z ts

/-- The seed rules in the order in which they are admitted. -/
def ofInputs (config : Config) (ds : List Dependency) : List Tgd :=
  let seeds := expand config.algorithm {} (accepted ds)
  match config.shuffleSeed? with
  | some seed => Shuffle.bySeed seed seeds
  | none => seeds

def stats (seeds : List Tgd) (ds : List Dependency) : Stats :=
  { inputs := ds.length
    discardedNonTgd := ds.countP (fun d => !d.isTgd)
    discardedUnguarded := ds.countP (fun d => d.isTgd && d.toTgd.guard?.isNone)
    seeds := seeds.length }

def maximum (measure : Tgd → Nat) (seeds : List Tgd) : Nat := seeds.foldl (fun n t => max n (measure t)) 0

def atoms (seeds : List Tgd) : List Atom := seeds.flatMap (fun t => t.body.toList ++ t.head.toList)

/-- How many atoms there are over the symbols of the seeds, with as many variables as one
seed has at most, and without nested function terms. -/
def atomCount (seeds : List Tgd) : Nat :=
  let all := atoms seeds
  let consts := (all.flatMap (fun a => Term.constsAll a.args)).eraseDups
  let functions := (all.flatMap (fun a => Term.symbolsAll a.args)).eraseDups
  let flat := maximum (·.universals.length) seeds + maximum (·.existentials.length) seeds + consts.length
  let terms := flat + (functions.map (fun f => Nat.pow flat f.arity)).foldr (· + ·) 0
  (((all.map Atom.symbol).eraseDups).map (fun p => Nat.pow terms p.arity)).foldr (· + ·) 0

end Seeds

namespace State

/-- The state after admitting the seeds. -/
def initial (config : Config) (ds : List Dependency) : State :=
  let seeds := Seeds.ofInputs config ds
  { start config with stats := Seeds.stats seeds ds }.acceptAll config seeds

/-- At most `n` turns of the loop: how the run ended, if it did, and the last state. -/
def advance (config : Config) : Nat → State → Option Outcome × State
  | 0, s => (none, s)
  | n + 1, s => match s.step config with
    | .error outcome => (some outcome, s)
    | .ok next => next.advance config n

/-- Rounds of turns, twice as many turns in each round as in the one before it. -/
def advanceRounds (config : Config) : Nat → Nat → State → Option Outcome × State
  | 0, _, s => (none, s)
  | rounds + 1, turns, s => match s.advance config turns with
    | (some outcome, s) => (some outcome, s)
    | (none, s) => advanceRounds config rounds (2 * turns) s

/-- No more rules can be taken off the queue than there are pairs of sets of atoms. The
rounds leave room for one turn for each, and one turn more. -/
def rounds (config : Config) (ds : List Dependency) : Nat :=
  2 * Seeds.atomCount (Seeds.ofInputs config ds) + 1

def final (config : Config) (ds : List Dependency) : Option Outcome × State :=
  (initial config ds).advanceRounds config (rounds config ds) 1

end State

/-- Saturates dependencies that keep the input contract. -/
def saturate (config : Config) (ds : List Dependency) : Except Error Saturation := do
  Dependency.checkAll ds
  let (outcome?, s) := State.final config ds
  return { fullRules := s.fullRules config
           outcome := outcome?.getD .popLimitReached
           stats := s.stats }

end GuardedSaturation
