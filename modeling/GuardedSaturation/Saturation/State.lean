import GuardedSaturation.NormalForm.Head
import GuardedSaturation.Saturation.Calculus
import GuardedSaturation.Saturation.Result

/-! The state of a run and its steps. Rules are stored when they are admitted and wait in a
queue; a rule taken off the queue is joined with the stored rules of the other part. -/
namespace GuardedSaturation

/-- The stored rules of one part, and the index of their join atoms. -/
structure Collection where
  stored : Subsumer
  index : UnificationIndex

structure State where
  catalog : Catalog := {}
  order : AtomOrder := {}
  left : Collection
  right : Collection
  queue : List RuleId := []
  stats : Stats := {}

namespace State

def start (config : Config) : State :=
  let empty : Collection := ⟨.empty config.maxPredicates config.subsumption, .empty config.unification⟩
  { left := empty, right := empty }

def collection (s : State) : Part → Collection
  | .left => s.left
  | .right => s.right

def withCollection (s : State) (p : Part) (c : Collection) : State :=
  match p with
  | .left => { s with left := c }
  | .right => { s with right := c }

def count (s : State) (f : Stats → Stats) : State := { s with stats := f s.stats }

/-- The rule has not been removed. -/
def stores (s : State) (p : Part) (id : RuleId) : Bool := (s.collection p).stored.contains id

end State

namespace Collection

/-- Stores a rule and indexes its join atoms. -/
def insert (c : Collection) (id : RuleId) (t : Tgd) (joinAtoms : List Atom) : Collection where
  stored := c.stored.insert id t
  index := joinAtoms.foldl (fun index a => index.insert id a) c.index

/-- Removes the rules that a new one subsumes, with their join atoms. -/
def removeSubsumed (c : Collection) (catalog : Catalog) (joinAtoms : Rule → List Atom) (t : Tgd) :
    List RuleId × Collection :=
  let (removed, stored) := c.stored.removeSubsumed catalog t
  let forget (index : UnificationIndex) (id : RuleId) : UnificationIndex :=
    match catalog.get? id with
    | some old => (joinAtoms old).foldl (fun index a => index.remove id a) index
    | none => index
  (removed, ⟨stored, removed.foldl forget c.index⟩)

end Collection

namespace State

/-- Stores a rule that the catalog has just taken up, unless a stored rule subsumes it. -/
def settle (config : Config) (s : State) (id : RuleId) (r : Rule) : State :=
  let p := config.algorithm.part r
  let c := s.collection p
  if c.stored.isSubsumed s.catalog r.tgd then
    s.count (fun n => { n with subsumed := n.subsumed + 1 })
  else
    let (removed, c) := c.removeSubsumed s.catalog config.algorithm.joinAtoms r.tgd
    let c := c.insert id r.tgd (config.algorithm.joinAtoms r)
    let s := s.withCollection p c
    { s with queue := s.queue ++ [id] }.count (fun n => { n with removed := n.removed + removed.length })

/-- Takes up a rule that is new to the catalog and has a guard. -/
def enter (config : Config) (s : State) (t : Tgd) : State :=
  match s.catalog.intern config.algorithm.discipline s.order t with
  | .error _ => s.count (fun n => { n with unguardedResolvents := n.unguardedResolvents + 1 })
  | .ok (.existing _, _, _) => s.count (fun n => { n with duplicates := n.duplicates + 1 })
  | .ok (.new id, catalog, order) =>
    let s := { s with catalog, order }
    match catalog.get? id with
    | some r => s.settle config id r
    | none => s

/-- Takes up a candidate, less the head atoms that its body grants if these are to go. -/
def accept (config : Config) (s : State) (t : Tgd) : State :=
  let tautology (n : Stats) : Stats := { n with tautologies := n.tautologies + 1 }
  if config.discardTautologies then
    match t.withoutTautology with
    | none => s.count tautology
    | some rest =>
      if rest.head.size < t.head.size then (s.count tautology).enter config rest.canonical
      else s.enter config rest
  else s.enter config t

def acceptAll (config : Config) (s : State) (ts : List Tgd) : State := ts.foldl (accept config) s

/-- The stored rules of the other part that may join with a rule. -/
def partners (config : Config) (s : State) (r : Rule) : SortedSet RuleId :=
  let index := (s.collection (config.algorithm.part r).other).index
  .ofList ((config.algorithm.joinAtoms r).flatMap (fun a => (index.candidates a).toList))

/-- Draws the conclusions of a rule and one partner, if both are still stored. -/
def join (config : Config) (id : RuleId) (s : State) (partner : RuleId) : State :=
  match s.catalog.get? id, s.catalog.get? partner with
  | some r, some mate =>
    let p := config.algorithm.part r
    if s.stores p id && s.stores p.other partner then
      let drawn := match p with
        | .left => config.algorithm.conclusions r mate
        | .right => config.algorithm.conclusions mate r
      let s := s.count (fun n =>
        { n with inferences := n.inferences + 1, generated := n.generated + drawn.length })
      s.acceptAll config drawn
    else s
  | _, _ => s

/-- Joins a rule taken off the queue with all its partners. -/
def process (config : Config) (s : State) (id : RuleId) : State :=
  match s.catalog.get? id with
  | some r =>
    if s.stores (config.algorithm.part r) id
    then (s.partners config r).toList.foldl (join config id) s
    else s
  | none => s

/-- A run takes no time by its own clock, so only a timeout of zero fires. -/
def timeIsUp (config : Config) : Bool := config.timeout? = some 0

def popsAreUp (config : Config) (s : State) : Bool :=
  match config.maxPops? with
  | some limit => limit ≤ s.stats.pops
  | none => false

/-- One turn of the loop: the run ends, or a rule is taken off the queue. -/
def step (config : Config) (s : State) : Except Outcome State :=
  match s.queue with
  | [] => .error .completed
  | id :: queue =>
    if timeIsUp config then .error .timedOut
    else if s.popsAreUp config then .error .popLimitReached
    else
      let s := { s with queue }.count (fun n => { n with pops := n.pops + 1 })
      .ok (s.process config id)

/-- The full rules stored, in ascending order. -/
def fullRules (config : Config) (s : State) : List Tgd :=
  let rules := s.right.stored.members.toList.filterMap s.catalog.get?
  (SortedSet.ofList ((rules.filter config.algorithm.isOutput).map Rule.tgd)).toList

end State
end GuardedSaturation
