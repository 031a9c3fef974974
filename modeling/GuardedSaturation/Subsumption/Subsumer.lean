import GuardedSaturation.Subsumption.Filter

/-! Subsumers: collections of rules that are kept free of rules subsumed by others. -/
namespace GuardedSaturation

/-- The rules under the numbers of their very atoms, one rule for each signature. -/
structure ExactSubsumer where
  atoms : Numbering Atom := ∅
  trie : SignatureTrie RuleId := ∅
  members : SortedSet RuleId := ∅

namespace ExactSubsumer

def encode (e : ExactSubsumer) (atoms : AtomSet) : List Nat × ExactSubsumer :=
  let (numbers, numbering) := e.atoms.numberAll atoms.toList
  ((SortedSet.ofList numbers).toList, { e with atoms := numbering })

def lookup (e : ExactSubsumer) (atoms : AtomSet) : Option (List Nat) :=
  (atoms.toList.mapM e.atoms.get?).map (fun numbers => (SortedSet.ofList numbers).toList)

def lookupKnown (e : ExactSubsumer) (atoms : AtomSet) : List Nat :=
  (SortedSet.ofList (atoms.toList.filterMap e.atoms.get?)).toList

def subsuming (e : ExactSubsumer) (t : Tgd) : SortedSet RuleId :=
  match e.lookup t.head with
  | none => ∅
  | some head => .ofList (e.trie.subsuming ⟨e.lookupKnown t.body, head⟩)

def subsumed (e : ExactSubsumer) (t : Tgd) : SortedSet RuleId :=
  match e.lookup t.body with
  | none => ∅
  | some body => .ofList (e.trie.subsumed ⟨body, e.lookupKnown t.head⟩)

/-- A later rule takes the place of an earlier one of the same signature. -/
def insert (e : ExactSubsumer) (id : RuleId) (t : Tgd) : ExactSubsumer :=
  let (body, e) := e.encode t.body
  let (head, e) := e.encode t.head
  { e with trie := e.trie.alter ⟨body, head⟩ (fun _ => some id), members := e.members.insert id }

def remove (e : ExactSubsumer) (id : RuleId) (t : Tgd) : ExactSubsumer :=
  if id ∈ e.members then
    let e := { e with members := e.members.erase id }
    match e.lookup t.body, e.lookup t.head with
    | some body, some head =>
      { e with trie := e.trie.alter ⟨body, head⟩ (fun leaf => if leaf = some id then none else leaf) }
    | _, _ => e
  else e

end ExactSubsumer

inductive SubsumptionStrategy where
  | exhaustive
  | predicate
  | atom
  | trie
  | exact
deriving DecidableEq

/-- A subsumer checks the candidates of a filter, or knows the answers exactly. -/
inductive Subsumer where
  | filtered (f : Filter)
  | exact (e : ExactSubsumer)

namespace Subsumer

def empty (bound : Nat) : SubsumptionStrategy → Subsumer
  | .exhaustive => .filtered .exhaustive
  | .predicate => .filtered (.keyed .predicate)
  | .atom => .filtered (.keyed .atom)
  | .trie => .filtered (.signature bound)
  | .exact => .exact {}

def members : Subsumer → SortedSet RuleId
  | .filtered f => f.members
  | .exact e => e.members

def contains (s : Subsumer) (id : RuleId) : Bool := id ∈ s.members

def insert (s : Subsumer) (id : RuleId) (t : Tgd) : Subsumer :=
  match s with
  | .filtered f => .filtered (f.add id t)
  | .exact e => .exact (e.insert id t)

def remove (s : Subsumer) (id : RuleId) (t : Tgd) : Subsumer :=
  match s with
  | .filtered f => .filtered (f.remove id t)
  | .exact e => .exact (e.remove id t)

/-- A stored rule subsumes the given one. -/
def isSubsumed (s : Subsumer) (catalog : Catalog) (t : Tgd) : Bool :=
  match s with
  | .filtered f => (f.subsumingCandidates t).any (fun id =>
      match catalog.get? id with
      | some stored => stored.tgd.subsumes t
      | none => false)
  | .exact e => !(e.subsuming t).isEmpty

/-- The stored rules that the given one subsumes, as the catalog has them. -/
def subsumed (s : Subsumer) (catalog : Catalog) (t : Tgd) : List (RuleId × Rule) :=
  let known (ids : SortedSet RuleId) : List (RuleId × Rule) :=
    ids.toList.filterMap (fun id => (catalog.get? id).map (id, ·))
  match s with
  | .filtered f => (known (f.subsumedCandidates t)).filter (fun (_, stored) => t.subsumes stored.tgd)
  | .exact e => known (e.subsumed t)

/-- Removes the stored rules that the given one subsumes. -/
def removeSubsumed (s : Subsumer) (catalog : Catalog) (t : Tgd) : List RuleId × Subsumer :=
  let found := s.subsumed catalog t
  (found.map (·.1), found.foldl (fun s (id, stored) => s.remove id stored.tgd) s)

end Subsumer
end GuardedSaturation
