import GuardedSaturation.Catalog
import GuardedSaturation.Retrieval.Postings
import GuardedSaturation.Subsumption.Signature

/-! Filters: which of the stored rules may subsume a rule, or be subsumed by it. A filter
may name too many rules but leaves none out. -/
namespace GuardedSaturation

/-- What rules are keyed on. -/
inductive Granularity where
  | predicate
  | atom
deriving DecidableEq

def Granularity.text : Granularity → String
  | .predicate => "Predicate"
  | .atom => "Atom"

inductive FilterKey where
  | predicate (s : Symbol)
  | atom (a : Atom)
deriving DecidableEq

def Granularity.keys (g : Granularity) (atoms : AtomSet) : List FilterKey :=
  (atoms.toList.map (fun a => match g with
    | .predicate => .predicate a.symbol
    | .atom => .atom a)).eraseDups

/-- Which rules have which keys in the body and in the head. A rule has a key at most once. -/
structure KeyedFilter where
  granularity : Granularity
  body : Postings FilterKey := ∅
  head : Postings FilterKey := ∅

namespace KeyedFilter

def post (p : Postings FilterKey) (ks : List FilterKey) (id : RuleId) : Postings FilterKey :=
  p.fileAll (ks.filter (fun k => id ∉ p.ids k)) id

def add (f : KeyedFilter) (id : RuleId) (t : Tgd) : KeyedFilter :=
  { f with
    body := post f.body (f.granularity.keys t.body) id
    head := post f.head (f.granularity.keys t.head) id }

def remove (f : KeyedFilter) (id : RuleId) (t : Tgd) : KeyedFilter :=
  { f with
    body := f.body.withdrawAll (f.granularity.keys t.body) id
    head := f.head.withdrawAll (f.granularity.keys t.head) id }

/-- The rules that have all the keys; no keys say nothing. -/
def containingAll (p : Postings FilterKey) : List FilterKey → Option (SortedSet RuleId)
  | [] => none
  | k :: ks => some (ks.foldl (fun found k => found ∩ p.ids k) (p.ids k))

end KeyedFilter

/-- Predicates by number, folded into a bounded count of bags, and the rules under the
signatures of their bags. -/
structure SignatureFilter where
  bags : Nat
  predicates : Numbering Symbol := ∅
  trie : SignatureTrie (SortedSet RuleId) := ∅

namespace SignatureFilter

/-- The number of bags is at least one and fits into 32 bits. -/
def ofBound (bound : Nat) : SignatureFilter := { bags := min (max bound 1) (UInt32.size - 1) }

def bag (f : SignatureFilter) (number : Nat) : Nat := number % f.bags

/-- Numbers all predicates and gives their bags. -/
def encode (f : SignatureFilter) (atoms : AtomSet) : List Nat × SignatureFilter :=
  let (numbers, predicates) := f.predicates.numberAll (atoms.toList.map Atom.symbol)
  ((SortedSet.ofList (numbers.map f.bag)).toList, { f with predicates })

/-- The bags of the predicates, if all have numbers. -/
def lookup (f : SignatureFilter) (atoms : AtomSet) : Option (List Nat) :=
  (atoms.toList.mapM (fun a => f.predicates.get? a.symbol)).map
    (fun numbers => (SortedSet.ofList (numbers.map f.bag)).toList)

/-- The bags of those predicates that have numbers. -/
def lookupKnown (f : SignatureFilter) (atoms : AtomSet) : List Nat :=
  (SortedSet.ofList ((atoms.toList.filterMap (fun a => f.predicates.get? a.symbol)).map f.bag)).toList

def add (f : SignatureFilter) (id : RuleId) (t : Tgd) : SignatureFilter :=
  let (body, f) := f.encode t.body
  let (head, f) := f.encode t.head
  { f with trie := f.trie.alter ⟨body, head⟩ (fun ids => some ((ids.getD ∅).insert id)) }

def remove (f : SignatureFilter) (id : RuleId) (t : Tgd) : SignatureFilter :=
  match f.lookup t.body, f.lookup t.head with
  | some body, some head =>
    let drop (ids? : Option (SortedSet RuleId)) : Option (SortedSet RuleId) := do
      let ids := (← ids?).erase id
      if ids.isEmpty then none else some ids
    { f with trie := f.trie.alter ⟨body, head⟩ drop }
  | _, _ => f

/-- A rule with a new predicate in its body subsumes no stored rule. -/
def subsumed (f : SignatureFilter) (t : Tgd) : SortedSet RuleId :=
  match f.lookup t.body with
  | none => ∅
  | some body => (f.trie.subsumed ⟨body, f.lookupKnown t.head⟩).foldl (· ∪ ·) ∅

/-- A rule with a new predicate in its head is subsumed by no stored rule. -/
def subsuming (f : SignatureFilter) (t : Tgd) : SortedSet RuleId :=
  match f.lookup t.head with
  | none => ∅
  | some head => (f.trie.subsuming ⟨f.lookupKnown t.body, head⟩).foldl (· ∪ ·) ∅

end SignatureFilter

/-- What a filter knows of its members: nothing, their keys, or their signatures. -/
inductive FilterIndex where
  | exhaustive
  | keyed (f : KeyedFilter)
  | signature (f : SignatureFilter)

structure Filter where
  index : FilterIndex
  members : SortedSet RuleId := ∅

namespace Filter

def exhaustive : Filter := ⟨.exhaustive, ∅⟩

def keyed (g : Granularity) : Filter := ⟨.keyed { granularity := g }, ∅⟩

def signature (bound : Nat) : Filter := ⟨.signature (.ofBound bound), ∅⟩

def add (f : Filter) (id : RuleId) (t : Tgd) : Filter where
  members := f.members.insert id
  index := match f.index with
    | .exhaustive => .exhaustive
    | .keyed index => .keyed (index.add id t)
    | .signature index => .signature (index.add id t)

/-- Removing what is no member changes nothing. -/
def remove (f : Filter) (id : RuleId) (t : Tgd) : Filter :=
  if id ∈ f.members then
    { members := f.members.erase id
      index := match f.index with
        | .exhaustive => .exhaustive
        | .keyed index => .keyed (index.remove id t)
        | .signature index => .signature (index.remove id t) }
  else f

/-- The stored rules that a rule may subsume: they have all keys of its body. -/
def subsumedCandidates (f : Filter) (t : Tgd) : SortedSet RuleId :=
  match f.index with
  | .exhaustive => f.members
  | .keyed index => (KeyedFilter.containingAll index.body (index.granularity.keys t.body)).getD f.members
  | .signature index => index.subsumed t

/-- The stored rules that may subsume a rule: they have all keys of its head. -/
def subsumingCandidates (f : Filter) (t : Tgd) : SortedSet RuleId :=
  match f.index with
  | .exhaustive => f.members
  | .keyed index => (KeyedFilter.containingAll index.head (index.granularity.keys t.head)).getD f.members
  | .signature index => index.subsuming t

end Filter
end GuardedSaturation
