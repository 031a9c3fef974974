import GuardedSaturation.Subsumption.Trie
import GuardedSaturation.Tgd

/-! Subsumption between rules, and tries of signatures: a number sequence for the body, then
one for the head. -/
namespace GuardedSaturation

/-- A rule subsumes another if it asks for no more and grants no less. -/
def Tgd.subsumes (general specific : Tgd) : Bool :=
  general.body ⊆ specific.body && specific.head ⊆ general.head

structure Signature where
  body : List Nat
  head : List Nat
deriving DecidableEq

/-- Under the sequence of a body stands a trie for the sequences of the heads. -/
abbrev SignatureTrie (β : Type) := Trie (Trie β)

namespace SignatureTrie
variable {β : Type}

def get? (t : SignatureTrie β) (s : Signature) : Option β := (Trie.get? s.body t).bind (Trie.get? s.head)

def alter (t : SignatureTrie β) (s : Signature) (f : Option β → Option β) : SignatureTrie β :=
  let change (heads? : Option (Trie β)) : Option (Trie β) :=
    let heads := Trie.alter f s.head (heads?.getD ∅)
    if heads.isEmpty then none else some heads
  Trie.alter change s.body t

/-- The values whose body lies within a body and whose head lies over a head. -/
def subsuming (t : SignatureTrie β) (s : Signature) : List β :=
  (Trie.valuesWithin s.body t).flatMap (fun heads => heads.valuesOver s.head)

/-- The values whose body lies over a body and whose head lies within a head. -/
def subsumed (t : SignatureTrie β) (s : Signature) : List β :=
  (Trie.valuesOver t s.body).flatMap (Trie.valuesWithin s.head)

end SignatureTrie
end GuardedSaturation
