/-! Tries: values under ascending lists of numbers. A branch is kept only while a value is
below it. -/
namespace GuardedSaturation

mutual
/-- A value, if one is stored here, and the tries below. -/
inductive Trie (β : Type) where
  | node (value? : Option β) (branches : Branches β)

/-- Tries under numbers, in ascending order. -/
inductive Branches (β : Type) where
  | nil
  | cons (key : Nat) (child : Trie β) (rest : Branches β)
end

namespace Branches
variable {β : Type}

def isEmpty : Branches β → Bool
  | .nil => true
  | .cons .. => false

def find? : Branches β → Nat → Option (Trie β)
  | .nil, _ => none
  | .cons j child rest, k => if j = k then some child else rest.find? k

end Branches

namespace Trie
variable {β : Type}

def empty : Trie β := .node none .nil

instance : EmptyCollection (Trie β) := ⟨empty⟩

instance : Inhabited (Trie β) := ⟨empty⟩

def value? : Trie β → Option β
  | .node v _ => v

def branches : Trie β → Branches β
  | .node _ bs => bs

/-- Nothing is stored here or below. -/
def isEmpty (t : Trie β) : Bool := t.value?.isNone && t.branches.isEmpty

def child? (t : Trie β) (k : Nat) : Option (Trie β) := t.branches.find? k

def get? : List Nat → Trie β → Option β
  | [], t => t.value?
  | k :: path, t => (t.child? k).bind (get? path)

end Trie

namespace Branches
variable {β : Type}

/-- Puts a trie in front, unless it is empty. -/
def grow (k : Nat) (child : Trie β) (rest : Branches β) : Branches β :=
  if child.isEmpty then rest else .cons k child rest

/-- Changes the trie under a number; the empty trie stands for no branch. -/
def alter (k : Nat) (f : Trie β → Trie β) : Branches β → Branches β
  | .nil => grow k (f ∅) .nil
  | .cons j child rest =>
    if k < j then grow k (f ∅) (.cons j child rest)
    else if k = j then grow j (f child) rest
    else .cons j child (rest.alter k f)

end Branches

namespace Trie
variable {β : Type}

def alter (f : Option β → Option β) : List Nat → Trie β → Trie β
  | [], .node v bs => .node (f v) bs
  | k :: path, .node v bs => .node v (bs.alter k (alter f path))

/-- The values below the root whose paths are sublists of a path. -/
def valuesBelow : List Nat → Trie β → List β
  | [], _ => []
  | k :: path, t =>
    (match t.child? k with
      | some child => child.value?.toList ++ valuesBelow path child
      | none => []) ++ valuesBelow path t

/-- The values whose paths are sublists of a path. -/
def valuesWithin (path : List Nat) (t : Trie β) : List β := t.value?.toList ++ valuesBelow path t

end Trie

mutual
/-- The values whose paths have a path as a sublist. -/
def Trie.valuesOver {β : Type} : Trie β → List Nat → List β
  | .node v bs, [] => v.toList ++ bs.valuesOver []
  | .node _ bs, k :: path => bs.valuesOver (k :: path)

/-- As paths ascend, a branch beyond the next number of the path has nothing to offer. -/
def Branches.valuesOver {β : Type} : Branches β → List Nat → List β
  | .nil, _ => []
  | .cons _ child rest, [] => child.valuesOver [] ++ rest.valuesOver []
  | .cons j child rest, k :: path =>
    if j < k then child.valuesOver (k :: path) ++ rest.valuesOver (k :: path)
    else if j = k then child.valuesOver path
    else []
end

end GuardedSaturation
