import GuardedSaturation.Rule

/-! The catalog of a run: every rule is stored once and known by its place. -/
namespace GuardedSaturation

abbrev RuleId := Nat

/-- What entering a rule came to. -/
inductive Entry where
  | new (id : RuleId)
  | existing (id : RuleId)
deriving DecidableEq

namespace Entry

def id : Entry → RuleId
  | .new id | .existing id => id

def isNew : Entry → Bool
  | .new _ => true
  | .existing _ => false

def text : Entry → String
  | .new id => "New(RuleId(" ++ toString id ++ "))"
  | .existing id => "Existing(RuleId(" ++ toString id ++ "))"

end Entry

def RuleId.text (id : RuleId) : String := "#" ++ toString id

structure Catalog where
  rules : Array Rule := #[]
deriving DecidableEq

namespace Catalog

def size (c : Catalog) : Nat := c.rules.size

def get? (c : Catalog) (id : RuleId) : Option Rule := c.rules[id]?

def find? (c : Catalog) (t : Tgd) : Option RuleId := c.rules.findIdx? (·.tgd = t)

/-- Enters a dependency. Its rule is built only if the catalog does not hold it yet, and
stored at the next place. -/
def intern (c : Catalog) (discipline : Discipline) (o : AtomOrder) (t : Tgd) :
    Except Error (Entry × Catalog × AtomOrder) :=
  match c.find? t with
  | some id => .ok (.existing id, c, o)
  | none => do
    let (rule, o) ← Rule.build discipline o t
    return (.new c.size, ⟨c.rules.push rule⟩, o)

end Catalog
end GuardedSaturation
