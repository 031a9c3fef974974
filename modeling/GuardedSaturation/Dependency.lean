import GuardedSaturation.SortedMap
import GuardedSaturation.Tgd

/-! Dependencies as given, and the contract they have to keep: no function terms, no
declared existential variable in the body, one arity for each predicate name. -/
namespace GuardedSaturation

structure Dependency where
  body : List Atom
  head : List Atom
  existentials : List Variable := []
deriving DecidableEq, Inhabited

namespace Dependency

def atoms (d : Dependency) : List Atom := d.body ++ d.head

def isTgd (d : Dependency) : Bool := !d.head.isEmpty

def toTgd (d : Dependency) : Tgd := .ofLists d.body d.head

def text (d : Dependency) : String := d.toTgd.text

/-- The contract of one dependency by itself. -/
def validate (d : Dependency) : Except Error Unit :=
  match d.atoms.find? Atom.isFunctional with
  | some atom => .error ⟨.malformedInput ("function term in input atom " ++ atom.text), none⟩
  | none =>
    match d.existentials.find? (fun x => d.body.any (·.mentions x)) with
    | some x => .error ⟨.malformedInput ("existential variable " ++ x ++ " also occurs in the body"), none⟩
    | none => .ok ()

/-- The arity at the first use of each predicate name. -/
abbrev Arities := SortedMap String Nat

/-- Records an atom's predicate, or finds it used with another arity. -/
def Arities.use (arities : Arities) (atom : Atom) : Except Error Arities :=
  match arities.get? atom.predicate with
  | none => .ok (arities.insert atom.predicate atom.args.length)
  | some expected =>
    if expected = atom.args.length then .ok arities
    else .error ⟨.arityMismatch atom.predicate expected atom.args.length, none⟩

/-- The contract of the dependency at a place of the input, given the arities used before it. -/
def check (arities : Arities) (entry : Dependency × Nat) : Except Error Arities := do
  let (d, index) := entry
  let context (frames : List String) : Context := ⟨some index, some d.text, frames⟩
  d.validate.mapError (·.within (context ["Dependency::validate", "check_arities"]))
  (d.atoms.foldlM Arities.use arities).mapError (·.within (context ["check_arities"]))

/-- The contract of the whole input. -/
def checkAll (ds : List Dependency) : Except Error Unit :=
  (ds.zipIdx.foldlM check ∅).map (fun _ => ())

end Dependency
end GuardedSaturation
