import GuardedSaturation.Renaming
import GuardedSaturation.Unifier

/-! Evolution: a rule with existential variables and a full rule give new rules, by joining
body atoms of the full rule with head atoms of the other. A join must leave the existential
variables alone: they stay unbound, no universal variable becomes one of them, and no body
atom that is left over mentions one. -/
namespace GuardedSaturation
namespace Evolve

/-- The variables of the full rule are renamed to `z0`, `z1`, … first. -/
def stem : String := "z"

def intact (existentials : List Variable) (σ : Substitution) : Bool :=
  existentials.all (fun e => !σ.contains e)

/-- All ways to join each of the body atoms with a head atom or to leave it over, beginning
with a unifier: the unifiers arrived at, with the atoms left over. -/
def joins (heads : List Atom) (existentials : List Variable) :
    List Atom → Substitution → List (Substitution × List Atom)
  | [], σ => [(σ, [])]
  | a :: rest, σ =>
    let skipped := (joins heads existentials rest σ).map (fun (σ, left) => (σ, a :: left))
    let joined := heads.flatMap (fun h =>
      match Unifier.mostGeneral σ a h with
      | some σ => if intact existentials σ then joins heads existentials rest σ else []
      | none => [])
    skipped ++ joined

def mentionsAny (xs : List Variable) (t : Term) : Bool := xs.any t.mentions

/-- No universal variable is identified with an existential one, and no atom left over
mentions one. -/
def admissible (t : Tgd) (σ : Substitution) (left : List Atom) : Bool :=
  intact t.existentials σ &&
  t.universals.all (fun u => !mentionsAny t.existentials (σ.image u)) &&
  left.all (fun a => !(σ.applyAtom a).args.any (mentionsAny t.existentials))

end Evolve

/-- The resolvents of a rule with a full one, in ascending order. At least one atom is joined. -/
def evolve (nonFull full : Tgd) : List Tgd :=
  let full := full.renameApart Evolve.stem nonFull
  let body := full.body.toList
  let resolvent (join : Substitution × List Atom) : Option Tgd :=
    let (σ, left) := join
    if left.length < body.length && Evolve.admissible nonFull σ left
    then some (σ.applyTgd ⟨nonFull.body ∪ .ofList left, nonFull.head ∪ full.head⟩)
    else none
  (SortedSet.ofList ((Evolve.joins nonFull.head.toList nonFull.existentials body ∅).filterMap resolvent)).toList

end GuardedSaturation
