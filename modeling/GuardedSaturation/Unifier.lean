import GuardedSaturation.Substitution

/-! Most general unifiers that put no function term inside another. -/
namespace GuardedSaturation
namespace Unifier

/-- The substitution left behind, as an error if the two sides stayed apart. -/
abbrev Attempt := Except Substitution Substitution

/-- Binds a variable to a function term whose arguments are represented neither by the
variable itself nor by function terms. -/
def bindFunction (σ : Substitution) (x : Variable) (f : String) (args : List Term) : Attempt := do
  let flatten (σ : Substitution) (arg : Term) : Attempt :=
    match σ.find arg with
    | (.app .., σ) => .error σ
    | (.var y, σ) => if y = x then .error σ else .ok σ
    | (.const _, σ) => .ok σ
  return (← args.foldlM flatten σ).bind x (.app f args)

/-- Makes two terms equal, for at most `depth` function symbols down. Of two unbound
variables the left one is bound. -/
def unifyTo : Nat → Substitution → Term → Term → Attempt
  | 0, σ, _, _ => .error σ
  | depth + 1, σ, s, t =>
    let (s, σ) := σ.find s
    let (t, σ) := σ.find t
    if s = t then .ok σ
    else match s, t with
      | .app f ss, .app g ts =>
        if f = g ∧ ss.length = ts.length
        then (ss.zip ts).foldlM (fun σ (s, t) => unifyTo depth σ s t) σ
        else .error σ
      | .var x, .app f args | .app f args, .var x => bindFunction σ x f args
      | .var x, t | t, .var x => .ok (σ.bind x t)
      | _, _ => .error σ

/-- The number of symbols in the bindings. -/
def weight (σ : Substitution) : Nat := σ.entries.foldr (fun e n => 1 + e.2.size + n) 0

/-- Extends a substitution so that two terms become equal. A path down from either term
passes each variable once at most and goes through a subterm of what is given in between,
so it is no longer than the square of the number of symbols. -/
def unify (σ : Substitution) (s t : Term) : Attempt :=
  let symbols := weight σ + s.size + t.size + 1
  unifyTo (symbols * symbols) σ s t

def unifyAll (σ : Substitution) (ss ts : List Term) : Attempt :=
  (ss.zip ts).foldlM (fun σ (s, t) => unify σ s t) σ

/-- The most general unifier of two atoms that respects a seed. There is none if it would
nest function terms. -/
def mostGeneral (seed : Substitution) (a b : Atom) : Option Substitution :=
  if a.symbol ≠ b.symbol then none
  else match unifyAll seed a.args b.args with
    | .error _ => none
    | .ok σ =>
      let σ := σ.normalized
      if σ.entries.any (·.2.isNested) || (σ.applyAtom a).hasNested || (σ.applyAtom b).hasNested
      then none
      else some σ

/-- One unifier for the pairs of atoms at equal positions of two equally long lists. -/
def ofLists (left right : List Atom) : Option Substitution :=
  if left.length ≠ right.length then none
  else (left.zip right).foldlM (fun σ (a, b) => mostGeneral σ a b) ∅

end Unifier
end GuardedSaturation
