import GuardedSaturation.SortedMap
import GuardedSaturation.AtomSet
import GuardedSaturation.Tgd

/-! Substitutions. A variable may be bound to another bound variable, so a term has a
representative at the end of its chain of bindings; replacing variables by their bindings
takes one step along the chains only. -/
namespace GuardedSaturation

abbrev Substitution := SortedMap Variable Term

namespace Substitution

def bind (σ : Substitution) (x : Variable) (t : Term) : Substitution := σ.insert x t

/-- The direct binding of a variable, or the variable. -/
def image (σ : Substitution) (x : Variable) : Term := (σ.get? x).getD (.var x)

@[simp] theorem image_empty (x : Variable) : image ∅ x = .var x := rfl

@[simp] theorem image_bind (σ : Substitution) (x y : Variable) (t : Term) :
    (σ.bind x t).image y = if y = x then t else σ.image y := by
  simp only [image, bind, SortedMap.get?_insert]
  split <;> simp

def applyTerm (σ : Substitution) : Term → Term := Term.subst σ.image

def applyAtom (σ : Substitution) : Atom → Atom := Atom.subst σ.image

def applySet (σ : Substitution) : AtomSet → AtomSet := AtomSet.subst σ.image

def applyTgd (σ : Substitution) : Tgd → Tgd := Tgd.subst σ.image

/-- Follows bindings for at most `n` moves: the variables left behind, in order, and the
term arrived at. -/
def chase (σ : Substitution) : Nat → Term → List Variable × Term
  | n + 1, .var x => match σ.get? x with
    | some t => let (path, stop) := chase σ n t; (x :: path, stop)
    | none => ([], .var x)
  | _, t => ([], t)

/-- A chain without a cycle has at most as many moves as there are bindings; one move
more and a cyclic chain is left as well. -/
def walk (σ : Substitution) (t : Term) : List Variable × Term := σ.chase (σ.size + 1) t

/-- The representative of a term. -/
def resolve (σ : Substitution) (t : Term) : Term := (σ.walk t).2

/-- The representative of a term, and the substitution with every variable on the way to
it bound to it directly. -/
def find (σ : Substitution) (t : Term) : Term × Substitution :=
  let (path, stop) := σ.walk t
  (stop, if path.length ≤ 1 then σ else path.foldl (fun σ x => σ.bind x stop) σ)

/-- The representative of a variable with representatives for the variables below it, for
at most `n` function terms deep. -/
def unfold (σ : Substitution) : Nat → Variable → Term
  | 0, x => .var x
  | n + 1, x => match σ.resolve (.var x) with
    | .app f args => .app f (args.map (Term.subst (unfold σ n)))
    | t => t

/-- The representative of a term, also below its function symbols. Where no variable
reaches itself, a path down passes each binding once at most. -/
def resolveDeep (σ : Substitution) (t : Term) : Term := t.subst (σ.unfold (σ.size + 1))

/-- Every binding in one step; a variable that represents itself is unbound. -/
def normalized (σ : Substitution) : Substitution :=
  σ.filterMap (fun x _ =>
    let t := σ.resolveDeep (.var x)
    if t = .var x then none else some t)

/-- Reads as bindings in braces, as in `?x: f(y)`. -/
def display (σ : Substitution) : String :=
  "\x7b" ++ ", ".intercalate (σ.entries.map (fun (x, t) => "?" ++ x ++ ": " ++ t.text)) ++ "\x7d"

end Substitution
end GuardedSaturation
