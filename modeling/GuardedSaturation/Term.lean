import GuardedSaturation.Symbol

/-! First-order terms. The arity of a function symbol is the number of its arguments. -/
namespace GuardedSaturation

inductive Term where
  | var (x : Variable)
  | const (c : String)
  | app (f : String) (args : List Term)
deriving Inhabited

namespace Term

mutual
/-- Variables in order of occurrence, repeated ones as often as they occur. -/
def vars : Term → List Variable
  | .var x => [x]
  | .const _ => []
  | .app _ args => varsAll args

def varsAll : List Term → List Variable
  | [] => []
  | t :: ts => vars t ++ varsAll ts
end

theorem varsAll_eq_flatMap (ts : List Term) : varsAll ts = ts.flatMap vars := by
  induction ts with
  | nil => rfl
  | cons t ts ih => simp [varsAll, ih]

mutual
/-- Replaces every variable at once. -/
def subst (g : Variable → Term) : Term → Term
  | .var x => g x
  | .const c => .const c
  | .app f args => .app f (substAll g args)

def substAll (g : Variable → Term) : List Term → List Term
  | [] => []
  | t :: ts => subst g t :: substAll g ts
end

theorem substAll_eq_map (g : Variable → Term) (ts : List Term) : substAll g ts = ts.map (subst g) := by
  induction ts with
  | nil => rfl
  | cons t ts ih => simp [substAll, ih]

mutual
def size : Term → Nat
  | .var _ => 1
  | .const _ => 1
  | .app _ args => 1 + sizeAll args

def sizeAll : List Term → Nat
  | [] => 0
  | t :: ts => size t + sizeAll ts
end

mutual
/-- Constants in order of occurrence. -/
def consts : Term → List String
  | .var _ => []
  | .const c => [c]
  | .app _ args => constsAll args

def constsAll : List Term → List String
  | [] => []
  | t :: ts => consts t ++ constsAll ts
end

mutual
/-- Variables read as `x`, constants as `<c>` and function terms as `f(s, t)`. -/
def text : Term → String
  | .var x => x
  | .const c => "<" ++ c ++ ">"
  | .app f args => f ++ "(" ++ ", ".intercalate (textAll args) ++ ")"

def textAll : List Term → List String
  | [] => []
  | t :: ts => text t :: textAll ts
end

def mentions (t : Term) (x : Variable) : Bool := t.vars.contains x

def isVariable : Term → Bool
  | .var _ => true
  | _ => false

def isFunction : Term → Bool
  | .app .. => true
  | _ => false

/-- A function term is nested if one of its arguments is a function term. -/
def isNested : Term → Bool
  | .app _ args => args.any isFunction
  | _ => false

def var? : Term → Option Variable
  | .var x => some x
  | _ => none

def symbol? : Term → Option Symbol
  | .app f args => some ⟨f, args.length⟩
  | _ => none

/-- A function symbol applied to variables. -/
def overVariables (f : String) (xs : List Variable) : Term := .app f (xs.map var)

end Term
end GuardedSaturation
