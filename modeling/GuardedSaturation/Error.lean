import GuardedSaturation.Symbol

/-! What can go wrong, why, and where in the input it was noticed. -/
namespace GuardedSaturation

inductive Cause where
  /-- No body atom of the rule holds all its body variables. -/
  | unguardedRule (rule : String)
  /-- A symbol stands over the wrong number of terms. -/
  | arityMismatch (symbol : String) (expected actual : Nat)
  /-- The input breaks its contract. -/
  | malformedInput (problem : String)
  | internal (problem : String)
deriving DecidableEq

def Cause.message : Cause → String
  | .unguardedRule rule => "unguarded rule: " ++ rule
  | .arityMismatch symbol expected actual =>
      "arity mismatch for " ++ symbol ++ ": expected " ++ toString expected ++ ", got " ++ toString actual
  | .malformedInput problem => "malformed input: " ++ problem
  | .internal problem => "internal error: " ++ problem

/-- Where an error was noticed: the place in the input, the dependency there, and the
checks under way, innermost first. -/
structure Context where
  inputIndex? : Option Nat := none
  dependency? : Option String := none
  frames : List String := []
deriving DecidableEq

def Context.text (c : Context) : String :=
  (match c.inputIndex? with
    | some index => "at input #" ++ toString index
    | none => "") ++
  (match c.dependency? with
    | some dependency => " (" ++ dependency ++ ")"
    | none => "") ++
  (if c.frames.isEmpty then "" else "\n") ++
  String.join (c.frames.map (fun frame => "  in " ++ frame ++ "\n"))

structure Error where
  cause : Cause
  context? : Option Context := none
deriving DecidableEq

namespace Error

def message (e : Error) : String := e.cause.message

/-- Only an unguarded rule may be dropped and the run go on. -/
def isDiscardable (e : Error) : Bool := e.cause matches .unguardedRule _

def within (e : Error) (c : Context) : Error := { e with context? := some c }

end Error

/-- A symbol may stand over as many terms as its arity says. -/
def Symbol.checkCount (s : Symbol) (count : Nat) : Except Error Unit :=
  if s.arity = count then .ok () else .error ⟨.arityMismatch s.name s.arity count, none⟩

end GuardedSaturation
