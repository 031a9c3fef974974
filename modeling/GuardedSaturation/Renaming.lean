import GuardedSaturation.Substitution

/-! Renaming the variables of a rule away from those of another. -/
namespace GuardedSaturation

/-- The first `n` variables of a stem that are not taken. Among `n` and as many more as are
taken there are always enough. -/
def freshVariables (stem : String) (n : Nat) (taken : List Variable) : List Variable :=
  (((List.range (n + taken.length)).map (Variable.indexed stem)).filter (· ∉ taken)).take n

namespace Tgd

/-- Sends the variables of a rule, in order of first occurrence, to the first variables of a
stem that do not occur in another rule. -/
def renamingApart (t : Tgd) (stem : String) (other : Tgd) : Substitution :=
  .ofList (t.vars.zip ((freshVariables stem t.vars.length other.vars).map .var))

def renameApart (t : Tgd) (stem : String) (other : Tgd) : Tgd :=
  (t.renamingApart stem other).applyTgd t

end Tgd
end GuardedSaturation
