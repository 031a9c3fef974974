import GuardedSaturation.SortedSet
import GuardedSaturation.Atom

/-! Finite sets of atoms. -/
namespace GuardedSaturation

abbrev AtomSet := SortedSet Atom

namespace AtomSet

/-- Variables in order of first occurrence. -/
def vars (s : AtomSet) : List Variable := (s.toList.flatMap Atom.vars).eraseDups

@[simp] theorem mem_vars {s : AtomSet} {x : Variable} : x ∈ s.vars ↔ ∃ a ∈ s, x ∈ a.vars := by
  simp [vars, SortedSet.mem_toList]

def mentions (s : AtomSet) (x : Variable) : Bool := s.any (·.mentions x)

def subst (g : Variable → Term) (s : AtomSet) : AtomSet := .ofList (s.toList.map (Atom.subst g))

@[simp] theorem mem_subst {g : Variable → Term} {s : AtomSet} {a : Atom} :
    a ∈ s.subst g ↔ ∃ b ∈ s, b.subst g = a := by
  simp [subst, SortedSet.mem_toList]

def isFunctional (s : AtomSet) : Bool := s.any Atom.isFunctional

/-- Holds of `{⊥}` alone. -/
def isFalsity (s : AtomSet) : Bool := s.size = 1 && s.all Atom.isFalsity

/-- The empty conjunction reads as `⊤`. -/
def text (s : AtomSet) : String :=
  if s.isEmpty then "⊤" else " ∧ ".intercalate (s.toList.map Atom.text)

def display (s : AtomSet) : String :=
  "\x7b" ++ ", ".intercalate (s.toList.map Atom.text) ++ "\x7d"

end AtomSet
end GuardedSaturation
