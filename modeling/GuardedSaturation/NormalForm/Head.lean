import GuardedSaturation.Tgd

/-! Smaller heads: the existential and the full part of a rule, and a rule without the head
atoms that its body grants already. -/
namespace GuardedSaturation.Tgd

/-- The part of a rule whose head atoms mention an existential variable, then the part
whose head atoms mention none. A part without atoms is left out; a constraint stays whole. -/
def headParts (t : Tgd) : List Tgd :=
  if t.isConstraint || t.existentials.isEmpty then [t]
  else
    let inventive (a : Atom) : Bool := t.existentials.any a.mentions
    let parts := [t.head.filter inventive, t.head.filter (fun a => !inventive a)]
    (parts.filter (fun part => !part.isEmpty)).map (⟨t.body, ·⟩)

/-- Drops the head atoms that occur in the body. A rule that has no others says nothing. -/
def withoutTautology (t : Tgd) : Option Tgd :=
  if t.head.any (· ∈ t.body) then
    let head := t.head \ t.body
    if head.isEmpty then none else some ⟨t.body, head⟩
  else some t

/-- One rule for each head atom. -/
def singleHeads (t : Tgd) : List Tgd :=
  if t.head.size ≤ 1 then [t] else t.head.toList.map (fun a => ⟨t.body, .singleton a⟩)

end GuardedSaturation.Tgd
