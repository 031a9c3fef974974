import GuardedSaturation.Inference.Evolve
import GuardedSaturation.Rule

/-! Resolution: a head atom of one rule takes the place of a selected atom of another. -/
namespace GuardedSaturation

/-- The resolvents of a producer with a consumer on its selected atoms, in ascending order.
Those with nested function terms are dropped. -/
def resolve (producer consumer : Rule) : List Tgd :=
  match consumer.selection? with
  | none => []
  | some selection =>
    let apart := consumer.tgd.renamingApart Evolve.stem producer.tgd
    let renamed := apart.applyTgd consumer.tgd
    let resolvent (selected head : Atom) : Option Tgd := do
      let σ ← Unifier.mostGeneral ∅ head selected
      let t := σ.applyTgd ⟨producer.body ∪ renamed.body.erase selected, renamed.head⟩
      if t.hasNested then none else some t
    (SortedSet.ofList ((selection.atoms.map apart.applyAtom).flatMap (fun selected =>
      producer.head.toList.filterMap (resolvent selected)))).toList

end GuardedSaturation
