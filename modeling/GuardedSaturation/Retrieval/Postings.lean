import GuardedSaturation.Catalog
import GuardedSaturation.SortedSet

/-! Postings: which rules are filed under which keys. A rule filed under a key several
times stays there until it has been withdrawn as often. -/
namespace GuardedSaturation

structure Postings (κ : Type) where
  filed : List (κ × RuleId) := []

namespace Postings
variable {κ : Type}

instance : EmptyCollection (Postings κ) := ⟨{}⟩

def isEmpty (p : Postings κ) : Bool := p.filed.isEmpty

def file (p : Postings κ) (k : κ) (id : RuleId) : Postings κ := ⟨(k, id) :: p.filed⟩

def fileAll (p : Postings κ) (ks : List κ) (id : RuleId) : Postings κ :=
  ks.foldl (fun p k => p.file k id) p

variable [DecidableEq κ]

def withdraw (p : Postings κ) (k : κ) (id : RuleId) : Postings κ := ⟨p.filed.erase (k, id)⟩

def withdrawAll (p : Postings κ) (ks : List κ) (id : RuleId) : Postings κ :=
  ks.foldl (fun p k => p.withdraw k id) p

def ids (p : Postings κ) (k : κ) : SortedSet RuleId :=
  .ofList (p.filed.filterMap (fun e => if e.1 = k then some e.2 else none))

@[simp] theorem mem_ids {p : Postings κ} {k : κ} {id : RuleId} : id ∈ p.ids k ↔ (k, id) ∈ p.filed := by
  simp [ids]

end Postings
end GuardedSaturation
