/-! Finite sets kept as strictly ascending lists. Two sets with the same members are
the same list, so set equality is plain equality. -/
namespace GuardedSaturation

structure SortedSet (α : Type) [Ord α] where
  toList : List α
  ascending : toList.Pairwise (fun a b => compare a b = .lt)
deriving DecidableEq

namespace SortedSet
open Std

section Lists
variable {α : Type} [Ord α]

/-- Puts an element in its place; a list that holds it already stays as it is. -/
def place (a : α) : List α → List α
  | [] => [a]
  | b :: rest => match compare a b with
    | .lt => a :: b :: rest
    | .eq => b :: rest
    | .gt => b :: place a rest

variable [LawfulEqOrd α]

theorem mem_place {a x : α} {l : List α} : x ∈ place a l ↔ x = a ∨ x ∈ l := by
  induction l with
  | nil => simp [place]
  | cons b rest ih =>
    simp only [place]
    split
    · simp
    · next h => cases LawfulEqOrd.eq_of_compare h; simp
    · simp only [List.mem_cons, ih, or_left_comm]

theorem nodup_of_ascending {l : List α} (h : l.Pairwise (fun a b => compare a b = .lt)) : l.Nodup :=
  h.imp (fun before same => by simp [same] at before)

variable [TransOrd α]

theorem ascending_place {a : α} {l : List α}
    (h : l.Pairwise (fun a b => compare a b = .lt)) :
    (place a l).Pairwise (fun a b => compare a b = .lt) := by
  induction l with
  | nil => simp [place]
  | cons b rest ih =>
    obtain ⟨least, tail⟩ := List.pairwise_cons.mp h
    simp only [place]
    split
    · next lower =>
      refine List.pairwise_cons.mpr ⟨fun x member => ?_, h⟩
      rcases List.mem_cons.mp member with rfl | member
      · exact lower
      · exact TransCmp.lt_trans lower (least x member)
    · exact h
    · next higher =>
      refine List.pairwise_cons.mpr ⟨fun x member => ?_, ih tail⟩
      rcases mem_place.mp member with rfl | member
      · exact OrientedCmp.lt_of_gt higher
      · exact least x member

theorem eq_of_mem_iff {l m : List α}
    (hl : l.Pairwise (fun a b => compare a b = .lt))
    (hm : m.Pairwise (fun a b => compare a b = .lt))
    (h : ∀ x, x ∈ l ↔ x ∈ m) : l = m := by
  refine List.Perm.eq_of_pairwise (fun x y _ _ hxy hyx => ?_) hl hm ?_
  · rw [OrientedOrd.eq_swap (α := α), hxy] at hyx
    simp at hyx
  · exact (List.perm_ext_iff_of_nodup (nodup_of_ascending hl) (nodup_of_ascending hm)).mpr h

end Lists

variable {α : Type} [Ord α]

instance : EmptyCollection (SortedSet α) := ⟨⟨[], .nil⟩⟩

instance : Inhabited (SortedSet α) := ⟨∅⟩

instance : Membership α (SortedSet α) := ⟨fun s a => a ∈ s.toList⟩

instance [DecidableEq α] (a : α) (s : SortedSet α) : Decidable (a ∈ s) :=
  inferInstanceAs (Decidable (a ∈ s.toList))

instance : Ord (SortedSet α) := ⟨fun s t => compare s.toList t.toList⟩

instance : HasSubset (SortedSet α) := ⟨fun s t => ∀ a ∈ s.toList, a ∈ t⟩

instance [DecidableEq α] (s t : SortedSet α) : Decidable (s ⊆ t) :=
  inferInstanceAs (Decidable (∀ a ∈ s.toList, a ∈ t))

theorem mem_toList {a : α} {s : SortedSet α} : a ∈ s.toList ↔ a ∈ s := Iff.rfl

@[simp] theorem toList_empty : (∅ : SortedSet α).toList = [] := rfl

@[simp] theorem not_mem_empty {a : α} : a ∉ (∅ : SortedSet α) := List.not_mem_nil

theorem subset_iff {s t : SortedSet α} : s ⊆ t ↔ ∀ a, a ∈ s → a ∈ t := Iff.rfl

theorem nodup [LawfulEqOrd α] (s : SortedSet α) : s.toList.Nodup := nodup_of_ascending s.ascending

theorem toList_inj {s t : SortedSet α} : s.toList = t.toList ↔ s = t := by
  cases s; cases t; simp

instance [LawfulEqOrd α] : LawfulEqOrd (SortedSet α) where
  compare_self := by simp [compare]
  eq_of_compare h := toList_inj.mp (LawfulEqOrd.eq_of_compare (α := List α) h)

instance [TransOrd α] : TransOrd (SortedSet α) where
  eq_swap := OrientedOrd.eq_swap (α := List α)
  isLE_trans := TransOrd.isLE_trans (α := List α)

def size (s : SortedSet α) : Nat := s.toList.length

def isEmpty (s : SortedSet α) : Bool := s.toList.isEmpty

def first? (s : SortedSet α) : Option α := s.toList.head?

def all (s : SortedSet α) (p : α → Bool) : Bool := s.toList.all p

def any (s : SortedSet α) (p : α → Bool) : Bool := s.toList.any p

def filter (s : SortedSet α) (p : α → Bool) : SortedSet α :=
  ⟨s.toList.filter p, s.ascending.filter p⟩

@[simp] theorem mem_filter {s : SortedSet α} {p : α → Bool} {a : α} :
    a ∈ s.filter p ↔ a ∈ s ∧ p a = true := List.mem_filter

section Decidable
variable [DecidableEq α]

def erase (s : SortedSet α) (a : α) : SortedSet α := s.filter (· ≠ a)

@[simp] theorem mem_erase {s : SortedSet α} {a x : α} : x ∈ s.erase a ↔ x ∈ s ∧ x ≠ a := by
  simp [erase]

instance : SDiff (SortedSet α) := ⟨fun s t => s.filter (· ∉ t)⟩

@[simp] theorem mem_sdiff {s t : SortedSet α} {x : α} : x ∈ s \ t ↔ x ∈ s ∧ x ∉ t := by
  change x ∈ s.filter _ ↔ _
  simp

instance : Inter (SortedSet α) := ⟨fun s t => s.filter (· ∈ t)⟩

@[simp] theorem mem_inter {s t : SortedSet α} {x : α} : x ∈ s ∩ t ↔ x ∈ s ∧ x ∈ t := by
  change x ∈ s.filter _ ↔ _
  simp

end Decidable

variable [TransOrd α] [LawfulEqOrd α]

@[ext] theorem ext {s t : SortedSet α} (h : ∀ a, a ∈ s ↔ a ∈ t) : s = t :=
  toList_inj.mp (eq_of_mem_iff s.ascending t.ascending h)

def insert (s : SortedSet α) (a : α) : SortedSet α := ⟨place a s.toList, ascending_place s.ascending⟩

@[simp] theorem mem_insert {s : SortedSet α} {a x : α} : x ∈ s.insert a ↔ x = a ∨ x ∈ s := mem_place

def singleton (a : α) : SortedSet α := (∅ : SortedSet α).insert a

@[simp] theorem mem_singleton {a x : α} : x ∈ singleton a ↔ x = a := by simp [singleton]

def ofList (l : List α) : SortedSet α := l.foldr (fun a s => s.insert a) ∅

@[simp] theorem mem_ofList {l : List α} {x : α} : x ∈ ofList l ↔ x ∈ l := by
  induction l with
  | nil => simp [ofList]
  | cons a rest ih => simpa [ofList] using or_congr_right ih

instance : Union (SortedSet α) := ⟨fun s t => s.toList.foldr (fun a u => u.insert a) t⟩

@[simp] theorem mem_union {s t : SortedSet α} {x : α} : x ∈ s ∪ t ↔ x ∈ s ∨ x ∈ t := by
  change x ∈ s.toList.foldr _ t ↔ x ∈ s.toList ∨ x ∈ t
  induction s.toList with
  | nil => simp
  | cons a rest ih => simp [ih, or_assoc]

end SortedSet
end GuardedSaturation
