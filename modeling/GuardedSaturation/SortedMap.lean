/-! Finite maps kept as lists of entries in strictly ascending order of their keys. Two
maps that look up alike are the same list of entries. -/
namespace GuardedSaturation

structure SortedMap (κ β : Type) [Ord κ] where
  entries : List (κ × β)
  ascending : entries.Pairwise (fun a b => compare a.1 b.1 = .lt)
deriving DecidableEq

namespace SortedMap
open Std

section Lists
variable {κ β : Type} [Ord κ]

/-- Puts an entry in its place, over an entry of the same key if there is one. -/
def place (k : κ) (v : β) : List (κ × β) → List (κ × β)
  | [] => [(k, v)]
  | e :: rest => match compare k e.1 with
    | .lt => (k, v) :: e :: rest
    | .eq => (k, v) :: rest
    | .gt => e :: place k v rest

theorem key_mem_place {k : κ} {v : β} {l : List (κ × β)} {e : κ × β} (h : e ∈ place k v l) :
    e.1 = k ∨ e ∈ l := by
  induction l with
  | nil => simp_all [place]
  | cons a rest ih =>
    simp only [place] at h
    split at h <;> grind

variable [TransOrd κ] [LawfulEqOrd κ]

theorem ascending_place {k : κ} {v : β} {l : List (κ × β)}
    (h : l.Pairwise (fun a b => compare a.1 b.1 = .lt)) :
    (place k v l).Pairwise (fun a b => compare a.1 b.1 = .lt) := by
  induction l with
  | nil => simp [place]
  | cons e rest ih =>
    obtain ⟨least, tail⟩ := List.pairwise_cons.mp h
    simp only [place]
    split
    · next lower =>
      refine List.pairwise_cons.mpr ⟨fun x member => ?_, h⟩
      rcases List.mem_cons.mp member with rfl | member
      · exact lower
      · exact TransCmp.lt_trans lower (least x member)
    · next same =>
      refine List.pairwise_cons.mpr ⟨fun x member => ?_, tail⟩
      rw [LawfulEqOrd.eq_of_compare same]
      exact least x member
    · next higher =>
      refine List.pairwise_cons.mpr ⟨fun x member => ?_, ih tail⟩
      rcases key_mem_place member with same | member
      · rw [same]
        exact OrientedCmp.lt_of_gt higher
      · exact least x member

end Lists

variable {κ β : Type} [Ord κ]

instance : EmptyCollection (SortedMap κ β) := ⟨⟨[], .nil⟩⟩

instance : Inhabited (SortedMap κ β) := ⟨∅⟩

theorem entries_inj {m n : SortedMap κ β} : m.entries = n.entries ↔ m = n := by
  cases m; cases n; simp

def size (m : SortedMap κ β) : Nat := m.entries.length

def isEmpty (m : SortedMap κ β) : Bool := m.entries.isEmpty

def keys (m : SortedMap κ β) : List κ := m.entries.map (·.1)

/-- Keeps the entries that `f` answers, under their keys. -/
def filterMap {γ : Type} (m : SortedMap κ β) (f : κ → β → Option γ) : SortedMap κ γ where
  entries := m.entries.filterMap (fun e => (f e.1 e.2).map (e.1, ·))
  ascending := by
    refine List.Pairwise.filterMap _ (fun a b before c hc d hd => ?_) m.ascending
    obtain ⟨_, _, rfl⟩ := Option.map_eq_some_iff.mp hc
    obtain ⟨_, _, rfl⟩ := Option.map_eq_some_iff.mp hd
    exact before

section Lookup
variable [DecidableEq κ]

def get? (m : SortedMap κ β) (k : κ) : Option β := (m.entries.find? (·.1 = k)).map (·.2)

def contains (m : SortedMap κ β) (k : κ) : Bool := (m.get? k).isSome

def erase (m : SortedMap κ β) (k : κ) : SortedMap κ β where
  entries := m.entries.filter (·.1 ≠ k)
  ascending := m.ascending.filter _

@[simp] theorem get?_empty {k : κ} : (∅ : SortedMap κ β).get? k = none := rfl

variable [LawfulEqOrd κ]

theorem get?_eq_some_iff {m : SortedMap κ β} {k : κ} {v : β} :
    m.get? k = some v ↔ (k, v) ∈ m.entries := by
  obtain ⟨l, h⟩ := m
  simp only [get?, Option.map_eq_some_iff]
  induction l with
  | nil => simp
  | cons e rest ih =>
    obtain ⟨least, tail⟩ := List.pairwise_cons.mp h
    rw [List.find?_cons]
    by_cases same : e.1 = k
    · simp only [same, decide_true, Option.some.injEq, exists_eq_left', List.mem_cons]
      constructor
      · rintro rfl
        exact .inl (by rw [← same])
      · rintro (rfl | member)
        · rfl
        · have := least _ member
          simp [same] at this
    · simp only [same, decide_false, List.mem_cons, ih tail]
      constructor
      · exact .inr
      · rintro (rfl | member)
        · exact absurd rfl same
        · exact member

end Lookup

variable [TransOrd κ] [LawfulEqOrd κ]

/-- Stores a value under a key, in place of what was there. -/
def insert (m : SortedMap κ β) (k : κ) (v : β) : SortedMap κ β :=
  ⟨place k v m.entries, ascending_place m.ascending⟩

/-- Of several values under one key the last is kept. -/
def ofList (l : List (κ × β)) : SortedMap κ β := l.foldl (fun m e => m.insert e.1 e.2) ∅

section Laws
variable [DecidableEq κ]

theorem get?_insert {m : SortedMap κ β} {k x : κ} {v : β} :
    (m.insert k v).get? x = if x = k then some v else m.get? x := by
  obtain ⟨l, h⟩ := m
  simp only [get?, insert]
  induction l with
  | nil => by_cases same : x = k <;> simp [place, same, eq_comm]
  | cons e rest ih =>
    have ih := ih (List.pairwise_cons.mp h).2
    simp only [place]
    split
    · by_cases same : x = k <;> simp [List.find?_cons, same, eq_comm]
    · next equal =>
      have := LawfulEqOrd.eq_of_compare equal
      by_cases same : x = k <;> grind
    · next higher =>
      have : e.1 ≠ k := by
        rintro rfl
        simp at higher
      rw [List.find?_cons, List.find?_cons]
      by_cases here : e.1 = x
      · have : x ≠ k := by grind
        simp [here, this]
      · simpa [here] using ih

@[ext] theorem ext {m n : SortedMap κ β} (h : ∀ k, m.get? k = n.get? k) : m = n := by
  obtain ⟨l, hl⟩ := m
  obtain ⟨l', hl'⟩ := n
  have same (e : κ × β) : e ∈ l ↔ e ∈ l' := by
    have := h e.1
    constructor
    · intro member
      rw [(get?_eq_some_iff (m := ⟨l, hl⟩)).mpr member] at this
      exact get?_eq_some_iff.mp this.symm
    · intro member
      rw [(get?_eq_some_iff (m := ⟨l', hl'⟩)).mpr member] at this
      exact get?_eq_some_iff.mp this
  have irreflexive {x y : κ × β} (h : compare x.1 y.1 = .lt) : x ≠ y := by
    rintro rfl
    simp at h
  refine entries_inj.mp (List.Perm.eq_of_pairwise (fun x y _ _ hxy hyx => ?_) hl hl' ?_)
  · rw [OrientedOrd.eq_swap (α := κ), hxy] at hyx
    simp at hyx
  · exact (List.perm_ext_iff_of_nodup (hl.imp irreflexive) (hl'.imp irreflexive)).mpr same

end Laws

end SortedMap
end GuardedSaturation
