import Mathlib
import GuardedSaturation.AtomSet
import GuardedSaturation.Numbering

/-! Codes of sets of atoms: the numbers of their keys, perhaps folded into bags. A code is kept
while further keys are numbered, and follows inclusion of the sets. -/
namespace GuardedSaturation

namespace SortedSet
variable {α : Type} [Ord α] [Std.TransOrd α] [Std.LawfulEqOrd α] {s t : SortedSet α}

theorem sublist_iff : s.toList.Sublist t.toList ↔ s ⊆ t := by
  refine ⟨fun within a member => within.subset member, fun within => ?_⟩
  obtain ⟨l, perm, sublist⟩ := List.subperm_of_subset s.nodup within
  have same : l = s.toList := by
    refine List.Perm.eq_of_pairwise (fun a b _ _ before after => ?_) (t.ascending.sublist sublist) s.ascending perm
    rw [Std.OrientedOrd.eq_swap (α := α), before] at after
    simp at after
  exact same ▸ sublist

end SortedSet

namespace Numbering
variable {α : Type} {n m : Numbering α}

/-- One numbering goes on from the other. -/
def Extends (m n : Numbering α) : Prop := ∃ more, m.keys = n.keys ++ more

theorem Extends.trans {p : Numbering α} (first : p.Extends m) (second : m.Extends n) : p.Extends n := by
  obtain ⟨more, here⟩ := first
  obtain ⟨less, there⟩ := second
  exact ⟨less ++ more, by rw [here, there, List.append_assoc]⟩

theorem Extends.mem (longer : m.Extends n) {k : α} (member : k ∈ n.keys) : k ∈ m.keys := by
  obtain ⟨more, same⟩ := longer
  exact same ▸ List.mem_append_left _ member

variable [DecidableEq α]

theorem keys_note (n : Numbering α) (k : α) : ∃ more, (n.note k).keys = n.keys ++ more := by
  unfold note
  split
  · exact ⟨[], by simp⟩
  · exact ⟨[k], rfl⟩

theorem mem_note (n : Numbering α) (k : α) : k ∈ (n.note k).keys := by
  unfold note
  split
  · assumption
  · simp

theorem keys_noteAll (n : Numbering α) (ks : List α) : ∃ more, (n.noteAll ks).keys = n.keys ++ more := by
  induction ks generalizing n with
  | nil => exact ⟨[], by simp [noteAll]⟩
  | cons k ks ih =>
    obtain ⟨first, here⟩ := n.keys_note k
    obtain ⟨more, later⟩ := ih (n.note k)
    exact ⟨first ++ more, by rw [noteAll, List.foldl_cons, ← noteAll, later, here, List.append_assoc]⟩

theorem mem_noteAll (n : Numbering α) {ks : List α} {k : α} (member : k ∈ ks) : k ∈ (n.noteAll ks).keys := by
  induction ks generalizing n with
  | nil => simp at member
  | cons j ks ih =>
    rw [noteAll, List.foldl_cons, ← noteAll]
    rcases List.mem_cons.mp member with rfl | member
    · obtain ⟨more, later⟩ := (n.note k).keys_noteAll ks
      rw [later]
      exact List.mem_append_left _ (n.mem_note k)
    · exact ih _ member

theorem get?_eq_some {k : α} {i : Nat} : n.get? k = some i ↔ k ∈ n.keys ∧ n.keys.idxOf k = i := by
  rw [get?, List.idxOf?_eq_some_iff]
  constructor
  · rintro ⟨bound, same, first⟩
    have here : n.keys[i] = k := by simpa using same
    refine ⟨here ▸ List.getElem_mem bound, ?_⟩
    rw [← here]
    exact List.Nodup.idxOf_getElem n.distinct i bound
  · rintro ⟨member, rfl⟩
    refine ⟨List.idxOf_lt_length_iff.mpr member, by simp, fun j before => ?_⟩
    simpa using List.not_of_lt_findIdx before

theorem get?_eq_none {k : α} : n.get? k = none ↔ k ∉ n.keys := by simp [get?]

theorem Extends.idxOf (longer : m.Extends n) {k : α} (member : k ∈ n.keys) : m.keys.idxOf k = n.keys.idxOf k := by
  obtain ⟨more, same⟩ := longer
  rw [same, List.idxOf_append_of_mem member]

end Numbering

section Codes
variable {α : Type} {n m : Numbering α} {key : Atom → α} {bag : Nat → Nat} {s t : AtomSet}

def Numbering.Knows (n : Numbering α) (key : Atom → α) (s : AtomSet) : Prop := ∀ a ∈ s, key a ∈ n.keys

theorem Numbering.Knows.mono (longer : m.Extends n) (known : n.Knows key s) : m.Knows key s :=
  fun a member => longer.mem (known a member)

variable [DecidableEq α]

/-- The bags of the numbers, as a set. -/
def Numbering.code (n : Numbering α) (key : Atom → α) (bag : Nat → Nat) (s : AtomSet) : SortedSet Nat :=
  .ofList (((s.toList.map key).map n.keys.idxOf).map bag)

/-- The bags of those numbers that there are. -/
def Numbering.partialCode (n : Numbering α) (key : Atom → α) (bag : Nat → Nat) (s : AtomSet) : SortedSet Nat :=
  .ofList ((s.toList.filterMap (fun a => n.get? (key a))).map bag)

namespace Numbering

theorem mem_code {i : Nat} : i ∈ n.code key bag s ↔ ∃ a ∈ s, bag (n.keys.idxOf (key a)) = i := by
  simp [code, SortedSet.mem_toList]

theorem mem_partialCode {i : Nat} :
    i ∈ n.partialCode key bag s ↔ ∃ a ∈ s, key a ∈ n.keys ∧ bag (n.keys.idxOf (key a)) = i := by
  simp only [partialCode, SortedSet.mem_ofList, List.mem_map, List.mem_filterMap, SortedSet.mem_toList, get?_eq_some]
  constructor
  · rintro ⟨j, ⟨a, member, known, rfl⟩, rfl⟩
    exact ⟨a, member, known, rfl⟩
  · rintro ⟨a, member, known, rfl⟩
    exact ⟨_, ⟨a, member, known, rfl⟩, rfl⟩

theorem Knows.code (longer : m.Extends n) (known : n.Knows key s) : m.code key bag s = n.code key bag s := by
  ext i
  simp only [mem_code]
  apply exists_congr
  intro _
  apply and_congr_right
  intro member
  rw [longer.idxOf (known _ member)]

theorem knows_noteAll (n : Numbering α) (key : Atom → α) (s : AtomSet) :
    (n.noteAll (s.toList.map key)).Knows key s :=
  fun _ member => n.mem_noteAll (List.mem_map_of_mem (SortedSet.mem_toList.mpr member))

theorem mapM_get? (n : Numbering α) (key : Atom → α) (l : List Atom) :
    l.mapM (fun a => n.get? (key a)) =
      if ∀ a ∈ l, key a ∈ n.keys then some (l.map (fun a => n.keys.idxOf (key a))) else none := by
  induction l with
  | nil => simp
  | cons a l ih =>
    rw [List.mapM_cons, ih]
    simp only [List.forall_mem_cons]
    by_cases here : key a ∈ n.keys
    · rw [get?_eq_some.mpr ⟨here, rfl⟩]
      by_cases rest : ∀ b ∈ l, key b ∈ n.keys
      · rw [if_pos rest, if_pos ⟨here, rest⟩]
        rfl
      · rw [if_neg rest, if_neg (not_and_of_not_right _ rest)]
        rfl
    · rw [get?_eq_none.mpr here]
      simp [here]

theorem code_subset (known : n.Knows key s) (within : s ⊆ t) : n.code key bag s ⊆ n.partialCode key bag t := by
  intro i member
  obtain ⟨a, inside, same⟩ := mem_code.mp member
  exact mem_partialCode.mpr ⟨a, within a inside, known a inside, same⟩

theorem code_mono (within : s ⊆ t) : n.code key bag s ⊆ n.code key bag t := by
  intro i member
  obtain ⟨a, inside, same⟩ := mem_code.mp member
  exact mem_code.mpr ⟨a, within a inside, same⟩

/-- Where keys are the atoms themselves and bags their own numbers, inclusion can be read off. -/
theorem subset_of_code {n : Numbering Atom} {s t : AtomSet}
    (within : n.code id id s ⊆ n.partialCode id id t) : s ⊆ t := by
  intro a member
  obtain ⟨b, inside, known', same⟩ := mem_partialCode.mp (within _ (mem_code.mpr ⟨a, member, rfl⟩))
  have equal : b = a := (List.idxOf_inj known').mp same
  exact equal ▸ inside

theorem subset_of_code' {n : Numbering Atom} {s t : AtomSet} (known : n.Knows id t)
    (within : n.code id id s ⊆ n.code id id t) : s ⊆ t := by
  intro a member
  obtain ⟨b, inside, same⟩ := mem_code.mp (within _ (mem_code.mpr ⟨a, member, rfl⟩))
  have equal : b = a := (List.idxOf_inj (known b inside)).mp same
  exact equal ▸ inside

end Numbering
end Codes
end GuardedSaturation
