import Mathlib
import GuardedSaturation.Subsumption.Signature

/-! Tries as maps from ascending lists of numbers: changing a value changes no other. -/
namespace GuardedSaturation

variable {β : Type}

/-- The list ascends strictly and has no number below `n`. -/
def Ascends : Nat → List Nat → Prop
  | _, [] => True
  | n, k :: path => n ≤ k ∧ Ascends (k + 1) path

namespace Ascends
variable {m n : Nat} {path : List Nat}

theorem le (ascends : Ascends n path) : ∀ k ∈ path, n ≤ k := by
  induction path generalizing n with
  | nil => simp
  | cons j path ih =>
    intro k member
    rcases List.mem_cons.mp member with rfl | member
    · exact ascends.1
    · exact (ascends.1.trans (Nat.le_succ j)).trans (ih ascends.2 k member)

theorem pairwise (ascends : Ascends n path) : path.Pairwise (· < ·) := by
  induction path generalizing n with
  | nil => exact .nil
  | cons k path ih => exact List.pairwise_cons.mpr ⟨ascends.2.le, ih ascends.2⟩

theorem of_pairwise (pairs : path.Pairwise (· < ·)) (above : ∀ k ∈ path, n ≤ k) : Ascends n path := by
  induction path generalizing n with
  | nil => trivial
  | cons k path ih =>
    obtain ⟨least, tail⟩ := List.pairwise_cons.mp pairs
    exact ⟨above k List.mem_cons_self, ih tail least⟩

/-- Of ascending lists, one is a sublist of the other if its members are members of the other. -/
theorem sublist_iff {path' : List Nat} (ascends : Ascends n path) (ascends' : Ascends m path') :
    path.Sublist path' ↔ path ⊆ path' := by
  refine ⟨List.Sublist.subset, fun within => ?_⟩
  have subperm := List.subperm_of_subset ascends.pairwise.nodup within
  exact List.sublist_of_subperm_of_pairwise subperm ascends.pairwise ascends'.pairwise

end Ascends

theorem SortedSet.ascends (s : SortedSet Nat) : Ascends 0 s.toList :=
  .of_pairwise (s.ascending.imp Nat.compare_eq_lt.mp) (fun k _ => Nat.zero_le k)

mutual
/-- The numbers on every path down ascend, from `n` at least, and so do those of siblings. -/
def Trie.Ordered (n : Nat) : Trie β → Prop
  | .node _ bs => bs.Ordered n

def Branches.Ordered (n : Nat) : Branches β → Prop
  | .nil => True
  | .cons k child rest => n ≤ k ∧ child.Ordered (k + 1) ∧ rest.Ordered (k + 1)
end

namespace Branches

@[elab_as_elim, induction_eliminator]
theorem induct {motive : Branches β → Prop} (nil : motive .nil)
    (cons : ∀ k child rest, motive rest → motive (.cons k child rest)) : ∀ bs, motive bs :=
  @Branches.rec β (fun _ => True) motive (fun _ _ _ => trivial) nil (fun k child rest _ ih => cons k child rest ih)

/-- The trie under a number, empty if there is no branch. -/
def child (bs : Branches β) (k : Nat) : Trie β := (bs.find? k).getD ∅

@[simp] theorem child_nil (k : Nat) : (.nil : Branches β).child k = ∅ := rfl

theorem child_cons (j k : Nat) (first : Trie β) (rest : Branches β) :
    (cons j first rest).child k = if j = k then first else rest.child k := by
  simp only [child, find?]
  split <;> rfl

end Branches

namespace Trie

@[simp] theorem get?_nil (v : Option β) (bs : Branches β) : get? [] (node v bs) = v := by simp [get?, value?]

@[simp] theorem get?_empty (path : List Nat) : get? path (∅ : Trie β) = none := by
  cases path with
  | nil => rfl
  | cons k path => rfl

theorem get?_cons (v : Option β) (bs : Branches β) (k : Nat) (path : List Nat) :
    get? (k :: path) (node v bs) = get? path (bs.child k) := by
  have cases (found : Option (Trie β)) : found.bind (get? path) = get? path (found.getD ∅) := by
    cases found <;> simp
  rw [get?, child?, branches, cases, Branches.child]

theorem eq_empty_of_isEmpty {t : Trie β} (empty : t.isEmpty = true) : t = ∅ := by
  obtain ⟨v, bs⟩ := t
  simp only [isEmpty, value?, branches, Bool.and_eq_true, Option.isNone_iff_eq_none] at empty
  obtain ⟨rfl, empty⟩ := empty
  cases bs with
  | nil => rfl
  | cons j child rest => simp [Branches.isEmpty] at empty

theorem ordered_empty (n : Nat) : (∅ : Trie β).Ordered n := by
  change (node none .nil).Ordered n
  simp [Ordered, Branches.Ordered]

end Trie

namespace Branches
variable {bs : Branches β} {n : Nat}

theorem Ordered.mono {m : Nat} (ordered : bs.Ordered n) (below : m ≤ n) : bs.Ordered m := by
  cases bs with
  | nil => simp [Ordered]
  | cons k child rest =>
    simp only [Ordered] at *
    exact ⟨below.trans ordered.1, ordered.2⟩

theorem Ordered.child_below (ordered : bs.Ordered n) {k : Nat} (below : k < n) : bs.child k = ∅ := by
  induction bs generalizing n with
  | nil => rfl
  | cons j first rest ih =>
    simp only [Ordered] at ordered
    rw [child_cons, if_neg (by omega), ih ordered.2.2 (by omega)]

theorem Ordered.child (ordered : bs.Ordered n) (k : Nat) : (bs.child k).Ordered (k + 1) := by
  induction bs generalizing n with
  | nil => exact Trie.ordered_empty _
  | cons j first rest ih =>
    simp only [Ordered] at ordered
    rw [child_cons]
    split
    · next same => exact same ▸ ordered.2.1
    · exact ih ordered.2.2

theorem child_grow (k j : Nat) (first : Trie β) (rest : Branches β) (absent : rest.child k = ∅) :
    (grow k first rest).child j = if k = j then first else rest.child j := by
  unfold grow
  split
  · next empty =>
    split
    · next same => rw [← same, absent, Trie.eq_empty_of_isEmpty empty]
    · rfl
  · exact child_cons k j first rest

theorem Ordered.grow {k : Nat} {first : Trie β} (rest : bs.Ordered (k + 1)) (above : n ≤ k)
    (child : first.Ordered (k + 1)) : (grow k first bs).Ordered n := by
  unfold Branches.grow
  split
  · exact rest.mono (by omega)
  · simp only [Ordered]
    exact ⟨above, child, rest⟩

theorem child_alter (ordered : bs.Ordered n) (k j : Nat) (f : Trie β → Trie β) :
    (bs.alter k f).child j = if k = j then f (bs.child k) else bs.child j := by
  induction bs generalizing n with
  | nil => exact child_grow k j _ .nil rfl
  | cons i first rest ih =>
    simp only [Ordered] at ordered
    simp only [alter]
    split
    · next before =>
      have absent : (cons i first rest).child k = ∅ := by
        rw [child_cons, if_neg (by omega), ordered.2.2.child_below (by omega)]
      rw [child_grow _ _ _ _ absent, absent]
    · split
      · next same =>
        subst same
        rw [child_grow _ _ _ _ (ordered.2.2.child_below (by omega)), child_cons, child_cons, if_pos rfl]
        split <;> rfl
      · next after =>
        rw [child_cons, child_cons, child_cons, ih ordered.2.2]
        split
        · next same => rw [if_neg (by omega)]
        · rw [if_neg (Ne.symm after)]

theorem Ordered.alter (ordered : bs.Ordered n) {k : Nat} (above : n ≤ k) {f : Trie β → Trie β}
    (keeps : ∀ t, t.Ordered (k + 1) → (f t).Ordered (k + 1)) : (bs.alter k f).Ordered n := by
  induction bs generalizing n with
  | nil => exact Ordered.grow (by simp [Ordered]) above (keeps _ (Trie.ordered_empty _))
  | cons i first rest ih =>
    simp only [Ordered] at ordered
    obtain ⟨least, child, tail⟩ := ordered
    simp only [Branches.alter]
    split
    · next before =>
      refine Ordered.grow ?_ above (keeps _ (Trie.ordered_empty _))
      simp only [Ordered]
      exact ⟨before, child, tail⟩
    · split
      · next same =>
        subst same
        exact tail.grow least (keeps _ child)
      · simp only [Ordered]
        exact ⟨least, child, ih tail (by omega)⟩

end Branches

namespace Trie
variable {t : Trie β} {n : Nat}

theorem Ordered.alter (f : Option β → Option β) {path : List Nat} (ordered : t.Ordered n)
    (ascends : Ascends n path) : (alter f path t).Ordered n := by
  induction path generalizing t n with
  | nil =>
    obtain ⟨v, bs⟩ := t
    simpa [Trie.alter, Ordered] using ordered
  | cons k path ih =>
    obtain ⟨v, bs⟩ := t
    simp only [Ordered] at ordered
    simp only [Trie.alter, Ordered]
    exact ordered.alter ascends.1 (fun child below => ih below ascends.2)

theorem get?_alter (f : Option β → Option β) {path : List Nat} (ordered : t.Ordered n) (other : List Nat) :
    get? other (alter f path t) = if other = path then f (get? path t) else get? other t := by
  induction path generalizing t n other with
  | nil =>
    obtain ⟨v, bs⟩ := t
    cases other <;> simp [alter, get?_cons]
  | cons k path ih =>
    obtain ⟨v, bs⟩ := t
    simp only [Ordered] at ordered
    cases other with
    | nil => simp [alter]
    | cons j other =>
      rw [alter, get?_cons, get?_cons, get?_cons, Branches.child_alter ordered]
      by_cases same : k = j
      · subst same
        rw [if_pos rfl, ih (ordered.child k)]
        simp
      · rw [if_neg same, if_neg (by simp [Ne.symm same])]

end Trie

namespace SignatureTrie
variable {t : SignatureTrie β} {s : Signature}

structure Ordered (t : SignatureTrie β) : Prop where
  bodies : Trie.Ordered 0 t
  heads : ∀ path under, Trie.get? path t = some under → Trie.Ordered 0 under

theorem ordered_empty : Ordered (∅ : SignatureTrie β) :=
  ⟨Trie.ordered_empty 0, fun path under found => by simp at found⟩

theorem get?_empty (s : Signature) : get? (∅ : SignatureTrie β) s = none := by simp [get?]

theorem Ordered.under (ordered : t.Ordered) (path : List Nat) :
    ((Trie.get? path t).getD ∅).Ordered 0 := by
  cases found : Trie.get? path t with
  | none => exact Trie.ordered_empty 0
  | some under => exact ordered.heads path under found

theorem get?_eq (t : SignatureTrie β) (s : Signature) :
    t.get? s = ((Trie.get? s.body t).getD ∅).get? s.head := by
  rw [get?]
  cases Trie.get? s.body t <;> simp

theorem Ordered.alter (ordered : t.Ordered) (body : Ascends 0 s.body) (head : Ascends 0 s.head)
    (f : Option β → Option β) : (alter t s f).Ordered := by
  refine ⟨ordered.bodies.alter _ body, fun path under found => ?_⟩
  rw [SignatureTrie.alter, Trie.get?_alter _ ordered.bodies] at found
  split at found
  · rw [Option.ite_none_left_eq_some, Option.some.injEq] at found
    rw [← found.2]
    exact (ordered.under s.body).alter f head
  · exact ordered.heads path under found

theorem get?_alter (ordered : t.Ordered) (f : Option β → Option β) (other : Signature) :
    (alter t s f).get? other = if other = s then f (t.get? s) else t.get? other := by
  obtain ⟨b, h⟩ := other
  rw [get?_eq, SignatureTrie.alter, Trie.get?_alter _ ordered.bodies]
  by_cases same : b = s.body
  · subst same
    have changed (heads : Trie β) : (if heads.isEmpty then none else some heads).getD ∅ = heads := by
      split
      · next empty => exact (Trie.eq_empty_of_isEmpty empty).symm
      · rfl
    simp only [if_true, changed]
    rw [Trie.get?_alter f (ordered.under s.body), get?_eq, get?_eq]
    refine if_congr ?_ rfl rfl
    cases s
    simp
  · rw [if_neg same, if_neg (fun equal => same (by rw [← equal])), get?_eq]

end SignatureTrie
end GuardedSaturation
