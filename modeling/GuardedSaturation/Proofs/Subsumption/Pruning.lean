import Mathlib
import GuardedSaturation.Proofs.Subsumption.Tries

/-! Tries without dead branches. Changing a value prunes whatever branches it leaves empty, across bodies and heads, and a
trie where nothing changes stays the very trie it was. -/
namespace GuardedSaturation

variable {β : Type}

mutual
/-- Below every branch there is a value. -/
def Trie.Pruned : Trie β → Prop
  | .node _ bs => bs.Pruned

def Branches.Pruned : Branches β → Prop
  | .nil => True
  | .cons _ child rest => (∃ path x, Trie.get? path child = some x) ∧ child.Pruned ∧ rest.Pruned
end

@[simp] theorem Trie.isEmpty_empty : (∅ : Trie β).isEmpty = true := rfl

theorem Trie.not_isEmpty {t : Trie β} {path : List Nat} {x : β} (found : get? path t = some x) : ¬ t.isEmpty = true := by
  intro empty
  simp [eq_empty_of_isEmpty empty] at found

theorem Trie.pruned_empty : (∅ : Trie β).Pruned := by
  change (node none .nil).Pruned
  simp [Pruned, Branches.Pruned]

theorem Trie.Pruned.exists_value {t : Trie β} (pruned : t.Pruned) (nonempty : t.isEmpty = false) :
    ∃ path x, get? path t = some x := by
  obtain ⟨v, bs⟩ := t
  cases v with
  | some x => exact ⟨[], x, get?_nil _ bs⟩
  | none =>
    cases bs with
    | nil => simp [isEmpty, value?, branches, Branches.isEmpty] at nonempty
    | cons k child rest =>
      simp only [Pruned, Branches.Pruned] at pruned
      obtain ⟨⟨path, x, found⟩, -⟩ := pruned
      exact ⟨k :: path, x, by rwa [get?_cons, Branches.child_cons, if_pos rfl]⟩

namespace Branches

theorem Pruned.child {bs : Branches β} (pruned : bs.Pruned) (k : Nat) : (bs.child k).Pruned := by
  induction bs with
  | nil => exact Trie.pruned_empty
  | cons j first rest ih =>
    simp only [Pruned] at pruned
    rw [child_cons]
    split
    · exact pruned.2.1
    · exact ih pruned.2.2

theorem Pruned.grow {rest : Branches β} {child : Trie β} (pruned : rest.Pruned) (below : child.Pruned) (k : Nat) :
    (grow k child rest).Pruned := by
  unfold Branches.grow
  split
  · exact pruned
  · next nonempty =>
    simp only [Pruned]
    exact ⟨below.exists_value (Bool.eq_false_iff.mpr nonempty), below, pruned⟩

theorem Pruned.alter {bs : Branches β} (pruned : bs.Pruned) (k : Nat) {f : Trie β → Trie β}
    (keeps : ∀ t, t.Pruned → (f t).Pruned) : (bs.alter k f).Pruned := by
  induction bs with
  | nil => exact pruned.grow (keeps _ Trie.pruned_empty) k
  | cons j child rest ih =>
    have all := pruned
    simp only [Pruned] at pruned
    obtain ⟨value, below, after⟩ := pruned
    simp only [Branches.alter]
    split
    · exact all.grow (keeps _ Trie.pruned_empty) k
    · split
      · exact after.grow (keeps child below) j
      · simp only [Pruned]
        exact ⟨value, below, ih after⟩

end Branches

theorem Trie.Pruned.alter {t : Trie β} (pruned : t.Pruned) (f : Option β → Option β) (path : List Nat) :
    (alter f path t).Pruned := by
  induction path generalizing t with
  | nil =>
    obtain ⟨v, bs⟩ := t
    simpa [Trie.alter, Pruned] using pruned
  | cons k path ih =>
    obtain ⟨v, bs⟩ := t
    simp only [Pruned] at pruned
    simp only [Trie.alter, Pruned]
    exact pruned.alter k (fun child below => ih below)

theorem Branches.alter_eq_self {bs : Branches β} {n : Nat} (ordered : bs.Ordered n) (pruned : bs.Pruned) {k : Nat}
    {f : Trie β → Trie β} (same : f (bs.child k) = bs.child k) : bs.alter k f = bs := by
  induction bs generalizing n with
  | nil => simp [Branches.alter, Branches.grow, show f ∅ = ∅ from same]
  | cons j child rest ih =>
    simp only [Ordered] at ordered
    simp only [Pruned] at pruned
    obtain ⟨-, -, after⟩ := ordered
    obtain ⟨⟨path, x, found⟩, -, later⟩ := pruned
    rw [child_cons] at same
    simp only [Branches.alter]
    split
    · next before =>
      rw [if_neg (by omega), after.child_below (by omega)] at same
      rw [same, Branches.grow, if_pos Trie.isEmpty_empty]
    · split
      · next here =>
        rw [if_pos here.symm] at same
        rw [same, Branches.grow, if_neg (Trie.not_isEmpty found)]
      · next other =>
        rw [if_neg (Ne.symm other)] at same
        rw [ih after later same]

/-- Where nothing else comes to be stored, the trie stays as it is. -/
theorem Trie.alter_eq_self {t : Trie β} {n : Nat} (ordered : t.Ordered n) (pruned : t.Pruned) {f : Option β → Option β}
    {path : List Nat} (same : f (get? path t) = get? path t) : alter f path t = t := by
  induction path generalizing t n with
  | nil =>
    obtain ⟨v, bs⟩ := t
    rw [get?_nil] at same
    rw [alter, same]
  | cons k path ih =>
    obtain ⟨v, bs⟩ := t
    simp only [Ordered] at ordered
    simp only [Pruned] at pruned
    rw [get?_cons] at same
    rw [alter, Branches.alter_eq_self ordered pruned (ih (ordered.child k) (pruned.child k) same)]

namespace SignatureTrie

/-- No branch, of bodies or of heads, is without a value below it. -/
structure Pruned (t : SignatureTrie β) : Prop where
  bodies : Trie.Pruned t
  heads : ∀ body under, Trie.get? body t = some under → under.Pruned ∧ ∃ head x, Trie.get? head under = some x

theorem pruned_empty : Pruned (∅ : SignatureTrie β) := ⟨Trie.pruned_empty, fun body under found => by simp at found⟩

theorem Pruned.under {t : SignatureTrie β} (pruned : t.Pruned) (body : List Nat) :
    Trie.Pruned ((Trie.get? body t).getD ∅) := by
  cases found : Trie.get? body t with
  | none => exact Trie.pruned_empty
  | some under => exact (pruned.heads body under found).1

theorem Pruned.alter {t : SignatureTrie β} (pruned : t.Pruned) (ordered : t.Ordered) (s : Signature)
    (f : Option β → Option β) : (alter t s f).Pruned := by
  refine ⟨pruned.bodies.alter _ s.body, fun body under found => ?_⟩
  rw [SignatureTrie.alter, Trie.get?_alter _ ordered.bodies] at found
  split at found
  · rw [Option.ite_none_left_eq_some, Option.some.injEq] at found
    obtain ⟨nonempty, rfl⟩ := found
    have heads := (pruned.under s.body).alter f s.head
    exact ⟨heads, heads.exists_value (Bool.eq_false_iff.mpr nonempty)⟩
  · exact pruned.heads body under found

theorem alter_eq_self {t : SignatureTrie β} (ordered : t.Ordered) (pruned : t.Pruned) {s : Signature}
    {f : Option β → Option β} (same : f (t.get? s) = t.get? s) : alter t s f = t := by
  rw [get?_eq] at same
  have heads := Trie.alter_eq_self (ordered.under s.body) (pruned.under s.body) same
  refine Trie.alter_eq_self ordered.bodies pruned.bodies ?_
  rw [heads]
  cases found : Trie.get? s.body t with
  | none => simp
  | some under =>
    obtain ⟨head, x, value⟩ := (pruned.heads s.body under found).2
    rw [Option.getD_some, if_neg (Trie.not_isEmpty value)]

theorem Pruned.isEmpty_iff {t : SignatureTrie β} (pruned : t.Pruned) : Trie.isEmpty t = true ↔ ∀ s, t.get? s = none := by
  constructor
  · intro empty s
    rw [Trie.eq_empty_of_isEmpty empty]
    exact get?_empty s
  · intro nothing
    by_contra nonempty
    obtain ⟨body, under, found⟩ := pruned.bodies.exists_value (Bool.eq_false_iff.mpr nonempty)
    obtain ⟨head, x, value⟩ := (pruned.heads body under found).2
    have absent := nothing ⟨body, head⟩
    simp [get?, found, value] at absent

end SignatureTrie
end GuardedSaturation
