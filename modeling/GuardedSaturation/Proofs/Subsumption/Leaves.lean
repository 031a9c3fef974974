import Mathlib
import GuardedSaturation.Proofs.Subsumption.Tries

/-! The values of a trie with their paths, from left to right. Each path is met once, and a search answers the values whose
paths pass its test, in the same order. -/
namespace GuardedSaturation

variable {β : Type}

mutual
/-- The values with their paths, from left to right. -/
def Trie.entries : Trie β → List (List Nat × β)
  | .node v bs => (v.map ([], ·)).toList ++ bs.entries

def Branches.entries : Branches β → List (List Nat × β)
  | .nil => []
  | .cons k child rest => child.entries.map (fun e => (k :: e.1, e.2)) ++ rest.entries
end

@[simp] theorem Trie.entries_empty : (∅ : Trie β).entries = [] := by
  change (node none .nil).entries = []
  simp [entries, Branches.entries]

theorem Branches.Ordered.le_of_found {bs : Branches β} {n k : Nat} {path : List Nat} {x : β} (ordered : bs.Ordered n)
    (found : Trie.get? path (bs.child k) = some x) : n ≤ k := by
  by_contra below
  simp [ordered.child_below (Nat.lt_of_not_le below)] at found

theorem Trie.Ordered.ascends {t : Trie β} {n : Nat} {path : List Nat} {x : β} (ordered : t.Ordered n)
    (found : get? path t = some x) : Ascends n path := by
  induction path generalizing t n with
  | nil => trivial
  | cons k path ih =>
    obtain ⟨v, bs⟩ := t
    simp only [Ordered] at ordered
    rw [get?_cons] at found
    exact ⟨ordered.le_of_found found, ih (ordered.child k) found⟩

mutual
theorem Trie.mem_entries {n : Nat} {x : β} : (t : Trie β) → t.Ordered n → (path : List Nat) →
    ((path, x) ∈ t.entries ↔ Trie.get? path t = some x)
  | .node v bs, ordered, path => by
    simp only [Trie.Ordered] at ordered
    rw [Trie.entries, List.mem_append, Branches.mem_entries bs ordered path]
    cases path with
    | nil => simp
    | cons k path => simp [Trie.get?_cons]

theorem Branches.mem_entries {n : Nat} {x : β} : (bs : Branches β) → bs.Ordered n → (path : List Nat) →
    ((path, x) ∈ bs.entries ↔ ∃ k q, path = k :: q ∧ Trie.get? q (bs.child k) = some x)
  | .nil, _, path => by simp [Branches.entries]
  | .cons j child rest, ordered, path => by
    simp only [Branches.Ordered] at ordered
    obtain ⟨-, below, after⟩ := ordered
    rw [Branches.entries, List.mem_append, Branches.mem_entries rest after path]
    simp only [List.mem_map, Prod.exists, Prod.mk.injEq, Branches.child_cons]
    constructor
    · rintro (⟨q, x, member, rfl, rfl⟩ | ⟨k, q, rfl, found⟩)
      · exact ⟨j, q, rfl, by rwa [if_pos rfl, ← Trie.mem_entries child below q]⟩
      · refine ⟨k, q, rfl, ?_⟩
        rwa [if_neg (Nat.ne_of_lt (after.le_of_found found))]
    · rintro ⟨k, q, rfl, found⟩
      split at found
      · next same => exact .inl ⟨q, x, (Trie.mem_entries child below q).mpr found, by rw [same], rfl⟩
      · exact .inr ⟨k, q, rfl, found⟩
end

theorem Branches.Ordered.exists_cons {bs : Branches β} {n : Nat} (ordered : bs.Ordered n) {e : List Nat × β}
    (member : e ∈ bs.entries) : ∃ k q, e.1 = k :: q ∧ Ascends n (k :: q) := by
  obtain ⟨path, x⟩ := e
  obtain ⟨k, q, rfl, found⟩ := (Branches.mem_entries bs ordered path).mp member
  exact ⟨k, q, rfl, ordered.le_of_found found, (ordered.child k).ascends found⟩

mutual
theorem Trie.nodup_entries {n : Nat} : (t : Trie β) → t.Ordered n → (t.entries.map Prod.fst).Nodup
  | .node v bs, ordered => by
    simp only [Trie.Ordered] at ordered
    rw [Trie.entries, List.map_append]
    refine List.nodup_append.mpr ⟨by cases v <;> simp, Branches.nodup_entries bs ordered, ?_⟩
    rintro p here q below rfl
    obtain ⟨e, member, rfl⟩ := List.mem_map.mp below
    obtain ⟨k, q, path, -⟩ := ordered.exists_cons member
    cases v <;> simp [path] at here

theorem Branches.nodup_entries {n : Nat} : (bs : Branches β) → bs.Ordered n → (bs.entries.map Prod.fst).Nodup
  | .nil, _ => by simp [Branches.entries]
  | .cons j child rest, ordered => by
    simp only [Branches.Ordered] at ordered
    obtain ⟨-, below, after⟩ := ordered
    have paths : (child.entries.map (fun e => (j :: e.1, e.2))).map Prod.fst = (child.entries.map Prod.fst).map (j :: ·) := by
      simp [Function.comp_def]
    rw [Branches.entries, List.map_append, paths]
    refine List.nodup_append.mpr ⟨?_, Branches.nodup_entries rest after, ?_⟩
    · exact (Trie.nodup_entries child below).map (fun _ _ same => (List.cons.inj same).2)
    · rintro p first q later rfl
      obtain ⟨q, -, rfl⟩ := List.mem_map.mp first
      obtain ⟨e, member, path⟩ := List.mem_map.mp later
      obtain ⟨k, q', same, ascends⟩ := after.exists_cons member
      rw [path] at same
      have := ascends.1
      rw [← (List.cons.inj same).1] at this
      omega
end

theorem Branches.Ordered.filter_over {bs : Branches β} {n k : Nat} (ordered : bs.Ordered n) (least : k < n)
    (path : List Nat) : bs.entries.filter (fun e => (k :: path).Sublist e.1) = [] := by
  refine List.filter_eq_nil_iff.mpr (fun e member within => ?_)
  obtain ⟨j, q, same, ascends⟩ := ordered.exists_cons member
  have := ascends.le k (same ▸ (of_decide_eq_true within).subset List.mem_cons_self)
  omega

mutual
theorem Trie.valuesOver_eq {n : Nat} : (t : Trie β) → t.Ordered n → (path : List Nat) →
    t.valuesOver path = (t.entries.filter (fun e => path.Sublist e.1)).map Prod.snd
  | .node v bs, ordered, [] => by
    simp only [Trie.Ordered] at ordered
    rw [Trie.valuesOver, Branches.valuesOver_eq bs ordered [], Trie.entries, List.filter_append, List.map_append]
    cases v <;> simp
  | .node v bs, ordered, k :: path => by
    simp only [Trie.Ordered] at ordered
    rw [Trie.valuesOver, Branches.valuesOver_eq bs ordered (k :: path), Trie.entries, List.filter_append, List.map_append]
    cases v <;> simp

theorem Branches.valuesOver_eq {n : Nat} : (bs : Branches β) → bs.Ordered n → (path : List Nat) →
    bs.valuesOver path = (bs.entries.filter (fun e => path.Sublist e.1)).map Prod.snd
  | .nil, _, path => by simp [Branches.valuesOver, Branches.entries]
  | .cons i child rest, ordered, [] => by
    simp only [Branches.Ordered] at ordered
    rw [Branches.valuesOver, Trie.valuesOver_eq child ordered.2.1 [], Branches.valuesOver_eq rest ordered.2.2 [],
      Branches.entries, List.filter_append, List.map_append]
    simp [Function.comp_def]
  | .cons i child rest, ordered, k :: path => by
    simp only [Branches.Ordered] at ordered
    obtain ⟨-, below, after⟩ := ordered
    rw [Branches.valuesOver]
    split
    · next lower =>
      -- A number below the next one asked for is skipped: it is an extra of the stored path.
      have through (q : List Nat) : (k :: path).Sublist (i :: q) ↔ (k :: path).Sublist q := by
        simp [List.cons_sublist_cons', Nat.ne_of_gt lower]
      rw [Trie.valuesOver_eq child below (k :: path), Branches.valuesOver_eq rest after (k :: path), Branches.entries,
        List.filter_append, List.map_append]
      simp [List.filter_map, Function.comp_def, through]
    · split
      · next same =>
        subst same
        rw [Trie.valuesOver_eq child below path, Branches.entries, List.filter_append,
          after.filter_over (Nat.lt_succ_self i) path, List.append_nil]
        simp [List.filter_map, Function.comp_def]
      · next notLower notSame =>
        -- From here on all numbers are beyond the one asked for.
        have here : (Branches.cons i child rest).Ordered i := by
          simp only [Branches.Ordered]
          exact ⟨le_rfl, below, after⟩
        rw [here.filter_over (by omega) path, List.map_nil]
end

/-- The paths within `k :: path` go on from `k` within `path`, or are within `path`. -/
theorem Branches.Ordered.filter_within {bs : Branches β} {n k : Nat} {path : List Nat} (ordered : bs.Ordered n)
    (ascends : Ascends (k + 1) path) :
    bs.entries.filter (fun e => e.1.Sublist (k :: path)) =
      ((bs.child k).entries.filter (fun e => e.1.Sublist path)).map (fun e => (k :: e.1, e.2)) ++
        bs.entries.filter (fun e => e.1.Sublist path) := by
  induction bs generalizing n with
  | nil => simp [Branches.entries]
  | cons j first rest ih =>
    simp only [Branches.Ordered] at ordered
    obtain ⟨-, -, after⟩ := ordered
    -- A path through a number that the list does not have is not within it.
    have outside {l : List Nat} (absent : j ∉ l) :
        (first.entries.map (fun e => (j :: e.1, e.2))).filter (fun e => e.1.Sublist l) = [] := by
      refine List.filter_eq_nil_iff.mpr (fun e member within => ?_)
      obtain ⟨e, -, rfl⟩ := List.mem_map.mp member
      exact absent ((of_decide_eq_true within).subset List.mem_cons_self)
    have lowest (low : j < k + 1) : j ∉ path := fun member => by
      have := ascends.le j member
      omega
    rw [Branches.entries, List.filter_append, List.filter_append, ih after, Branches.child_cons]
    rcases Nat.lt_trichotomy j k with lower | rfl | higher
    · rw [if_neg (Nat.ne_of_lt lower), outside (lowest (by omega)), outside, List.nil_append, List.nil_append]
      simp [Nat.ne_of_lt lower, lowest (by omega)]
    · rw [if_pos rfl, after.child_below (Nat.lt_succ_self j), outside (lowest (by omega))]
      simp [List.filter_map, Function.comp_def]
    · rw [if_neg (Nat.ne_of_gt higher), after.child_below (by omega)]
      simp [List.filter_map, Function.comp_def, List.sublist_cons_iff, Nat.ne_of_gt higher]

namespace Trie
variable {n m : Nat} {path : List Nat}

theorem valuesBelow_cons (k : Nat) (path : List Nat) (v : Option β) (bs : Branches β) :
    valuesBelow (k :: path) (node v bs) = valuesWithin path (bs.child k) ++ valuesBelow path (node v bs) := by
  have nothing : valuesWithin path (∅ : Trie β) = [] := by
    induction path with
    | nil => rfl
    | cons j path ih => exact ih
  rw [valuesBelow, Branches.child]
  cases found : bs.find? k with
  | none => simp [child?, branches, found, nothing]
  | some child => simp [child?, branches, found, valuesWithin]

theorem valuesWithin_of_below (below : ∀ {n v} {bs : Branches β}, bs.Ordered n →
      valuesBelow path (node v bs) = (bs.entries.filter (fun e => e.1.Sublist path)).map Prod.snd)
    {t : Trie β} (ordered : t.Ordered n) :
    t.valuesWithin path = (t.entries.filter (fun e => e.1.Sublist path)).map Prod.snd := by
  obtain ⟨v, bs⟩ := t
  simp only [Ordered] at ordered
  rw [valuesWithin, below ordered, entries, List.filter_append, List.map_append]
  cases v <;> simp [value?]

theorem valuesBelow_eq {v : Option β} {bs : Branches β} (ordered : bs.Ordered n) (ascends : Ascends m path) :
    valuesBelow path (node v bs) = (bs.entries.filter (fun e => e.1.Sublist path)).map Prod.snd := by
  induction path generalizing v bs n m with
  | nil =>
    have none : bs.entries.filter (fun e => e.1.Sublist []) = [] := by
      refine List.filter_eq_nil_iff.mpr (fun e member within => ?_)
      obtain ⟨k, q, same, -⟩ := ordered.exists_cons member
      simp [same] at within
    rw [none]
    rfl
  | cons k path ih =>
    have through := valuesWithin_of_below (fun below => ih below ascends.2) (ordered.child k)
    rw [valuesBelow_cons, through, ih ordered ascends.2, ordered.filter_within ascends.2, List.map_append, List.map_map]
    rfl

theorem valuesWithin_eq {t : Trie β} (ordered : t.Ordered n) (ascends : Ascends m path) :
    t.valuesWithin path = (t.entries.filter (fun e => e.1.Sublist path)).map Prod.snd :=
  valuesWithin_of_below (fun below => valuesBelow_eq below ascends) ordered

end Trie

namespace SignatureTrie
variable {t : SignatureTrie β} {s : Signature}

/-- The values with their signatures, ascending by body, and by head under one body. -/
def leaves (t : SignatureTrie β) : List (Signature × β) :=
  (Trie.entries t).flatMap (fun e => e.2.entries.map (fun h => (⟨e.1, h.1⟩, h.2)))

theorem Ordered.heads_of_mem (ordered : t.Ordered) {e : List Nat × Trie β} (member : e ∈ Trie.entries t) :
    e.2.Ordered 0 :=
  ordered.heads e.1 e.2 ((Trie.mem_entries t ordered.bodies e.1).mp member)

theorem mem_leaves (ordered : t.Ordered) {x : β} : (s, x) ∈ t.leaves ↔ t.get? s = some x := by
  obtain ⟨body, head⟩ := s
  simp only [leaves, List.mem_flatMap, List.mem_map, Prod.exists, Prod.mk.injEq, Signature.mk.injEq, get?]
  rw [Option.bind_eq_some_iff]
  constructor
  · rintro ⟨_, heads, member, _, _, below, ⟨rfl, rfl⟩, rfl⟩
    exact ⟨heads, (Trie.mem_entries t ordered.bodies _).mp member,
      (Trie.mem_entries heads (ordered.heads_of_mem member) _).mp below⟩
  · rintro ⟨heads, found, value⟩
    have member := (Trie.mem_entries t ordered.bodies body).mpr found
    have below := (Trie.mem_entries heads (ordered.heads_of_mem member) head).mpr value
    exact ⟨body, heads, member, head, x, below, ⟨rfl, rfl⟩, rfl⟩

theorem Ordered.ascends_of_mem (ordered : t.Ordered) {l : Signature × β} (member : l ∈ t.leaves) :
    Ascends 0 l.1.body ∧ Ascends 0 l.1.head := by
  obtain ⟨under, found, value⟩ := Option.bind_eq_some_iff.mp ((mem_leaves ordered).mp member)
  exact ⟨ordered.bodies.ascends found, (ordered.heads _ under found).ascends value⟩

/-- No signature has two leaves. -/
theorem nodup_leaves (ordered : t.Ordered) : (t.leaves.map Prod.fst).Nodup := by
  have signatures : t.leaves.map Prod.fst =
      (Trie.entries t).flatMap (fun e => (e.2.entries.map Prod.fst).map (fun head => (⟨e.1, head⟩ : Signature))) := by
    simp [leaves, List.map_flatMap, Function.comp_def]
  rw [signatures]
  refine List.nodup_flatMap.mpr ⟨fun e member => ?_, ?_⟩
  · exact (Trie.nodup_entries e.2 (ordered.heads_of_mem member)).map (fun _ _ same => (Signature.mk.inj same).2)
  · refine (List.pairwise_map.mp (Trie.nodup_entries t ordered.bodies)).imp (fun {e e'} apart => ?_)
    intro s here there
    obtain ⟨head, -, rfl⟩ := List.mem_map.mp here
    obtain ⟨head', -, same⟩ := List.mem_map.mp there
    exact apart (Signature.mk.inj same).1.symm

/-- To search in the bodies and then in the heads below them is to search in the signatures. -/
theorem select_leaves (t : SignatureTrie β) (inBody inHead : List Nat → Bool) :
    ((Trie.entries t).filter (fun e => inBody e.1)).flatMap (fun e => (e.2.entries.filter (fun h => inHead h.1)).map Prod.snd) =
      (t.leaves.filter (fun e => inBody e.1.body && inHead e.1.head)).map Prod.snd := by
  rw [leaves]
  induction Trie.entries t with
  | nil => rfl
  | cons e rest ih =>
    rw [List.flatMap_cons, List.filter_append, List.map_append, ← ih]
    cases body : inBody e.1 with
    | false => simp [List.filter_map, Function.comp_def, body]
    | true => simp [List.filter_map, Function.comp_def, body]

theorem subsuming_eq (ordered : t.Ordered) {n : Nat} (ascends : Ascends n s.body) :
    t.subsuming s = (t.leaves.filter (fun e => e.1.body.Sublist s.body && s.head.Sublist e.1.head)).map Prod.snd := by
  rw [subsuming, Trie.valuesWithin_eq ordered.bodies ascends, List.flatMap_map,
    ← select_leaves t (fun body => body.Sublist s.body) (fun head => s.head.Sublist head)]
  refine List.flatMap_congr (fun e member => ?_)
  exact Trie.valuesOver_eq e.2 (ordered.heads_of_mem (List.mem_of_mem_filter member)) s.head

theorem subsumed_eq (ordered : t.Ordered) {n : Nat} (ascends : Ascends n s.head) :
    t.subsumed s = (t.leaves.filter (fun e => s.body.Sublist e.1.body && e.1.head.Sublist s.head)).map Prod.snd := by
  rw [subsumed, Trie.valuesOver_eq t ordered.bodies s.body, List.flatMap_map,
    ← select_leaves t (fun body => s.body.Sublist body) (fun head => head.Sublist s.head)]
  refine List.flatMap_congr (fun e member => ?_)
  exact Trie.valuesWithin_eq (ordered.heads_of_mem (List.mem_of_mem_filter member)) ascends

theorem mem_subsuming (ordered : t.Ordered) {n : Nat} (ascends : Ascends n s.body) {x : β} :
    x ∈ t.subsuming s ↔ ∃ r : Signature, r.body.Sublist s.body ∧ s.head.Sublist r.head ∧ t.get? r = some x := by
  simp [subsuming_eq ordered ascends, mem_leaves ordered, and_assoc, and_left_comm]

theorem mem_subsumed (ordered : t.Ordered) {n : Nat} (ascends : Ascends n s.head) {x : β} :
    x ∈ t.subsumed s ↔ ∃ r : Signature, s.body.Sublist r.body ∧ r.head.Sublist s.head ∧ t.get? r = some x := by
  simp [subsumed_eq ordered ascends, mem_leaves ordered, and_assoc, and_left_comm]

end SignatureTrie
end GuardedSaturation
