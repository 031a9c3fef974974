import Mathlib
import GuardedSaturation.Proofs.Subsumption.Leaves
import GuardedSaturation.Proofs.Subsumption.Pruning
import GuardedSaturation.Proofs.Subsumption.RuleLists

/-! Tries of signatures where rules come and go. They hold what the edits of each signature leave there and nothing else, no
branch is left without a value, and a search meets each leaf that it asks for once. The trie of a subsumer comes about
by such edits. -/
namespace GuardedSaturation

/-- Both sequences ascend strictly. -/
def Signature.Ascending (s : Signature) : Prop := s.body.Pairwise (· < ·) ∧ s.head.Pairwise (· < ·)

instance (s : Signature) : Decidable s.Ascending := inferInstanceAs (Decidable (_ ∧ _))

namespace Signature.Ascending
variable {s : Signature}

theorem body (ascending : s.Ascending) : Ascends 0 s.body := .of_pairwise ascending.1 (fun k _ => Nat.zero_le k)

theorem head (ascending : s.Ascending) : Ascends 0 s.head := .of_pairwise ascending.2 (fun k _ => Nat.zero_le k)

theorem of_sets (body head : SortedSet Nat) : Signature.Ascending ⟨body.toList, head.toList⟩ :=
  ⟨body.ascending.imp Nat.compare_eq_lt.mp, head.ascending.imp Nat.compare_eq_lt.mp⟩

end Signature.Ascending

/-- A rule comes to be stored under a signature, or is removed there. -/
inductive Edit where
  | store (s : Signature) (id : RuleId)
  | remove (s : Signature) (id : RuleId)

def Edit.signature : Edit → Signature
  | .store s _ => s
  | .remove s _ => s

/-- What stands under a signature with one rule more, and with one rule less, where `none` is nothing. -/
structure Leaf (β : Type) where
  store : RuleId → Option β → β
  remove : RuleId → β → Option β

namespace Leaf

/-- All rules of the signature. -/
def bucket : Leaf (SortedSet RuleId) where
  store id ids? := (ids?.getD ∅).insert id
  remove id ids := if (ids.erase id).isEmpty then none else some (ids.erase id)

/-- The last rule of the signature. -/
def slot : Leaf RuleId where
  store id _ := id
  remove id there := if there = id then none else some there

variable {β : Type}

def change (leaf : Leaf β) : Edit → Option β → Option β
  | .store _ id, v => some (leaf.store id v)
  | .remove _ id, v => v.bind (leaf.remove id)

def edit (leaf : Leaf β) (t : SignatureTrie β) (e : Edit) : SignatureTrie β := t.alter e.signature (leaf.change e)

/-- The trie after edits, one after the other. -/
def edited (leaf : Leaf β) (es : List Edit) : SignatureTrie β := es.foldl leaf.edit ∅

/-- What the edits of one signature leave there. -/
def stored (leaf : Leaf β) (es : List Edit) (s : Signature) : Option β :=
  (es.filter (fun e => e.signature = s)).foldl (fun v e => leaf.change e v) none

variable {leaf : Leaf β} {t : SignatureTrie β} {es : List Edit} {e : Edit}

theorem edited_snoc (leaf : Leaf β) (es : List Edit) (e : Edit) : leaf.edited (es ++ [e]) = leaf.edit (leaf.edited es) e := by
  simp [edited]

theorem stored_snoc (leaf : Leaf β) (es : List Edit) (e : Edit) (s : Signature) :
    leaf.stored (es ++ [e]) s = if s = e.signature then leaf.change e (leaf.stored es s) else leaf.stored es s := by
  by_cases same : e.signature = s
  · simp [stored, List.filter_append, same]
  · simp [stored, List.filter_append, same, Ne.symm same]

theorem get?_edit (ordered : t.Ordered) (leaf : Leaf β) (e : Edit) (s : Signature) :
    (leaf.edit t e).get? s = if s = e.signature then leaf.change e (t.get? s) else t.get? s := by
  rw [edit, SignatureTrie.get?_alter ordered]
  split
  · next same => rw [same]
  · rfl

structure Holds (t : SignatureTrie β) (content : Signature → Option β) : Prop where
  ordered : t.Ordered
  pruned : t.Pruned
  content : ∀ s, t.get? s = content s

theorem Holds.edit {content : Signature → Option β} (holds : Holds t content) (leaf : Leaf β)
    (ascending : e.signature.Ascending) :
    Holds (leaf.edit t e) (fun s => if s = e.signature then leaf.change e (content s) else content s) := by
  refine ⟨holds.ordered.alter ascending.body ascending.head _, holds.pruned.alter holds.ordered _ _, fun s => ?_⟩
  rw [get?_edit holds.ordered, holds.content]

theorem holds_edited (leaf : Leaf β) (ascending : ∀ e ∈ es, e.signature.Ascending) :
    Holds (leaf.edited es) (leaf.stored es) := by
  induction es using List.reverseRecOn with
  | nil => exact ⟨SignatureTrie.ordered_empty, SignatureTrie.pruned_empty, SignatureTrie.get?_empty⟩
  | append_singleton es e ih =>
    obtain ⟨earlier, last⟩ := List.forall_mem_append.mp ascending
    rw [edited_snoc, funext (stored_snoc leaf es e)]
    exact (ih earlier).edit leaf (last e List.mem_cons_self)

theorem nonempty_of_change {v : Option (SortedSet RuleId)} {ids : SortedSet RuleId} (found : bucket.change e v = some ids) :
    ids.isEmpty = false := by
  cases e with
  | store s id =>
    obtain rfl := Option.some.inj found
    have member : id ∈ (v.getD ∅).insert id := by simp
    exact List.isEmpty_eq_false_iff_exists_mem.mpr ⟨id, member⟩
  | remove s id =>
    obtain ⟨before, -, left⟩ := Option.bind_eq_some_iff.mp found
    obtain ⟨nonempty, same⟩ := Option.ite_none_left_eq_some.mp left
    exact Option.some.inj same ▸ Bool.eq_false_iff.mpr nonempty

/-- A bucket without rules counts as nothing. -/
theorem nonempty_of_stored {s : Signature} {ids : SortedSet RuleId} (found : bucket.stored es s = some ids) :
    ids.isEmpty = false := by
  induction es using List.reverseRecOn with
  | nil => simp [stored] at found
  | append_singleton es e ih =>
    rw [stored_snoc] at found
    split at found
    · exact nonempty_of_change found
    · exact ih found

/-- Ascending edits made the trie. -/
def Reached (leaf : Leaf β) (t : SignatureTrie β) : Prop :=
  ∃ es, (∀ e ∈ es, e.signature.Ascending) ∧ leaf.edited es = t

theorem reached_empty (leaf : Leaf β) : leaf.Reached ∅ := ⟨[], by simp, rfl⟩

theorem Reached.edit (reached : leaf.Reached t) (ascending : e.signature.Ascending) : leaf.Reached (leaf.edit t e) := by
  obtain ⟨es, earlier, rfl⟩ := reached
  exact ⟨es ++ [e], List.forall_mem_append.mpr ⟨earlier, by simpa using ascending⟩, edited_snoc leaf es e⟩

end Leaf

namespace SignatureFilter
variable {f : SignatureFilter}

theorem reached_add (reached : Leaf.bucket.Reached f.trie) (id : RuleId) (t : Tgd) : Leaf.bucket.Reached (f.add id t).trie := by
  rw [add_eq]
  exact reached.edit (e := .store _ id) (.of_sets _ _)

theorem reached_remove (reached : Leaf.bucket.Reached f.trie) (id : RuleId) (t : Tgd) :
    Leaf.bucket.Reached (f.remove id t).trie := by
  unfold SignatureFilter.remove
  split
  · next body head foundBody foundHead =>
    obtain ⟨bodies, -, rfl⟩ := Option.map_eq_some_iff.mp foundBody
    obtain ⟨heads, -, rfl⟩ := Option.map_eq_some_iff.mp foundHead
    exact reached.edit (e := .remove _ id) (.of_sets _ _)
  · exact reached

end SignatureFilter

namespace ExactSubsumer
variable {e : ExactSubsumer}

theorem reached_insert (reached : Leaf.slot.Reached e.trie) (id : RuleId) (t : Tgd) : Leaf.slot.Reached (e.insert id t).trie := by
  rw [insert_eq]
  exact reached.edit (e := .store _ id) (.of_sets _ _)

theorem change_remove (s : Signature) (id : RuleId) :
    Leaf.slot.change (.remove s id) = fun there => if there = some id then none else there := by
  funext there
  cases there with
  | none => rfl
  | some j => simp [Leaf.change, Leaf.slot]

theorem reached_remove (reached : Leaf.slot.Reached e.trie) (id : RuleId) (t : Tgd) : Leaf.slot.Reached (e.remove id t).trie := by
  unfold ExactSubsumer.remove
  split
  · dsimp only
    split
    · next body head foundBody foundHead =>
      obtain ⟨bodies, -, rfl⟩ := Option.map_eq_some_iff.mp foundBody
      obtain ⟨heads, -, rfl⟩ := Option.map_eq_some_iff.mp foundHead
      rw [← change_remove ⟨_, _⟩]
      exact reached.edit (e := .remove ⟨_, _⟩ id) (.of_sets _ _)
    · exact reached
  · exact reached

end ExactSubsumer

namespace Subsumer
variable {s : Subsumer}

/-- If there is a trie, ascending edits made it. -/
def Reached : Subsumer → Prop
  | .filtered ⟨.signature f, _⟩ => Leaf.bucket.Reached f.trie
  | .filtered _ => True
  | .exact e => Leaf.slot.Reached e.trie

theorem reached_empty (bound : Nat) (strategy : SubsumptionStrategy) : (empty bound strategy).Reached := by
  cases strategy with
  | trie => exact Leaf.reached_empty _
  | exact => exact Leaf.reached_empty _
  | exhaustive => trivial
  | predicate => trivial
  | atom => trivial

theorem Reached.insert (reached : s.Reached) (id : RuleId) (t : Tgd) : (s.insert id t).Reached := by
  cases s with
  | filtered f =>
    obtain ⟨index, members⟩ := f
    cases index with
    | exhaustive => trivial
    | keyed f => trivial
    | signature f => exact SignatureFilter.reached_add reached id t
  | exact e => exact ExactSubsumer.reached_insert reached id t

theorem Reached.remove (reached : s.Reached) (id : RuleId) (t : Tgd) : (s.remove id t).Reached := by
  cases s with
  | filtered f =>
    obtain ⟨index, members⟩ := f
    rw [Subsumer.remove, Filter.remove]
    split
    · cases index with
      | exhaustive => trivial
      | keyed f => trivial
      | signature f => exact SignatureFilter.reached_remove reached id t
    · exact reached
  | exact e => exact ExactSubsumer.reached_remove reached id t

theorem Reached.removeSubsumed (reached : s.Reached) (catalog : Catalog) (t : Tgd) :
    (s.removeSubsumed catalog t).2.Reached := by
  rw [Subsumer.removeSubsumed]
  dsimp only
  induction s.subsumed catalog t generalizing s with
  | nil => exact reached
  | cons found rest ih => exact ih (reached.remove found.1 found.2.tgd)

/-- The trie of a subsumer comes about by ascending edits, whatever the calls. -/
theorem reached_of_calls (catalog : Catalog) (bound : Nat) (strategy : SubsumptionStrategy) (calls : List Call) :
    (calls.foldl (fun s call => ((interface catalog).perform s call).2) (.empty bound strategy)).Reached := by
  induction calls using List.reverseRecOn with
  | nil => exact reached_empty bound strategy
  | append_singleton calls call ih =>
    rw [List.foldl_append, List.foldl_cons, List.foldl_nil]
    cases call with
    | insert id t => exact ih.insert id t
    | remove id t => exact ih.remove id t
    | isSubsumed t => exact ih
    | removeSubsumed t => exact ih.removeSubsumed catalog t

end Subsumer

namespace Leaf
variable {β : Type}

/-- After any edits of ascending signatures, the leaves are those that the edits leave there, one for a signature. A search
for an ascending signature answers their values in turn, of those whose body is within, or over, the body asked for and
whose head is over, or within, the head. One more edit changes nothing under another signature, and where there is nothing
to remove it changes nothing at all. There are no dead branches, and so no branches where nothing is stored. -/
theorem edited_exact (leaf : Leaf β) (es : List Edit) (ascending : ∀ e ∈ es, e.signature.Ascending) :
    ((leaf.edited es).leaves.map Prod.fst).Nodup ∧
      (∀ s x, (s, x) ∈ (leaf.edited es).leaves ↔ leaf.stored es s = some x) ∧
      (∀ q : Signature, q.Ascending →
        (leaf.edited es).subsuming q =
            ((leaf.edited es).leaves.filter (fun l => l.1.body ⊆ q.body ∧ q.head ⊆ l.1.head)).map Prod.snd ∧
          (leaf.edited es).subsumed q =
            ((leaf.edited es).leaves.filter (fun l => q.body ⊆ l.1.body ∧ l.1.head ⊆ q.head)).map Prod.snd) ∧
      (∀ e s, (leaf.edit (leaf.edited es) e).get? s =
        if s = e.signature then leaf.change e ((leaf.edited es).get? s) else (leaf.edited es).get? s) ∧
      (∀ s id, (leaf.edited es).get? s = none → leaf.edit (leaf.edited es) (.remove s id) = leaf.edited es) ∧
      (leaf.edited es).Pruned ∧ (Trie.isEmpty (leaf.edited es) = true ↔ ∀ s, leaf.stored es s = none) := by
  obtain ⟨ordered, pruned, content⟩ := holds_edited leaf ascending
  refine ⟨SignatureTrie.nodup_leaves ordered, fun s x => ?_, fun q asks => ⟨?_, ?_⟩, get?_edit ordered leaf,
    fun s id absent => ?_, pruned, ?_⟩
  · rw [SignatureTrie.mem_leaves ordered, content]
  · rw [SignatureTrie.subsuming_eq ordered asks.body]
    refine congrArg _ (List.filter_congr (fun l member => ?_))
    obtain ⟨body, head⟩ := ordered.ascends_of_mem member
    simp [body.sublist_iff asks.body, asks.head.sublist_iff head]
  · rw [SignatureTrie.subsumed_eq ordered asks.head]
    refine congrArg _ (List.filter_congr (fun l member => ?_))
    obtain ⟨body, head⟩ := ordered.ascends_of_mem member
    simp [asks.body.sublist_iff body, head.sublist_iff asks.head]
  · refine SignatureTrie.alter_eq_self ordered pruned ?_
    rw [show (Edit.remove s id).signature = s from rfl, absent]
    rfl
  · rw [pruned.isEmpty_iff]
    simp only [content]

/-- Overlapping signatures, a bucket of two rules, a rule that is removed with its branches, and one that is not there. -/
def overlapping : List Edit :=
  [.store ⟨[1], [5]⟩ 0, .store ⟨[1, 2], [5]⟩ 1, .store ⟨[1, 2], [5, 6]⟩ 2, .store ⟨[3], [5]⟩ 3, .store ⟨[1, 2], [5]⟩ 4,
    .store ⟨[1, 4], [7]⟩ 5, .remove ⟨[1, 4], [7]⟩ 5, .remove ⟨[1], [6]⟩ 0]

def standing : List (Signature × SortedSet RuleId) :=
  [(⟨[1], [5]⟩, .ofList [0]), (⟨[1, 2], [5]⟩, .ofList [1, 4]), (⟨[1, 2], [5, 6]⟩, .ofList [2]), (⟨[3], [5]⟩, .ofList [3])]

/-- Each search meets the leaves that it asks for, and no others. -/
theorem edited_exact_overlapping :
    (∀ e ∈ overlapping, e.signature.Ascending) ∧
      (bucket.edited overlapping).leaves = standing ∧
      (bucket.edited overlapping).subsuming ⟨[1, 2, 4], [5]⟩ = [.ofList [0], .ofList [1, 4], .ofList [2]] ∧
      (bucket.edited overlapping).subsumed ⟨[2], [5, 7]⟩ = [.ofList [1, 4]] ∧
      bucket.edit (bucket.edited overlapping) (.remove ⟨[1], [6]⟩ 0) = bucket.edited overlapping ∧
      (bucket.edited overlapping).Pruned := by
  have ascending : ∀ e ∈ overlapping, e.signature.Ascending := by decide +kernel
  obtain ⟨-, -, search, -, idle, pruned, -⟩ := edited_exact bucket overlapping ascending
  have leaves : (bucket.edited overlapping).leaves = standing := by decide +kernel
  refine ⟨ascending, leaves, ?_, ?_, idle _ _ (by decide +kernel), pruned⟩
  · rw [(search _ (by decide)).1, leaves]
    decide
  · rw [(search _ (by decide)).2, leaves]
    decide

end Leaf
end GuardedSaturation
