import Mathlib
import GuardedSaturation.Proofs.NormalForms
import GuardedSaturation.Proofs.Subsumption.Codes
import GuardedSaturation.Proofs.Subsumption.Leaves
import GuardedSaturation.Subsumption.Filter

/-! Filters leave out no rule that subsumes, or is subsumed: what a filter files of its rules
is related to the rules themselves, and kept so by adding and removing. -/
namespace GuardedSaturation

abbrev Holdings := RuleId → Option Tgd

namespace Holdings

def add (rules : Holdings) (id : RuleId) (t : Tgd) : Holdings := Function.update rules id (some t)

def drop (rules : Holdings) (id : RuleId) : Holdings := Function.update rules id none

variable {rules : Holdings} {id j : RuleId} {t r : Tgd}

theorem add_eq_some : rules.add id t j = some r ↔ (j = id ∧ t = r) ∨ (j ≠ id ∧ rules j = some r) := by
  by_cases same : j = id <;> simp [add, Function.update, same]

theorem drop_eq_some : rules.drop id j = some r ↔ j ≠ id ∧ rules j = some r := by
  by_cases same : j = id <;> simp [drop, Function.update, same]

@[simp] theorem isSome_add : (rules.add id t j).isSome ↔ j = id ∨ (rules j).isSome := by
  by_cases same : j = id <;> simp [add, Function.update, same]

@[simp] theorem isSome_drop : (rules.drop id j).isSome ↔ j ≠ id ∧ (rules j).isSome := by
  by_cases same : j = id <;> simp [drop, Function.update, same]

end Holdings

namespace Postings
variable {κ : Type} {p : Postings κ} {keys : RuleId → List κ} {ks : List κ} {id : RuleId}

theorem filed_fileAll (p : Postings κ) (ks : List κ) (id : RuleId) :
    (p.fileAll ks id).filed.Perm (ks.map (·, id) ++ p.filed) := by
  induction ks generalizing p with
  | nil => exact .refl _
  | cons k ks ih =>
    refine (ih (p.file k id)).trans ?_
    simp [file, List.perm_middle]

/-- Every rule is filed once under each of its keys. -/
structure Lists (p : Postings κ) (keys : RuleId → List κ) : Prop where
  distinct : p.filed.Nodup
  filed : ∀ k id, (k, id) ∈ p.filed ↔ k ∈ keys id

theorem lists_empty : (∅ : Postings κ).Lists (fun _ => []) :=
  ⟨List.nodup_nil, fun k id => by simp [show (∅ : Postings κ).filed = [] from rfl]⟩

theorem Lists.fileAll (lists : p.Lists keys) (fresh : keys id = []) (distinct : ks.Nodup) :
    (p.fileAll ks id).Lists (Function.update keys id ks) := by
  have perm := p.filed_fileAll ks id
  refine ⟨perm.nodup_iff.mpr (List.nodup_append.mpr ⟨?_, lists.distinct, ?_⟩), fun k j => ?_⟩
  · exact distinct.map (fun _ _ same => congrArg Prod.fst same)
  · rintro e member f present rfl
    obtain ⟨k, -, rfl⟩ := List.mem_map.mp member
    have := (lists.filed k id).mp present
    simp [fresh] at this
  · rw [perm.mem_iff, List.mem_append, lists.filed, List.mem_map]
    by_cases same : j = id
    · subst same
      simp [fresh]
    · simp [Function.update, same, Ne.symm same]

variable [DecidableEq κ]

theorem filed_withdrawAll (p : Postings κ) (ks : List κ) (id : RuleId) :
    (p.withdrawAll ks id).filed = p.filed.diff (ks.map (·, id)) := by
  induction ks generalizing p with
  | nil => rfl
  | cons k ks ih => rw [withdrawAll, List.foldl_cons, ← withdrawAll, ih, List.map_cons, List.diff_cons]; rfl

theorem Lists.withdrawAll (lists : p.Lists keys) (same : ∀ k, k ∈ keys id ↔ k ∈ ks) :
    (p.withdrawAll ks id).Lists (Function.update keys id []) := by
  have diff := p.filed_withdrawAll ks id
  refine ⟨diff ▸ lists.distinct.diff, fun k j => ?_⟩
  rw [diff, lists.distinct.mem_sdiff_iff, lists.filed, List.mem_map]
  by_cases equal : j = id
  · subst equal
    simp [same]
  · simp [Function.update, equal, Ne.symm equal]

end Postings

namespace KeyedFilter
open Postings
variable {f : KeyedFilter} {rules : Holdings} {id : RuleId} {t r : Tgd}

/-- The keys of one side of a rule, none if there is no rule. -/
def keysOf (g : Granularity) (side : Tgd → AtomSet) (rules : Holdings) (id : RuleId) : List FilterKey :=
  ((rules id).map (fun t => g.keys (side t))).getD []

theorem keysOf_some {g : Granularity} {side : Tgd → AtomSet} (found : rules id = some t) :
    keysOf g side rules id = g.keys (side t) := by
  simp [keysOf, found]

theorem keysOf_add (g : Granularity) (side : Tgd → AtomSet) :
    keysOf g side (rules.add id t) = Function.update (keysOf g side rules) id (g.keys (side t)) := by
  funext j
  by_cases same : j = id <;> simp [keysOf, Holdings.add, Function.update, same]

theorem keysOf_drop (g : Granularity) (side : Tgd → AtomSet) :
    keysOf g side (rules.drop id) = Function.update (keysOf g side rules) id [] := by
  funext j
  by_cases same : j = id <;> simp [keysOf, Holdings.drop, Function.update, same]

/-- Both sides of the rules are filed. -/
structure Files (f : KeyedFilter) (rules : Holdings) : Prop where
  body : f.body.Lists (keysOf f.granularity Tgd.body rules)
  head : f.head.Lists (keysOf f.granularity Tgd.head rules)

theorem files_empty (g : Granularity) : Files { granularity := g } (fun _ => none) :=
  ⟨lists_empty, lists_empty⟩

theorem keys_nodup (g : Granularity) (s : AtomSet) : (g.keys s).Nodup := nodup_eraseDups _

theorem post_lists {p : Postings FilterKey} {g : Granularity} {side : Tgd → AtomSet}
    (lists : p.Lists (keysOf g side rules)) (same : ∀ r, rules id = some r → r = t) :
    (post p (g.keys (side t)) id).Lists (keysOf g side (rules.add id t)) := by
  rw [keysOf_add]
  cases held : rules id with
  | none =>
    have none : keysOf g side rules id = [] := by simp [keysOf, held]
    have all : (g.keys (side t)).filter (fun k => id ∉ p.ids k) = g.keys (side t) := by
      apply List.filter_eq_self.mpr
      intro k _
      simp [lists.filed, none]
    rw [post, all]
    exact lists.fileAll none (keys_nodup g _)
  | some r =>
    -- A rule that is held already is filed under all its keys.
    obtain rfl := same r held
    have keys : keysOf g side rules id = g.keys (side r) := keysOf_some held
    have rest : (g.keys (side r)).filter (fun k => id ∉ p.ids k) = [] := by
      apply List.filter_eq_nil_iff.mpr
      intro k member
      simp [lists.filed, keys, member]
    rw [post, rest, ← keys, Function.update_eq_self]
    exact lists

theorem Files.add (files : f.Files rules) (same : ∀ r, rules id = some r → r = t) :
    (f.add id t).Files (rules.add id t) :=
  ⟨post_lists files.body same, post_lists files.head same⟩

theorem Files.remove (files : f.Files rules) (present : rules id = some t) :
    (f.remove id t).Files (rules.drop id) := by
  constructor
  · rw [keysOf_drop]
    exact files.body.withdrawAll (fun k => by rw [keysOf_some present])
  · rw [keysOf_drop]
    exact files.head.withdrawAll (fun k => by rw [keysOf_some present])

theorem mem_foldl_inter (p : Postings FilterKey) (ks : List FilterKey) (found : SortedSet RuleId) :
    id ∈ ks.foldl (fun found k => found ∩ p.ids k) found ↔ id ∈ found ∧ ∀ k ∈ ks, (k, id) ∈ p.filed := by
  induction ks generalizing found with
  | nil => simp
  | cons k ks ih => simp [ih, and_assoc]

theorem mem_containingAll {p : Postings FilterKey} {ks : List FilterKey} {members : SortedSet RuleId} :
    id ∈ (containingAll p ks).getD members ↔ if ks = [] then id ∈ members else ∀ k ∈ ks, (k, id) ∈ p.filed := by
  cases ks with
  | nil => simp [containingAll]
  | cons k ks => simp [containingAll, mem_foldl_inter]

theorem keys_mono (g : Granularity) {s t : AtomSet} (within : s ⊆ t) : g.keys s ⊆ g.keys t := by
  intro k member
  simp only [Granularity.keys, List.mem_eraseDups, List.mem_map] at *
  obtain ⟨a, inside, same⟩ := member
  exact ⟨a, within a inside, same⟩

theorem candidate_of_subset {p : Postings FilterKey} {g : Granularity} {side : Tgd → AtomSet}
    {members : SortedSet RuleId} (lists : p.Lists (keysOf g side rules)) (present : rules id = some r)
    (member : id ∈ members) {s : AtomSet} (within : s ⊆ side r) :
    id ∈ (containingAll p (g.keys s)).getD members := by
  rw [mem_containingAll]
  split
  · exact member
  · intro k inside
    rw [lists.filed, keysOf_some present]
    exact keys_mono g within inside

theorem member_of_candidate {p : Postings FilterKey} {g : Granularity} {side : Tgd → AtomSet}
    {members : SortedSet RuleId} (lists : p.Lists (keysOf g side rules))
    (known : ∀ j, (rules j).isSome → j ∈ members) {s : AtomSet}
    (candidate : id ∈ (containingAll p (g.keys s)).getD members) : id ∈ members := by
  rw [mem_containingAll] at candidate
  split at candidate
  · exact candidate
  · next some =>
    obtain ⟨k, inside⟩ := List.exists_mem_of_ne_nil _ some
    have filed := (lists.filed k id).mp (candidate k inside)
    cases found : rules id with
    | none => simp [keysOf, found] at filed
    | some t => exact known id (by simp [found])

end KeyedFilter

namespace SignatureTrie
variable {t : SignatureTrie (SortedSet RuleId)} {s other : Signature} {id j : RuleId}

theorem mem_alter_insert (ordered : t.Ordered) :
    (∃ ids, (t.alter s (fun ids => some ((ids.getD ∅).insert id))).get? other = some ids ∧ j ∈ ids) ↔
      (other = s ∧ j = id) ∨ ∃ ids, t.get? other = some ids ∧ j ∈ ids := by
  rw [get?_alter ordered]
  by_cases same : other = s
  · subst same
    rw [if_pos rfl]
    cases t.get? other <;> simp
  · rw [if_neg same]
    simp [same]

/-- A set that becomes empty is taken out. -/
theorem mem_erased {ids? : Option (SortedSet RuleId)} :
    (∃ ids, (do
      let ids := (← ids?).erase id
      if ids.isEmpty then none else some ids) = some ids ∧ j ∈ ids) ↔ j ≠ id ∧ ∃ ids, ids? = some ids ∧ j ∈ ids := by
  cases ids? with
  | none => simp
  | some ids =>
    simp only [Option.bind_eq_bind, Option.bind_some, Option.ite_none_left_eq_some, Option.some.injEq,
      exists_eq_left']
    constructor
    · rintro ⟨_, ⟨-, rfl⟩, member⟩
      exact (SortedSet.mem_erase.mp member).symm
    · rintro ⟨different, member⟩
      have left : j ∈ ids.erase id := SortedSet.mem_erase.mpr ⟨member, different⟩
      refine ⟨_, ⟨fun empty => ?_, rfl⟩, left⟩
      rw [SortedSet.isEmpty, List.isEmpty_iff] at empty
      simp [← SortedSet.mem_toList, empty] at left

theorem mem_alter_erase (ordered : t.Ordered) :
    (∃ ids, (t.alter s (fun ids? => do
        let ids := (← ids?).erase id
        if ids.isEmpty then none else some ids)).get? other = some ids ∧ j ∈ ids) ↔
      (other = s → j ≠ id) ∧ ∃ ids, t.get? other = some ids ∧ j ∈ ids := by
  rw [get?_alter ordered]
  by_cases same : other = s
  · subst same
    rw [if_pos rfl, mem_erased]
    simp
  · rw [if_neg same]
    simp [same]

end SignatureTrie

namespace SignatureFilter
variable {f : SignatureFilter} {rules : Holdings} {id : RuleId} {t r : Tgd}

def Knows (f : SignatureFilter) (t : Tgd) : Prop :=
  f.predicates.Knows Atom.symbol t.body ∧ f.predicates.Knows Atom.symbol t.head

def code (f : SignatureFilter) (s : AtomSet) : SortedSet Nat := f.predicates.code Atom.symbol f.bag s

def partialCode (f : SignatureFilter) (s : AtomSet) : SortedSet Nat := f.predicates.partialCode Atom.symbol f.bag s

def signature (f : SignatureFilter) (t : Tgd) : Signature := ⟨(f.code t.body).toList, (f.code t.head).toList⟩

/-- Every rule stands under its signature. -/
structure Files (f : SignatureFilter) (rules : Holdings) : Prop where
  ordered : f.trie.Ordered
  known : ∀ id t, rules id = some t → f.Knows t
  ids : ∀ s id, (∃ ids, f.trie.get? s = some ids ∧ id ∈ ids) ↔ ∃ t, rules id = some t ∧ f.signature t = s

theorem files_empty (bound : Nat) : (ofBound bound).Files (fun _ => none) := by
  refine ⟨SignatureTrie.ordered_empty, by simp, fun s id => ?_⟩
  rw [show (ofBound bound).trie = ∅ from rfl, SignatureTrie.get?_empty]
  simp

theorem lookup_eq (f : SignatureFilter) (s : AtomSet) :
    (f.predicates.Knows Atom.symbol s → f.lookup s = some (f.code s).toList) ∧
      (¬ f.predicates.Knows Atom.symbol s → f.lookup s = none) := by
  rw [lookup, Numbering.mapM_get?]
  constructor
  · intro known
    rw [if_pos (show ∀ a ∈ s.toList, a.symbol ∈ f.predicates.keys from known), Option.map_some]
    simp [code, Numbering.code, Function.comp_def]
  · intro unknown
    rw [if_neg (show ¬ ∀ a ∈ s.toList, a.symbol ∈ f.predicates.keys from unknown), Option.map_none]

def noted (f : SignatureFilter) (t : Tgd) : SignatureFilter :=
  { f with predicates := (f.predicates.noteAll (t.body.toList.map Atom.symbol)).noteAll (t.head.toList.map Atom.symbol) }

theorem noted_extends (f : SignatureFilter) (t : Tgd) : (f.noted t).predicates.Extends f.predicates :=
  .trans (Numbering.keys_noteAll _ _) (Numbering.keys_noteAll _ _)

theorem noted_knows (f : SignatureFilter) (t : Tgd) : (f.noted t).Knows t :=
  ⟨.mono (Numbering.keys_noteAll _ _) (Numbering.knows_noteAll _ _ _), Numbering.knows_noteAll _ _ _⟩

theorem signature_noted (known : f.Knows r) : (f.noted t).signature r = f.signature r := by
  have body : (f.noted t).code r.body = f.code r.body := known.1.code (f.noted_extends t)
  have head : (f.noted t).code r.head = f.code r.head := known.2.code (f.noted_extends t)
  rw [signature, signature, body, head]

theorem Knows.noted (known : f.Knows r) (t : Tgd) : (f.noted t).Knows r :=
  ⟨known.1.mono (f.noted_extends t), known.2.mono (f.noted_extends t)⟩

theorem add_eq (f : SignatureFilter) (id : RuleId) (t : Tgd) :
    f.add id t = { f.noted t with
      trie := f.trie.alter ((f.noted t).signature t) (fun ids => some ((ids.getD ∅).insert id)) } := by
  have body : (f.noted t).code t.body =
      (f.predicates.noteAll (t.body.toList.map Atom.symbol)).code Atom.symbol f.bag t.body :=
    Numbering.Knows.code (Numbering.keys_noteAll _ _) (Numbering.knows_noteAll _ _ _)
  rw [signature, body]
  rfl

theorem Files.add (files : f.Files rules) (same : ∀ r, rules id = some r → r = t) :
    (f.add id t).Files (rules.add id t) := by
  rw [add_eq]
  refine ⟨files.ordered.alter (SortedSet.ascends _) (SortedSet.ascends _) _, fun j r found => ?_, fun s j => ?_⟩
  · rcases Holdings.add_eq_some.mp found with ⟨rfl, rfl⟩ | ⟨-, found⟩
    · exact f.noted_knows t
    · exact (files.known j r found).noted t
  · have before : (∃ ids, f.trie.get? s = some ids ∧ j ∈ ids) ↔
        ∃ r, rules j = some r ∧ (f.noted t).signature r = s :=
      (files.ids s j).trans (exists_congr (fun r => and_congr_right (fun found => by
        rw [signature_noted (files.known j r found)])))
    refine (SignatureTrie.mem_alter_insert files.ordered).trans ((or_congr_right before).trans ?_)
    simp only [Holdings.add_eq_some]
    constructor
    · rintro (⟨rfl, rfl⟩ | ⟨r, found, rfl⟩)
      · exact ⟨t, .inl ⟨rfl, rfl⟩, rfl⟩
      · by_cases here : j = id
        · subst here
          exact ⟨r, .inl ⟨rfl, (same r found).symm⟩, rfl⟩
        · exact ⟨r, .inr ⟨here, found⟩, rfl⟩
    · rintro ⟨r, ⟨rfl, rfl⟩ | ⟨-, found⟩, rfl⟩
      · exact .inl ⟨rfl, rfl⟩
      · exact .inr ⟨r, found, rfl⟩

theorem Files.remove (files : f.Files rules) (present : rules id = some t) :
    (f.remove id t).Files (rules.drop id) := by
  obtain ⟨body, head⟩ := files.known id t present
  simp only [SignatureFilter.remove, (f.lookup_eq t.body).1 body, (f.lookup_eq t.head).1 head]
  refine ⟨files.ordered.alter (SortedSet.ascends _) (SortedSet.ascends _) _,
    fun j r found => files.known j r (Holdings.drop_eq_some.mp found).2, fun s j => ?_⟩
  refine (SignatureTrie.mem_alter_erase files.ordered).trans ((and_congr_right' (files.ids s j)).trans ?_)
  simp only [Holdings.drop_eq_some]
  constructor
  · rintro ⟨other, r, found, rfl⟩
    refine ⟨r, ⟨?_, found⟩, rfl⟩
    rintro rfl
    cases present.symm.trans found
    exact other rfl rfl
  · rintro ⟨r, ⟨other, found⟩, rfl⟩
    exact ⟨fun _ => other, r, found, rfl⟩

theorem mem_foldl_union (sets : List (SortedSet RuleId)) (found : SortedSet RuleId) :
    id ∈ sets.foldl (· ∪ ·) found ↔ id ∈ found ∨ ∃ ids ∈ sets, id ∈ ids := by
  induction sets generalizing found with
  | nil => simp
  | cons ids sets ih => simp [ih, or_assoc]

theorem mem_subsumed_of_subsumes (files : f.Files rules) (present : rules id = some r)
    (subsumes : t.subsumes r = true) : id ∈ f.subsumed t := by
  obtain ⟨bodies, heads⟩ := Tgd.subsumes_iff.mp subsumes
  obtain ⟨body, head⟩ := files.known id r present
  have known : f.predicates.Knows Atom.symbol t.body := fun a member => body a (bodies a member)
  obtain ⟨ids, found, member⟩ := (files.ids (f.signature r) id).mpr ⟨r, present, rfl⟩
  rw [subsumed, (f.lookup_eq t.body).1 known]
  refine (mem_foldl_union _ _).mpr (.inr ⟨ids,
    (SignatureTrie.mem_subsumed files.ordered (SortedSet.ascends _)).mpr ⟨_, ?_, ?_, found⟩, member⟩)
  · exact SortedSet.sublist_iff.mpr (Numbering.code_mono bodies)
  · exact SortedSet.sublist_iff.mpr (Numbering.code_subset head heads)

theorem mem_subsuming_of_subsumes (files : f.Files rules) (present : rules id = some r)
    (subsumes : r.subsumes t = true) : id ∈ f.subsuming t := by
  obtain ⟨bodies, heads⟩ := Tgd.subsumes_iff.mp subsumes
  obtain ⟨body, head⟩ := files.known id r present
  have known : f.predicates.Knows Atom.symbol t.head := fun a member => head a (heads a member)
  obtain ⟨ids, found, member⟩ := (files.ids (f.signature r) id).mpr ⟨r, present, rfl⟩
  rw [subsuming, (f.lookup_eq t.head).1 known]
  refine (mem_foldl_union _ _).mpr (.inr ⟨ids,
    (SignatureTrie.mem_subsuming files.ordered (SortedSet.ascends _)).mpr ⟨_, ?_, ?_, found⟩, member⟩)
  · exact SortedSet.sublist_iff.mpr (Numbering.code_subset body bodies)
  · exact SortedSet.sublist_iff.mpr (Numbering.code_mono heads)

theorem isSome_of_mem_subsumed (files : f.Files rules) (member : id ∈ f.subsumed t) : (rules id).isSome := by
  unfold subsumed at member
  split at member
  · simp at member
  · rcases (mem_foldl_union _ _).mp member with member | ⟨ids, value, member⟩
    · simp at member
    · obtain ⟨s, -, -, found⟩ := (SignatureTrie.mem_subsumed files.ordered (SortedSet.ascends _)).mp value
      obtain ⟨r, present, -⟩ := (files.ids s id).mp ⟨ids, found, member⟩
      simp [present]

theorem isSome_of_mem_subsuming (files : f.Files rules) (member : id ∈ f.subsuming t) : (rules id).isSome := by
  unfold subsuming at member
  split at member
  · simp at member
  · rcases (mem_foldl_union _ _).mp member with member | ⟨ids, value, member⟩
    · simp at member
    · obtain ⟨s, -, -, found⟩ := (SignatureTrie.mem_subsuming files.ordered (SortedSet.ascends _)).mp value
      obtain ⟨r, present, -⟩ := (files.ids s id).mp ⟨ids, found, member⟩
      simp [present]

end SignatureFilter

namespace Filter
variable {f : Filter} {rules : Holdings} {id : RuleId} {t r : Tgd}

/-- The members are the numbers of the rules, and the index has filed the rules. -/
structure Files (f : Filter) (rules : Holdings) : Prop where
  members : ∀ id, id ∈ f.members ↔ (rules id).isSome
  index : match f.index with
    | .exhaustive => True
    | .keyed index => index.Files rules
    | .signature index => index.Files rules

theorem Files.member (files : f.Files rules) (present : rules id = some t) : id ∈ f.members :=
  (files.members id).mpr (by simp [present])

theorem Files.add (files : f.Files rules) (same : ∀ r, rules id = some r → r = t) :
    (f.add id t).Files (rules.add id t) := by
  obtain ⟨index, members⟩ := f
  refine ⟨fun j => ?_, ?_⟩
  · rw [Holdings.isSome_add, ← files.members j]
    exact SortedSet.mem_insert
  · cases index with
    | exhaustive => trivial
    | keyed index => exact KeyedFilter.Files.add files.index same
    | signature index => exact SignatureFilter.Files.add files.index same

theorem Files.remove (files : f.Files rules) (present : rules id = some t) :
    (f.remove id t).Files (rules.drop id) := by
  have member := files.member present
  obtain ⟨index, members⟩ := f
  rw [Filter.remove, if_pos member]
  refine ⟨fun j => ?_, ?_⟩
  · rw [Holdings.isSome_drop, ← files.members j, and_comm]
    exact SortedSet.mem_erase
  · cases index with
    | exhaustive => trivial
    | keyed index => exact KeyedFilter.Files.remove files.index present
    | signature index => exact SignatureFilter.Files.remove files.index present

theorem Files.mem_subsumedCandidates (files : f.Files rules) (present : rules id = some r)
    (subsumes : t.subsumes r = true) : id ∈ f.subsumedCandidates t := by
  have member := files.member present
  obtain ⟨index, members⟩ := f
  cases index with
  | exhaustive => exact member
  | keyed index =>
    exact KeyedFilter.candidate_of_subset files.index.body present member (Tgd.subsumes_iff.mp subsumes).1
  | signature index => exact SignatureFilter.mem_subsumed_of_subsumes files.index present subsumes

theorem Files.mem_subsumingCandidates (files : f.Files rules) (present : rules id = some r)
    (subsumes : r.subsumes t = true) : id ∈ f.subsumingCandidates t := by
  have member := files.member present
  obtain ⟨index, members⟩ := f
  cases index with
  | exhaustive => exact member
  | keyed index =>
    exact KeyedFilter.candidate_of_subset files.index.head present member (Tgd.subsumes_iff.mp subsumes).2
  | signature index => exact SignatureFilter.mem_subsuming_of_subsumes files.index present subsumes

theorem Files.subsumedCandidates_subset (files : f.Files rules) : f.subsumedCandidates t ⊆ f.members := by
  have known (j : RuleId) (some : (rules j).isSome) : j ∈ f.members := (files.members j).mpr some
  intro id candidate
  obtain ⟨index, members⟩ := f
  cases index with
  | exhaustive => exact candidate
  | keyed index => exact KeyedFilter.member_of_candidate files.index.body known candidate
  | signature index => exact known id (SignatureFilter.isSome_of_mem_subsumed files.index candidate)

theorem Files.subsumingCandidates_subset (files : f.Files rules) : f.subsumingCandidates t ⊆ f.members := by
  have known (j : RuleId) (some : (rules j).isSome) : j ∈ f.members := (files.members j).mpr some
  intro id candidate
  obtain ⟨index, members⟩ := f
  cases index with
  | exhaustive => exact candidate
  | keyed index => exact KeyedFilter.member_of_candidate files.index.head known candidate
  | signature index => exact known id (SignatureFilter.isSome_of_mem_subsuming files.index candidate)

end Filter
end GuardedSaturation
