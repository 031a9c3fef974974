import Mathlib
import GuardedSaturation.Proofs.Subsumption.Filters
import GuardedSaturation.Subsumption.Subsumer

/-! All subsumers answer alike: a rule is subsumed if one of those held subsumes it, and the
rules removed are those held that the new one subsumes, in ascending order. -/
namespace GuardedSaturation

namespace ExactSubsumer

def Numbers (e : ExactSubsumer) (s : AtomSet) : Prop := e.atoms.Knows id s

def Knows (e : ExactSubsumer) (t : Tgd) : Prop := e.Numbers t.body ∧ e.Numbers t.head

def code (e : ExactSubsumer) (s : AtomSet) : SortedSet Nat := e.atoms.code id id s

def partialCode (e : ExactSubsumer) (s : AtomSet) : SortedSet Nat := e.atoms.partialCode id id s

def signature (e : ExactSubsumer) (t : Tgd) : Signature := ⟨(e.code t.body).toList, (e.code t.head).toList⟩

theorem lookup_eq (e : ExactSubsumer) (s : AtomSet) :
    (e.Numbers s → e.lookup s = some (e.code s).toList) ∧ (¬ e.Numbers s → e.lookup s = none) := by
  have all := e.atoms.mapM_get? id s.toList
  simp only [id_eq] at all
  rw [lookup, all]
  constructor
  · intro known
    rw [if_pos (show ∀ a ∈ s.toList, a ∈ e.atoms.keys from known), Option.map_some]
    simp [code, Numbering.code]
  · intro unknown
    rw [if_neg (show ¬ ∀ a ∈ s.toList, a ∈ e.atoms.keys from unknown), Option.map_none]

theorem lookupKnown_eq (e : ExactSubsumer) (s : AtomSet) : e.lookupKnown s = (e.partialCode s).toList := by
  simp [lookupKnown, partialCode, Numbering.partialCode]

def noted (e : ExactSubsumer) (t : Tgd) : ExactSubsumer :=
  { e with atoms := (e.atoms.noteAll t.body.toList).noteAll t.head.toList }

theorem noted_extends (e : ExactSubsumer) (t : Tgd) : (e.noted t).atoms.Extends e.atoms :=
  .trans (Numbering.keys_noteAll _ _) (Numbering.keys_noteAll _ _)

theorem knows_noteAll (n : Numbering Atom) (s : AtomSet) : (n.noteAll s.toList).Knows id s := by
  simpa using n.knows_noteAll id s

theorem noted_knows (e : ExactSubsumer) (t : Tgd) : (e.noted t).Knows t :=
  ⟨.mono (Numbering.keys_noteAll _ _) (knows_noteAll _ _), knows_noteAll _ _⟩

theorem signature_inj {e : ExactSubsumer} {t r : Tgd} (known : e.Knows t) (known' : e.Knows r)
    (same : e.signature t = e.signature r) : t = r := by
  have sets {s s' : AtomSet} (left : e.Numbers s) (right : e.Numbers s') (codes : e.code s = e.code s') :
      s = s' := by
    have forth : e.code s ⊆ e.code s' := codes ▸ fun _ member => member
    have back : e.code s' ⊆ e.code s := codes ▸ fun _ member => member
    ext a
    exact ⟨fun member => Numbering.subset_of_code' right forth a member,
      fun member => Numbering.subset_of_code' left back a member⟩
  rw [signature, signature, Signature.mk.injEq, SortedSet.toList_inj, SortedSet.toList_inj] at same
  obtain ⟨body, head⟩ := t
  obtain ⟨body', head'⟩ := r
  rw [Tgd.mk.injEq]
  exact ⟨sets known.1 known'.1 same.1, sets known.2 known'.2 same.2⟩

variable {e : ExactSubsumer} {rules : Holdings} {id : RuleId} {t r : Tgd}

theorem signature_noted (known : e.Knows r) : (e.noted t).signature r = e.signature r := by
  have body : (e.noted t).code r.body = e.code r.body := known.1.code (e.noted_extends t)
  have head : (e.noted t).code r.head = e.code r.head := known.2.code (e.noted_extends t)
  rw [signature, signature, body, head]

theorem Knows.noted (known : e.Knows r) (t : Tgd) : (e.noted t).Knows r :=
  ⟨known.1.mono (e.noted_extends t), known.2.mono (e.noted_extends t)⟩

/-- Every rule stands under its signature, and no two rules are the same. -/
structure Files (e : ExactSubsumer) (rules : Holdings) : Prop where
  ordered : e.trie.Ordered
  members : ∀ id, id ∈ e.members ↔ (rules id).isSome
  known : ∀ id t, rules id = some t → e.Knows t
  distinct : ∀ id j t, rules id = some t → rules j = some t → id = j
  filed : ∀ s id, e.trie.get? s = some id ↔ ∃ t, rules id = some t ∧ e.signature t = s

theorem files_empty : Files {} (fun _ => none) := by
  refine ⟨SignatureTrie.ordered_empty, fun id => ?_, by simp, by simp, fun s id => ?_⟩
  · rw [show ({} : ExactSubsumer).members = ∅ from rfl]
    simp
  · rw [show ({} : ExactSubsumer).trie = ∅ from rfl, SignatureTrie.get?_empty]
    simp

theorem insert_eq (e : ExactSubsumer) (id : RuleId) (t : Tgd) :
    e.insert id t = { e.noted t with
      trie := e.trie.alter ((e.noted t).signature t) (fun _ => some id), members := e.members.insert id } := by
  have body : (e.noted t).code t.body = (e.atoms.noteAll t.body.toList).code _ _ t.body :=
    Numbering.Knows.code (Numbering.keys_noteAll _ _) (knows_noteAll _ _)
  rw [signature, body]
  simp [insert, encode, Numbering.numberAll, noted, code, Numbering.code]

theorem Files.insert (files : e.Files rules) (same : ∀ r, rules id = some r → r = t)
    (alone : ∀ j, rules j = some t → j = id) : (e.insert id t).Files (rules.add id t) := by
  rw [insert_eq]
  have old {j : RuleId} {r : Tgd} (found : rules j = some r) : (e.noted t).signature r = e.signature r :=
    signature_noted (files.known j r found)
  have known {j : RuleId} {r : Tgd} (found : rules j = some r) : (e.noted t).Knows r := (files.known j r found).noted t
  refine ⟨files.ordered.alter (SortedSet.ascends _) (SortedSet.ascends _) _, fun j => ?_, fun j r found => ?_,
    fun i j r first second => ?_, fun s j => ?_⟩
  · rw [Holdings.isSome_add, ← files.members j]
    exact SortedSet.mem_insert
  · rcases Holdings.add_eq_some.mp found with ⟨rfl, rfl⟩ | ⟨-, found⟩
    · exact e.noted_knows t
    · exact known found
  · rcases Holdings.add_eq_some.mp first with ⟨rfl, rfl⟩ | ⟨-, held⟩ <;>
      rcases Holdings.add_eq_some.mp second with ⟨rfl, equal⟩ | ⟨-, held'⟩
    · rfl
    · exact (alone j held').symm
    · exact alone i (equal ▸ held)
    · exact files.distinct i j r held held'
  · dsimp only
    rw [SignatureTrie.get?_alter files.ordered]
    simp only [Holdings.add_eq_some]
    by_cases here : s = (e.noted t).signature t
    · subst here
      rw [if_pos rfl, Option.some.injEq]
      constructor
      · rintro rfl
        exact ⟨t, .inl ⟨rfl, rfl⟩, rfl⟩
      · rintro ⟨r, ⟨rfl, -⟩ | ⟨-, found⟩, signatures⟩
        · rfl
        · exact (alone j (signature_inj (known found) (e.noted_knows t) signatures ▸ found)).symm
    · rw [if_neg here, files.filed]
      constructor
      · rintro ⟨r, found, rfl⟩
        refine ⟨r, .inr ⟨?_, found⟩, old found⟩
        rintro rfl
        exact here ((old found).symm.trans (congrArg _ (same r found)))
      · rintro ⟨r, ⟨-, rfl⟩ | ⟨-, found⟩, rfl⟩
        · exact absurd rfl here
        · exact ⟨r, found, (old found).symm⟩

theorem Files.remove (files : e.Files rules) (present : rules id = some t) :
    (e.remove id t).Files (rules.drop id) := by
  have member : id ∈ e.members := (files.members id).mpr (by simp [present])
  obtain ⟨body, head⟩ := files.known id t present
  have lookups : ({ e with members := e.members.erase id } : ExactSubsumer).lookup = e.lookup := rfl
  simp only [ExactSubsumer.remove, if_pos member, lookups, (e.lookup_eq t.body).1 body, (e.lookup_eq t.head).1 head]
  refine ⟨files.ordered.alter (SortedSet.ascends _) (SortedSet.ascends _) _, fun j => ?_,
    fun j r found => files.known j r (Holdings.drop_eq_some.mp found).2,
    fun i j r first second => files.distinct i j r (Holdings.drop_eq_some.mp first).2 (Holdings.drop_eq_some.mp second).2,
    fun s j => ?_⟩
  · rw [Holdings.isSome_drop, ← files.members j, and_comm]
    exact SortedSet.mem_erase
  · have here : e.trie.get? (e.signature t) = some id := (files.filed _ id).mpr ⟨t, present, rfl⟩
    change SignatureTrie.get? (e.trie.alter (e.signature t) (fun leaf => if leaf = some id then none else leaf)) s =
      some j ↔ ∃ r, rules.drop id j = some r ∧ e.signature r = s
    rw [SignatureTrie.get?_alter files.ordered, here, if_pos rfl]
    simp only [Holdings.drop_eq_some]
    by_cases same : s = e.signature t
    · rw [if_pos same]
      simp only [reduceCtorEq, false_iff, not_exists, not_and, and_imp]
      intro r other found signatures
      have equal := signature_inj (files.known j r found) ⟨body, head⟩ (signatures.trans same)
      exact other (files.distinct j id t (equal ▸ found) present)
    · rw [if_neg same, files.filed]
      constructor
      · rintro ⟨r, found, rfl⟩
        refine ⟨r, ⟨?_, found⟩, rfl⟩
        rintro rfl
        rw [present, Option.some.injEq] at found
        exact same (found ▸ rfl)
      · rintro ⟨r, ⟨-, found⟩, rfl⟩
        exact ⟨r, found, rfl⟩

theorem mem_subsuming (files : e.Files rules) :
    id ∈ e.subsuming t ↔ ∃ r, rules id = some r ∧ r.subsumes t = true := by
  unfold subsuming
  by_cases known : e.Numbers t.head
  · rw [(e.lookup_eq t.head).1 known, lookupKnown_eq]
    simp only [SortedSet.mem_ofList, SignatureTrie.mem_subsuming (s := ⟨_, _⟩) files.ordered (SortedSet.ascends _), files.filed]
    constructor
    · rintro ⟨_, bodies, heads, r, found, rfl⟩
      exact ⟨r, found, Tgd.subsumes_iff.mpr ⟨Numbering.subset_of_code (SortedSet.sublist_iff.mp bodies),
        Numbering.subset_of_code' (files.known id r found).2 (SortedSet.sublist_iff.mp heads)⟩⟩
    · rintro ⟨r, found, subsumes⟩
      obtain ⟨bodies, heads⟩ := Tgd.subsumes_iff.mp subsumes
      exact ⟨e.signature r, SortedSet.sublist_iff.mpr (Numbering.code_subset (files.known id r found).1 bodies),
        SortedSet.sublist_iff.mpr (Numbering.code_mono heads), r, found, rfl⟩
  · rw [(e.lookup_eq t.head).2 known]
    simp only [SortedSet.not_mem_empty, false_iff, not_exists, not_and]
    intro r found subsumes
    exact known (fun a member => (files.known id r found).2 a ((Tgd.subsumes_iff.mp subsumes).2 a member))

theorem mem_subsumed (files : e.Files rules) :
    id ∈ e.subsumed t ↔ ∃ r, rules id = some r ∧ t.subsumes r = true := by
  unfold subsumed
  by_cases known : e.Numbers t.body
  · rw [(e.lookup_eq t.body).1 known, lookupKnown_eq]
    simp only [SortedSet.mem_ofList, SignatureTrie.mem_subsumed (s := ⟨_, _⟩) files.ordered (SortedSet.ascends _), files.filed]
    constructor
    · rintro ⟨_, bodies, heads, r, found, rfl⟩
      exact ⟨r, found, Tgd.subsumes_iff.mpr
        ⟨Numbering.subset_of_code' (files.known id r found).1 (SortedSet.sublist_iff.mp bodies),
          Numbering.subset_of_code (SortedSet.sublist_iff.mp heads)⟩⟩
    · rintro ⟨r, found, subsumes⟩
      obtain ⟨bodies, heads⟩ := Tgd.subsumes_iff.mp subsumes
      exact ⟨e.signature r, SortedSet.sublist_iff.mpr (Numbering.code_mono bodies),
        SortedSet.sublist_iff.mpr (Numbering.code_subset (files.known id r found).2 heads), r, found, rfl⟩
  · rw [(e.lookup_eq t.body).2 known]
    simp only [SortedSet.not_mem_empty, false_iff, not_exists, not_and]
    intro r found subsumes
    exact known (fun a member => (files.known id r found).1 a ((Tgd.subsumes_iff.mp subsumes).1 a member))

end ExactSubsumer

namespace Subsumer
variable {s : Subsumer} {rules : Holdings} {id : RuleId} {t r : Tgd} {catalog : Catalog}

def Files (s : Subsumer) (rules : Holdings) : Prop :=
  match s with
  | .filtered f => f.Files rules
  | .exact e => e.Files rules

theorem files_empty (bound : Nat) (strategy : SubsumptionStrategy) : (empty bound strategy).Files (fun _ => none) := by
  have none (id : RuleId) : id ∈ (∅ : SortedSet RuleId) ↔ ((fun _ => none : Holdings) id).isSome := by simp
  cases strategy with
  | exhaustive => exact ⟨none, trivial⟩
  | predicate => exact ⟨none, KeyedFilter.files_empty _⟩
  | atom => exact ⟨none, KeyedFilter.files_empty _⟩
  | trie => exact ⟨none, SignatureFilter.files_empty bound⟩
  | exact => exact ExactSubsumer.files_empty

theorem Files.members (files : s.Files rules) : id ∈ s.members ↔ (rules id).isSome := by
  cases s with
  | filtered f => exact Filter.Files.members files id
  | exact e => exact ExactSubsumer.Files.members files id

/-- Whether the rule is new or held already, it is held afterwards. -/
theorem Files.insert (files : s.Files rules) (same : ∀ r, rules id = some r → r = t)
    (alone : ∀ j, rules j = some t → j = id) : (s.insert id t).Files (rules.add id t) := by
  cases s with
  | filtered f => exact Filter.Files.add files same
  | exact e => exact ExactSubsumer.Files.insert files same alone

theorem Files.remove (files : s.Files rules) (present : rules id = some t) :
    (s.remove id t).Files (rules.drop id) := by
  cases s with
  | filtered f => exact Filter.Files.remove files present
  | exact e => exact ExactSubsumer.Files.remove files present

def Cataloged (catalog : Catalog) (rules : Holdings) : Prop :=
  ∀ id t, rules id = some t → ∃ r, catalog.get? id = some r ∧ r.tgd = t

theorem Cataloged.add {stored : Rule} (cataloged : Cataloged catalog rules) (found : catalog.get? id = some stored) :
    Cataloged catalog (rules.add id stored.tgd) := by
  intro j t held
  rcases Holdings.add_eq_some.mp held with ⟨rfl, rfl⟩ | ⟨-, held⟩
  · exact ⟨stored, found, rfl⟩
  · exact cataloged j t held

theorem Cataloged.drop (cataloged : Cataloged catalog rules) : Cataloged catalog (rules.drop id) :=
  fun j t held => cataloged j t (Holdings.drop_eq_some.mp held).2

theorem isSubsumed_iff (files : s.Files rules) (cataloged : Cataloged catalog rules) :
    s.isSubsumed catalog t = true ↔ ∃ id r, rules id = some r ∧ r.subsumes t = true := by
  cases s with
  | filtered f =>
    simp only [isSubsumed, SortedSet.any, List.any_eq_true, SortedSet.mem_toList]
    constructor
    · rintro ⟨id, candidate, subsumes⟩
      obtain ⟨r, present⟩ := Option.isSome_iff_exists.mp
        ((Filter.Files.members files id).mp (Filter.Files.subsumingCandidates_subset files id candidate))
      obtain ⟨stored, found, rfl⟩ := cataloged id r present
      rw [found] at subsumes
      exact ⟨id, stored.tgd, present, subsumes⟩
    · rintro ⟨id, r, present, subsumes⟩
      obtain ⟨stored, found, rfl⟩ := cataloged id r present
      exact ⟨id, Filter.Files.mem_subsumingCandidates files present subsumes, by rw [found]; exact subsumes⟩
  | exact e =>
    rw [isSubsumed, Bool.not_eq_true', SortedSet.isEmpty, List.isEmpty_eq_false_iff_exists_mem]
    exact exists_congr (fun id => ExactSubsumer.mem_subsuming files)

/-- The rules under some numbers, as the catalog has them. -/
def entries (catalog : Catalog) (ids : SortedSet RuleId) : List (RuleId × Rule) :=
  ids.toList.filterMap (fun id => (catalog.get? id).map (id, ·))

theorem mem_entries {ids : SortedSet RuleId} {e : RuleId × Rule} :
    e ∈ entries catalog ids ↔ e.1 ∈ ids ∧ catalog.get? e.1 = some e.2 := by
  obtain ⟨id, r⟩ := e
  simp [entries, SortedSet.mem_toList]

theorem entries_sublist (catalog : Catalog) (ids : SortedSet RuleId) :
    ((entries catalog ids).map Prod.fst).Sublist ids.toList := by
  rw [entries]
  induction ids.toList with
  | nil => exact .refl _
  | cons id rest ih =>
    cases found : catalog.get? id with
    | none => simpa [found] using ih.cons id
    | some r => simpa [found] using ih

/-- The entries of the members are the rules held. -/
theorem mem_entries_members (files : s.Files rules) (cataloged : Cataloged catalog rules) {stored : Rule} :
    (id, stored) ∈ entries catalog s.members ↔ catalog.get? id = some stored ∧ rules id = some stored.tgd := by
  rw [mem_entries, files.members, and_comm]
  refine and_congr_right (fun found => ⟨fun inside => ?_, fun held => by simp [held]⟩)
  obtain ⟨r, held⟩ := Option.isSome_iff_exists.mp inside
  obtain ⟨stored', found', rfl⟩ := cataloged id r held
  cases found.symm.trans found'
  exact held

/-- Of some numbers less, the entries are those of all that have one of the numbers. -/
theorem entries_of_subset {ids members : SortedSet RuleId} (within : ids ⊆ members) :
    entries catalog ids = (entries catalog members).filter (fun e => e.1 ∈ ids) := by
  have same : ids = members.filter (· ∈ ids) := by
    ext id
    simp only [SortedSet.mem_filter, decide_eq_true_eq]
    exact ⟨fun member => ⟨within id member, member⟩, And.right⟩
  have parts : entries catalog ids =
      (members.toList.filter (· ∈ ids)).filterMap (fun id => (catalog.get? id).map (id, ·)) := by
    rw [entries, congrArg SortedSet.toList same]
    rfl
  rw [parts, entries, List.filter_filterMap, List.filterMap_filter]
  apply List.filterMap_congr
  intro id _
  cases catalog.get? id <;> by_cases member : id ∈ ids <;> simp [Option.filter, member]

/-- Whatever the subsumer, the rules found are the members that the new rule subsumes. -/
theorem subsumed_eq (files : s.Files rules) (cataloged : Cataloged catalog rules) :
    s.subsumed catalog t = (entries catalog s.members).filter (fun e => t.subsumes e.2.tgd) := by
  have held {e : RuleId × Rule} (member : e ∈ entries catalog s.members) : rules e.1 = some e.2.tgd :=
    ((mem_entries_members files cataloged).mp member).2
  cases s with
  | filtered f =>
    change (entries catalog (f.subsumedCandidates t)).filter (fun e => t.subsumes e.2.tgd) = _
    rw [entries_of_subset (Filter.Files.subsumedCandidates_subset files), List.filter_filter]
    apply List.filter_congr
    intro e member
    cases subsumes : t.subsumes e.2.tgd with
    | false => rfl
    | true => simpa using Filter.Files.mem_subsumedCandidates files (held member) subsumes
  | exact e =>
    change entries catalog (e.subsumed t) = _
    have within : e.subsumed t ⊆ e.members := by
      intro id inside
      obtain ⟨r, present, -⟩ := (ExactSubsumer.mem_subsumed files).mp inside
      exact (ExactSubsumer.Files.members files id).mpr (by simp [present])
    rw [entries_of_subset within]
    apply List.filter_congr
    intro entry member
    rw [Bool.eq_iff_iff, decide_eq_true_eq, ExactSubsumer.mem_subsumed files]
    simp [held member]

theorem subsumed_sublist (files : s.Files rules) (cataloged : Cataloged catalog rules) :
    ((s.subsumed catalog t).map Prod.fst).Sublist s.members.toList := by
  rw [subsumed_eq files cataloged]
  exact (List.filter_sublist.map _).trans (entries_sublist catalog s.members)

end Subsumer

namespace Holdings

def pruned (rules : Holdings) (t : Tgd) : Holdings := fun id => (rules id).filter (fun r => !t.subsumes r)

variable {rules : Holdings} {id : RuleId} {t r : Tgd}

theorem pruned_eq_some : rules.pruned t id = some r ↔ rules id = some r ∧ t.subsumes r = false := by
  simp [pruned, Option.filter_eq_some_iff]

end Holdings

namespace Subsumer
variable {s : Subsumer} {rules : Holdings} {t : Tgd} {catalog : Catalog}

theorem Files.removeAll {found : List (RuleId × Rule)} (files : s.Files rules)
    (held : ∀ e ∈ found, rules e.1 = some e.2.tgd) (distinct : (found.map Prod.fst).Nodup) :
    (found.foldl (fun s (e : RuleId × Rule) => s.remove e.1 e.2.tgd) s).Files
      (fun id => if id ∈ found.map Prod.fst then none else rules id) := by
  induction found generalizing s rules with
  | nil => simpa using files
  | cons e found ih =>
    obtain ⟨here, later⟩ := List.forall_mem_cons.mp held
    obtain ⟨absent, distinct⟩ := List.nodup_cons.mp distinct
    have dropped (f : RuleId × Rule) (member : f ∈ found) : rules.drop e.1 f.1 = some f.2.tgd := by
      refine Holdings.drop_eq_some.mpr ⟨fun same => absent ?_, later f member⟩
      exact same ▸ List.mem_map_of_mem member
    have rest := ih (files.remove here) dropped distinct
    rw [List.foldl_cons]
    convert rest using 2 with id
    by_cases same : id = e.1
    · simp [same, Holdings.drop]
    · refine if_congr (by rw [List.map_cons, List.mem_cons, or_iff_right same]) rfl ?_
      simp [Holdings.drop, Function.update, same]

theorem Files.removeSubsumed (files : s.Files rules) (cataloged : Cataloged catalog rules) :
    (s.removeSubsumed catalog t).2.Files (rules.pruned t) := by
  have found {e : RuleId × Rule} : e ∈ s.subsumed catalog t ↔
      (catalog.get? e.1 = some e.2 ∧ rules e.1 = some e.2.tgd) ∧ t.subsumes e.2.tgd = true := by
    rw [subsumed_eq files cataloged, List.mem_filter, mem_entries_members files cataloged]
  have rest := files.removeAll (fun e member => (found.mp member).1.2)
    (s.members.nodup.sublist (subsumed_sublist files cataloged))
  change (List.foldl _ s (s.subsumed catalog t)).Files _
  convert rest using 2 with id
  split
  · next member =>
    obtain ⟨e, present, rfl⟩ := List.mem_map.mp member
    obtain ⟨⟨-, held⟩, subsumes⟩ := found.mp present
    simp [Holdings.pruned, held, subsumes]
  · next absent =>
    cases held : rules id with
    | none => simp [Holdings.pruned, held]
    | some r =>
      obtain ⟨stored, known, rfl⟩ := cataloged id r held
      have keeps : t.subsumes stored.tgd = false := by
        by_contra subsumes
        exact absent (List.mem_map.mpr ⟨(id, stored), found.mpr ⟨⟨known, held⟩, by simpa using subsumes⟩, rfl⟩)
      simp [Holdings.pruned, held, keeps]

theorem Cataloged.pruned (cataloged : Cataloged catalog rules) : Cataloged catalog (rules.pruned t) :=
  fun j r held => cataloged j r (Holdings.pruned_eq_some.mp held).1

end Subsumer
end GuardedSaturation
