import Mathlib
import GuardedSaturation.Proofs.Retrieval
import GuardedSaturation.Proofs.Subsumption.Subsumers
import GuardedSaturation.Saturation.State

/-! The stored rules of one part: the subsumer holds the rules of its members as the catalog has
them, and the index has exactly their join atoms. Storing and removing keep it so. -/
namespace GuardedSaturation

namespace Catalog
variable {c c' : Catalog} {id : RuleId} {r : Rule} {t : Tgd}

def Extends (c' c : Catalog) : Prop := ∀ id r, c.get? id = some r → c'.get? id = some r

theorem Extends.refl (c : Catalog) : c.Extends c := fun _ _ found => found

theorem Extends.trans {c'' : Catalog} (later : c''.Extends c') (earlier : c'.Extends c) : c''.Extends c :=
  fun id r found => later id r (earlier id r found)

theorem get?_push : (⟨c.rules.push r⟩ : Catalog).get? id = if id = c.size then some r else c.get? id := by
  rw [get?, get?, size, Array.getElem?_push]

theorem lt_size (found : c.get? id = some r) : id < c.size := (Array.getElem?_eq_some_iff.mp found).1

theorem extends_push : (⟨c.rules.push r⟩ : Catalog).Extends c := by
  intro id s found
  rw [get?_push, if_neg (Nat.ne_of_lt (lt_size found)), found]

theorem find?_eq_none (absent : c.find? t = none) (found : c.get? id = some r) : r.tgd ≠ t := by
  obtain ⟨bound, same⟩ := Array.getElem?_eq_some_iff.mp found
  have := Array.findIdx?_eq_none_iff.mp absent r (same ▸ Array.getElem_mem bound)
  simpa using this

theorem find?_eq_some (found : c.find? t = some id) : ∃ r, c.get? id = some r ∧ r.tgd = t := by
  obtain ⟨bound, same, -⟩ := Array.findIdx?_eq_some_iff_getElem.mp found
  exact ⟨c.rules[id], Array.getElem?_eq_getElem bound, by simpa using same⟩

/-- A rule that is interned is known, or new and put last, or has no guard. -/
theorem intern_results (c : Catalog) (discipline : Discipline) (o : AtomOrder) (t : Tgd) :
    (∃ id, c.intern discipline o t = .ok (.existing id, c, o)) ∨
    (∃ r o', c.find? t = none ∧ r.tgd = t ∧ c.intern discipline o t = .ok (.new c.size, ⟨c.rules.push r⟩, o')) ∨
    ∃ rule, c.intern discipline o t = .error ⟨.unguardedRule rule, none⟩ := by
  unfold intern
  cases c.find? t with
  | some id => exact .inl ⟨id, rfl⟩
  | none =>
    right
    unfold Rule.build Tgd.guard
    cases t.guard? with
    | none => exact .inr ⟨t.text, rfl⟩
    | some g => cases discipline <;> exact .inl ⟨_, _, rfl, rfl, rfl⟩

end Catalog

namespace Collection
variable {c : Collection} {catalog catalog' : Catalog} {joinAtoms : Rule → List Atom} {id : RuleId} {r : Rule} {t : Tgd}

def holdings (c : Collection) (catalog : Catalog) : Holdings :=
  fun id => if id ∈ c.stored.members then (catalog.get? id).map Rule.tgd else none

/-- The join atoms of the members, each with the number of its rule. -/
def entries (c : Collection) (catalog : Catalog) (joinAtoms : Rule → List Atom) : List (RuleId × Atom) :=
  (Subsumer.entries catalog c.stored.members).flatMap (fun e => (joinAtoms e.2).map (e.1, ·))

structure Exact (c : Collection) (catalog : Catalog) (joinAtoms : Rule → List Atom) : Prop where
  known : ∀ id ∈ c.stored.members, ∃ r, catalog.get? id = some r
  stored : c.stored.Files (c.holdings catalog)
  indexed : c.index.Holds (c.entries catalog joinAtoms)

theorem holdings_eq_some :
    c.holdings catalog id = some t ↔ id ∈ c.stored.members ∧ ∃ r, catalog.get? id = some r ∧ r.tgd = t := by
  simp [holdings]

theorem cataloged (c : Collection) (catalog : Catalog) : Subsumer.Cataloged catalog (c.holdings catalog) :=
  fun _ _ found => (holdings_eq_some.mp found).2

/-- What a subsumer holds of the catalog is what its members are in the catalog. -/
theorem holdings_eq {rules : Holdings} (files : c.stored.Files rules) (cataloged : Subsumer.Cataloged catalog rules) :
    c.holdings catalog = rules := by
  funext id
  cases held : rules id with
  | none => exact if_neg (fun member => by simpa [held] using files.members.mp member)
  | some t =>
    obtain ⟨r, found, rfl⟩ := cataloged id t held
    exact holdings_eq_some.mpr ⟨files.members.mpr (by simp [held]), r, found, rfl⟩

theorem mem_entries {a : Atom} :
    (id, a) ∈ c.entries catalog joinAtoms ↔
      id ∈ c.stored.members ∧ ∃ r, catalog.get? id = some r ∧ a ∈ joinAtoms r := by
  simp only [entries, List.mem_flatMap, Subsumer.mem_entries, List.mem_map, Prod.mk.injEq, Prod.exists]
  constructor
  · rintro ⟨j, r, ⟨member, found⟩, b, inside, rfl, rfl⟩
    exact ⟨member, r, found, inside⟩
  · rintro ⟨member, r, found, inside⟩
    exact ⟨id, r, ⟨member, found⟩, a, inside, rfl, rfl⟩

theorem exact_empty (config : Config) (catalog : Catalog) :
    (⟨.empty config.maxPredicates config.subsumption, .empty config.unification⟩ : Collection).Exact catalog joinAtoms := by
  have none : (Subsumer.empty config.maxPredicates config.subsumption).members = ∅ := by
    cases config.subsumption <;> rfl
  have holdings : (⟨.empty config.maxPredicates config.subsumption, .empty config.unification⟩ : Collection).holdings
      catalog = fun _ => Option.none := holdings_eq (Subsumer.files_empty _ _) nofun
  have entries : (⟨.empty config.maxPredicates config.subsumption, .empty config.unification⟩ : Collection).entries
      catalog joinAtoms = [] := by
    simp [Collection.entries, Subsumer.entries, none]
  refine ⟨fun id member => ?_, ?_, ?_⟩
  · simp [none] at member
  · rw [holdings]
    exact Subsumer.files_empty _ _
  · rw [entries]
    exact UnificationIndex.holds_empty _

theorem Exact.extend (exact : c.Exact catalog joinAtoms) (longer : catalog'.Extends catalog) :
    c.Exact catalog' joinAtoms := by
  have same (id : RuleId) (member : id ∈ c.stored.members) : catalog'.get? id = catalog.get? id := by
    obtain ⟨r, found⟩ := exact.known id member
    rw [found, longer id r found]
  refine ⟨fun id member => ?_, ?_, ?_⟩
  · rw [same id member]
    exact exact.known id member
  · have : c.holdings catalog' = c.holdings catalog := by
      funext id
      exact ite_congr rfl (fun member => by rw [same id member]) (fun _ => rfl)
    rw [this]
    exact exact.stored
  · have : Subsumer.entries catalog' c.stored.members = Subsumer.entries catalog c.stored.members :=
      List.filterMap_congr (fun id member => by rw [same id member])
    rw [entries, this]
    exact exact.indexed

theorem entries_nodup (catalog : Catalog) (ids : SortedSet RuleId) : (Subsumer.entries catalog ids).Nodup :=
  .of_map _ (ids.nodup.sublist (Subsumer.entries_sublist catalog ids))

/-- Storing a member lists it once, and the others as before. -/
theorem entries_insert {ids ids' : SortedSet RuleId} (found : catalog.get? id = some r) (fresh : id ∉ ids)
    (members : ∀ j, j ∈ ids' ↔ j = id ∨ j ∈ ids) :
    (Subsumer.entries catalog ids').Perm ((id, r) :: Subsumer.entries catalog ids) := by
  refine (List.perm_ext_iff_of_nodup (entries_nodup _ _) ?_).mpr (fun e => ?_)
  · exact List.nodup_cons.mpr ⟨fun member => fresh (Subsumer.mem_entries.mp member).1, entries_nodup _ _⟩
  · obtain ⟨j, s⟩ := e
    simp only [Subsumer.mem_entries, members, List.mem_cons, Prod.mk.injEq]
    constructor
    · rintro ⟨rfl | member, known⟩
      · rw [found, Option.some.injEq] at known
        exact .inl ⟨rfl, known.symm⟩
      · exact .inr ⟨member, known⟩
    · rintro (⟨rfl, rfl⟩ | ⟨member, known⟩)
      · exact ⟨.inl rfl, found⟩
      · exact ⟨.inr member, known⟩

theorem Exact.insert (exact : c.Exact catalog joinAtoms) (found : catalog.get? id = some r)
    (fresh : id ∉ c.stored.members)
    (distinct : ∀ j s, catalog.get? j = some s → s.tgd = r.tgd → j = id) :
    (c.insert id r.tgd (joinAtoms r)).Exact catalog joinAtoms ∧
      ∀ j, j ∈ (c.insert id r.tgd (joinAtoms r)).stored.members ↔ j = id ∨ j ∈ c.stored.members := by
  have alone (j : RuleId) (held : c.holdings catalog j = some r.tgd) : j = id := by
    obtain ⟨-, s, known, same⟩ := holdings_eq_some.mp held
    exact distinct j s known same
  have files := exact.stored.insert (fun _ held => absurd (holdings_eq_some.mp held).1 fresh) alone
  have members (j : RuleId) : j ∈ (c.stored.insert id r.tgd).members ↔ j = id ∨ j ∈ c.stored.members := by
    rw [files.members, Holdings.isSome_add, exact.stored.members]
  refine ⟨⟨fun j member => ?_, ?_, ?_⟩, members⟩
  · rcases (members j).mp member with rfl | member
    · exact ⟨r, found⟩
    · exact exact.known j member
  · rw [holdings_eq (c := c.insert id r.tgd (joinAtoms r)) files ((c.cataloged catalog).add found)]
    exact files
  · have perm := (entries_insert found fresh members).flatMap_right (fun e => (joinAtoms e.2).map (e.1, ·))
    rw [List.flatMap_cons] at perm
    exact exact.indexed.insertAll.perm perm.symm

theorem forget_holds (found : List (RuleId × Rule)) {index : UnificationIndex} {rest : List (RuleId × Atom)}
    (known : ∀ e ∈ found, catalog.get? e.1 = some e.2)
    (holds : index.Holds (found.flatMap (fun e => (joinAtoms e.2).map (e.1, ·)) ++ rest)) :
    ((found.map Prod.fst).foldl (fun index id => match catalog.get? id with
      | some old => (joinAtoms old).foldl (fun index a => index.remove id a) index
      | none => index) index).Holds rest := by
  induction found generalizing index with
  | nil => exact holds
  | cons e found ih =>
    obtain ⟨here, later⟩ := List.forall_mem_cons.mp known
    rw [List.map_cons, List.foldl_cons, here]
    rw [List.flatMap_cons, List.append_assoc] at holds
    exact ih later holds.removeAll

/-- The rules that the new one subsumes go, the others stay. -/
theorem Exact.removeSubsumed (exact : c.Exact catalog joinAtoms) (t : Tgd) :
    (c.removeSubsumed catalog joinAtoms t).2.Exact catalog joinAtoms ∧
      ∀ j, j ∈ (c.removeSubsumed catalog joinAtoms t).2.stored.members ↔
        j ∈ c.stored.members ∧ ∀ s, catalog.get? j = some s → t.subsumes s.tgd = false := by
  have files := exact.stored.removeSubsumed (t := t) (c.cataloged catalog)
  have members (j : RuleId) : j ∈ (c.stored.removeSubsumed catalog t).2.members ↔
      j ∈ c.stored.members ∧ ∀ s, catalog.get? j = some s → t.subsumes s.tgd = false := by
    rw [files.members, Option.isSome_iff_exists]
    simp only [Holdings.pruned_eq_some, holdings_eq_some]
    constructor
    · rintro ⟨_, ⟨member, r, found, rfl⟩, keeps⟩
      refine ⟨member, fun s known => ?_⟩
      rw [found, Option.some.injEq] at known
      exact known ▸ keeps
    · rintro ⟨member, keeps⟩
      obtain ⟨r, found⟩ := exact.known j member
      exact ⟨r.tgd, ⟨member, r, found, rfl⟩, keeps r found⟩
  refine ⟨⟨fun j member => exact.known j ((members j).mp member).1, ?_, ?_⟩, members⟩
  · rw [holdings_eq (c := (c.removeSubsumed catalog joinAtoms t).2) files (c.cataloged catalog).pruned]
    exact files
  · have removed : c.stored.subsumed catalog t =
        (Subsumer.entries catalog c.stored.members).filter (fun e => t.subsumes e.2.tgd) :=
      Subsumer.subsumed_eq exact.stored (c.cataloged catalog)
    have kept : Subsumer.entries catalog (c.stored.removeSubsumed catalog t).2.members =
        (Subsumer.entries catalog c.stored.members).filter (fun e => !t.subsumes e.2.tgd) := by
      rw [Subsumer.entries_of_subset (fun j member => ((members j).mp member).1)]
      apply List.filter_congr
      intro e member
      obtain ⟨inside, known⟩ := Subsumer.mem_entries.mp member
      rw [Bool.eq_iff_iff, decide_eq_true_eq, members]
      simp [inside, known]
    refine forget_holds (c.stored.subsumed catalog t) (fun e member => ?_) ?_
    · rw [removed] at member
      exact (Subsumer.mem_entries.mp (List.mem_filter.mp member).1).2
    · apply exact.indexed.perm
      change List.Perm _ (_ ++ (Subsumer.entries catalog (c.stored.removeSubsumed catalog t).2.members).flatMap _)
      rw [removed, kept, ← List.flatMap_append]
      exact (List.filter_append_perm _ _).symm.flatMap_right _

end Collection
end GuardedSaturation
