import Mathlib
import GuardedSaturation.Proofs.Saturation.Collections

/-! Subsumers against a plain list of rules. Whatever it is that narrows the candidates down, a subsumer answers
every sequence of calls as a list does that is searched rule by rule. The rules of a call are those of a catalog. -/
namespace GuardedSaturation

namespace Catalog

/-- The catalogs that rules were interned into, one after the other, from the empty one on. -/
inductive Interned : Catalog → Prop
  | empty : Interned {}
  | next {c c' : Catalog} {discipline : Discipline} {o o' : AtomOrder} {t : Tgd} {entry : Entry}
      (earlier : Interned c) (ok : c.intern discipline o t = .ok (entry, c', o')) : Interned c'

theorem intern_cases {c c' : Catalog} {discipline : Discipline} {o o' : AtomOrder} {t : Tgd} {entry : Entry}
    (ok : c.intern discipline o t = .ok (entry, c', o')) :
    c' = c ∨ ∃ r, r.tgd = t ∧ c.find? t = none ∧ c' = ⟨c.rules.push r⟩ := by
  obtain ⟨id, result⟩ | ⟨r, o'', new, same, result⟩ | ⟨rule, result⟩ := c.intern_results discipline o t
  · cases result.symm.trans ok
    exact .inl rfl
  · cases result.symm.trans ok
    exact .inr ⟨r, same, new, rfl⟩
  · cases result.symm.trans ok

theorem Interned.push {c : Catalog} {t : Tgd} {guard : Atom} (interned : c.Interned) (new : c.find? t = none)
    (guarded : t.guard = .ok guard) : Interned ⟨c.rules.push ⟨t, guard, .guarded⟩⟩ := by
  have ok : c.intern .guarded {} t = .ok (.new c.size, ⟨c.rules.push ⟨t, guard, .guarded⟩⟩, {}) := by
    rw [intern, new]
    dsimp only
    rw [Rule.build, guarded]
    rfl
  exact interned.next ok

/-- No rule is interned twice. -/
theorem Interned.distinct {c : Catalog} (interned : c.Interned) {i j : RuleId} {r q : Rule} (found : c.get? i = some r)
    (found' : c.get? j = some q) (same : r.tgd = q.tgd) : i = j := by
  induction interned generalizing i j r q with
  | empty => simp [get?] at found
  | @next c _ _ _ _ _ _ _ ok ih =>
    obtain rfl | ⟨s, rfl, new, rfl⟩ := intern_cases ok
    · exact ih found found' same
    · rw [get?_push] at found found'
      split at found <;> split at found'
      · next last last' => exact last.trans last'.symm
      · cases found
        exact absurd same.symm (find?_eq_none new found')
      · cases found'
        exact absurd same (find?_eq_none new found)
      · exact ih found found' same

end Catalog

namespace Subsumer

inductive Call where
  | insert (id : RuleId) (t : Tgd)
  | remove (id : RuleId) (t : Tgd)
  | isSubsumed (t : Tgd)
  | removeSubsumed (t : Tgd)

/-- A rule comes to be stored and removed with the number that it has in the catalog. -/
def Call.Named (catalog : Catalog) : Call → Prop
  | .insert id t | .remove id t => ∃ r, catalog.get? id = some r ∧ r.tgd = t
  | .isSubsumed _ | .removeSubsumed _ => True

inductive Answer where
  | done
  | subsumed (yes : Bool)
  | removed (ids : List RuleId)
deriving DecidableEq

/-- What a call answers, and what can be asked after it. -/
structure Observation where
  answer : Answer
  contains : RuleId → Bool
  all : List RuleId
  size : Nat

structure Interface (σ : Type) where
  insert : σ → RuleId → Tgd → σ
  remove : σ → RuleId → Tgd → σ
  isSubsumed : σ → Tgd → Bool
  removeSubsumed : σ → Tgd → List RuleId × σ
  contains : σ → RuleId → Bool
  all : σ → List RuleId
  size : σ → Nat

namespace Interface
variable {σ τ : Type}

def perform (i : Interface σ) (s : σ) : Call → Answer × σ
  | .insert id t => (.done, i.insert s id t)
  | .remove id t => (.done, i.remove s id t)
  | .isSubsumed t => (.subsumed (i.isSubsumed s t), s)
  | .removeSubsumed t => (.removed (i.removeSubsumed s t).1, (i.removeSubsumed s t).2)

def observe (i : Interface σ) (s : σ) (answer : Answer) : Observation := ⟨answer, i.contains s, i.all s, i.size s⟩

def history (i : Interface σ) : σ → List Call → List Observation
  | _, [] => []
  | s, call :: calls =>
    let (answer, s) := i.perform s call
    i.observe s answer :: i.history s calls

/-- Related states look alike, and calls of some kind answer alike and lead to related states. -/
structure Simulates (i : Interface σ) (j : Interface τ) (Named : Call → Prop) (R : σ → τ → Prop) : Prop where
  looks : ∀ s t answer, R s t → i.observe s answer = j.observe t answer
  step : ∀ s t call, Named call → R s t →
    (i.perform s call).1 = (j.perform t call).1 ∧ R (i.perform s call).2 (j.perform t call).2

theorem Simulates.history_eq {i : Interface σ} {j : Interface τ} {Named : Call → Prop} {R : σ → τ → Prop}
    (simulates : Simulates i j Named R) {s : σ} {t : τ} (related : R s t) {calls : List Call}
    (named : ∀ call ∈ calls, Named call) : i.history s calls = j.history t calls := by
  induction calls generalizing s t with
  | nil => rfl
  | cons call calls ih =>
    obtain ⟨here, later⟩ := List.forall_mem_cons.mp named
    obtain ⟨answers, next⟩ := simulates.step s t call here related
    simp only [history, answers, simulates.looks _ _ _ next, ih next later]

end Interface

def interface (catalog : Catalog) : Interface Subsumer where
  insert := insert
  remove := remove
  isSubsumed s := s.isSubsumed catalog
  removeSubsumed s := s.removeSubsumed catalog
  contains := contains
  all s := s.members.toList
  size s := s.members.size

end Subsumer

/-- Rules with their numbers, and nothing to find them by. -/
structure RuleList where
  rules : List (RuleId × Tgd) := []

namespace RuleList

def ids (l : RuleList) : List RuleId := (l.rules.map Prod.fst).insertionSort (· ≤ ·)

def remove (l : RuleList) (id : RuleId) : RuleList := ⟨l.rules.filter (fun e => e.1 ≠ id)⟩

def insert (l : RuleList) (id : RuleId) (t : Tgd) : RuleList := ⟨(id, t) :: (l.remove id).rules⟩

def interface : Subsumer.Interface RuleList where
  insert := insert
  remove l id _ := l.remove id
  isSubsumed l t := l.rules.any (fun e => e.2.subsumes t)
  removeSubsumed l t :=
    (ids ⟨l.rules.filter (fun e => t.subsumes e.2)⟩, ⟨l.rules.filter (fun e => !t.subsumes e.2)⟩)
  contains l id := l.rules.any (fun e => e.1 = id)
  all := ids
  size l := l.rules.length

/-- The list has every rule that is held, and no number twice. -/
structure Lists (l : RuleList) (rules : Holdings) : Prop where
  distinct : (l.rules.map Prod.fst).Nodup
  rules : ∀ id t, (id, t) ∈ l.rules ↔ rules id = some t

variable {l : RuleList} {rules : Holdings} {id : RuleId} {t : Tgd}

theorem Lists.mem_ids (lists : l.Lists rules) : id ∈ l.rules.map Prod.fst ↔ (rules id).isSome := by
  rw [List.mem_map, Option.isSome_iff_exists]
  constructor
  · rintro ⟨⟨id, t⟩, member, rfl⟩
    exact ⟨t, (lists.rules id t).mp member⟩
  · rintro ⟨t, held⟩
    exact ⟨(id, t), (lists.rules id t).mpr held, rfl⟩

theorem lists_empty : Lists {} (fun _ => none) := ⟨List.nodup_nil, by simp⟩

theorem Lists.filter (lists : l.Lists rules) {p : RuleId × Tgd → Bool} {rules' : Holdings}
    (kept : ∀ id t, rules' id = some t ↔ rules id = some t ∧ p (id, t) = true) :
    Lists ⟨l.rules.filter p⟩ rules' := by
  refine ⟨lists.distinct.sublist (List.filter_sublist.map _), fun id t => ?_⟩
  rw [List.mem_filter, lists.rules, kept]

theorem Lists.remove (lists : l.Lists rules) : (l.remove id).Lists (rules.drop id) :=
  lists.filter (fun j t => by rw [Holdings.drop_eq_some, and_comm, decide_eq_true_eq])

theorem Lists.insert (lists : l.Lists rules) : (l.insert id t).Lists (rules.add id t) := by
  have rest : (l.remove id).Lists (rules.drop id) := lists.remove
  refine ⟨List.nodup_cons.mpr ⟨fun member => ?_, rest.distinct⟩, fun j r => ?_⟩
  · have := rest.mem_ids.mp member
    simp [Holdings.drop] at this
  · rw [Holdings.add_eq_some, ← Holdings.drop_eq_some, ← rest.rules]
    simp [RuleList.insert, eq_comm]

theorem Lists.ids_eq (lists : l.Lists rules) {numbers : List RuleId} (ascending : numbers.Pairwise (· < ·))
    (same : ∀ id, id ∈ numbers ↔ (rules id).isSome) : l.ids = numbers := by
  have perm : l.ids.Perm numbers := by
    refine (List.perm_insertionSort _ _).trans ((List.perm_ext_iff_of_nodup lists.distinct ascending.nodup).mpr (fun id => ?_))
    rw [lists.mem_ids, same]
  exact perm.eq_of_pairwise (fun _ _ _ _ => Nat.le_antisymm)
    (List.pairwise_insertionSort _ _) (ascending.imp Nat.le_of_lt)

end RuleList

namespace Subsumer
variable {catalog : Catalog} {s : Subsumer} {l : RuleList} {rules : Holdings} {id : RuleId} {t : Tgd}

theorem remove_of_not_mem (absent : id ∉ s.members) : s.remove id t = s := by
  cases s with
  | filtered f => exact congrArg Subsumer.filtered (if_neg absent)
  | exact e => exact congrArg Subsumer.exact (if_neg absent)

/-- A rule that is held goes, and otherwise nothing does. -/
theorem Files.withdraw (files : s.Files rules) (same : ∀ r, rules id = some r → r = t) :
    (s.remove id t).Files (rules.drop id) := by
  cases held : rules id with
  | none =>
    have absent : id ∉ s.members := fun member => by simpa [held] using files.members.mp member
    rw [remove_of_not_mem absent, Holdings.drop, ← held, Function.update_eq_self]
    exact files
  | some r =>
    obtain rfl := same r held
    exact files.remove held

/-- Both hold the same rules, and the catalog has them. -/
def Matches (catalog : Catalog) (s : Subsumer) (l : RuleList) : Prop :=
  ∃ rules, s.Files rules ∧ l.Lists rules ∧ Cataloged catalog rules

theorem matches_empty (catalog : Catalog) (bound : Nat) (strategy : SubsumptionStrategy) :
    Matches catalog (.empty bound strategy) {} :=
  ⟨fun _ => none, files_empty bound strategy, RuleList.lists_empty, nofun⟩

theorem all_eq (files : s.Files rules) (lists : l.Lists rules) : l.ids = s.members.toList :=
  lists.ids_eq (s.members.ascending.imp Nat.compare_eq_lt.mp) (fun id => by rw [SortedSet.mem_toList, files.members])

theorem looks_alike (files : s.Files rules) (lists : l.Lists rules) (answer : Answer) :
    (interface catalog).observe s answer = RuleList.interface.observe l answer := by
  have all := all_eq files lists
  have size : s.members.size = l.rules.length := by
    rw [SortedSet.size, ← all, RuleList.ids, List.length_insertionSort, List.length_map]
  have contains : s.contains = fun id => l.rules.any (fun e => e.1 = id) := by
    funext id
    rw [Bool.eq_iff_iff, Subsumer.contains, decide_eq_true_eq, files.members, ← lists.mem_ids]
    simp
  rw [Interface.observe, Interface.observe, Observation.mk.injEq]
  exact ⟨rfl, contains, all.symm, size⟩

theorem subsumed_ids (files : s.Files rules) (lists : l.Lists rules) (cataloged : Cataloged catalog rules) :
    (s.subsumed catalog t).map Prod.fst = RuleList.ids ⟨l.rules.filter (fun e => t.subsumes e.2)⟩ := by
  have kept : RuleList.Lists ⟨l.rules.filter (fun e => t.subsumes e.2)⟩ (fun id => (rules id).filter t.subsumes) :=
    lists.filter (fun id r => by simp [Option.filter_eq_some_iff])
  refine (kept.ids_eq ?_ (fun id => ?_)).symm
  · exact (s.members.ascending.sublist (subsumed_sublist files cataloged)).imp Nat.compare_eq_lt.mp
  · rw [subsumed_eq files cataloged]
    simp only [List.mem_map, List.mem_filter, Option.isSome_iff_exists, Option.filter_eq_some_iff]
    constructor
    · rintro ⟨⟨id, r⟩, ⟨member, subsumes⟩, rfl⟩
      exact ⟨r.tgd, ((mem_entries_members files cataloged).mp member).2, subsumes⟩
    · rintro ⟨q, held, subsumes⟩
      obtain ⟨r, known, rfl⟩ := cataloged id q held
      exact ⟨(id, r), ⟨(mem_entries_members files cataloged).mpr ⟨known, held⟩, subsumes⟩, rfl⟩

theorem Cataloged.same (cataloged : Cataloged catalog rules) (named : (Call.insert id t).Named catalog) {r : Tgd}
    (held : rules id = some r) : r = t := by
  obtain ⟨q, found, rfl⟩ := named
  obtain ⟨q', found', rfl⟩ := cataloged id r held
  cases found.symm.trans found'
  rfl

theorem Cataloged.alone (cataloged : Cataloged catalog rules) (interned : catalog.Interned)
    (named : (Call.insert id t).Named catalog) {j : RuleId} (held : rules j = some t) : j = id := by
  obtain ⟨q, found, rfl⟩ := named
  obtain ⟨q', found', same⟩ := cataloged j q.tgd held
  exact interned.distinct found' found same

theorem simulates_ruleList (interned : catalog.Interned) :
    (interface catalog).Simulates RuleList.interface (Call.Named catalog) (Matches catalog) where
  looks := by
    rintro s l answer ⟨rules, files, lists, -⟩
    exact looks_alike files lists answer
  step := by
    rintro s l call named ⟨rules, files, lists, cataloged⟩
    cases call with
    | insert id t =>
      -- The catalog gives a number one rule and a rule one number, so what is stored again is what was held.
      have files' := files.insert (fun _ => cataloged.same named) (fun _ => cataloged.alone interned named)
      obtain ⟨r, found, rfl⟩ := named
      exact ⟨rfl, rules.add id r.tgd, files', lists.insert, cataloged.add found⟩
    | remove id t =>
      exact ⟨rfl, rules.drop id, files.withdraw (fun _ => cataloged.same named), lists.remove, cataloged.drop⟩
    | isSubsumed t =>
      refine ⟨congrArg Answer.subsumed ?_, rules, files, lists, cataloged⟩
      change s.isSubsumed catalog t = l.rules.any (fun e => e.2.subsumes t)
      rw [Bool.eq_iff_iff, isSubsumed_iff files cataloged]
      simp [lists.rules]
    | removeSubsumed t =>
      refine ⟨congrArg Answer.removed (subsumed_ids files lists cataloged), rules.pruned t,
        files.removeSubsumed cataloged, lists.filter (fun id r => ?_), cataloged.pruned⟩
      simp [Holdings.pruned_eq_some]

/-- Whatever the strategy, and the bound on the bags of the trie, a subsumer cannot be told from a plain list. -/
theorem history_eq_ruleList (catalog : Catalog) (interned : catalog.Interned) (bound : Nat)
    (strategy : SubsumptionStrategy) (calls : List Call) (named : ∀ call ∈ calls, call.Named catalog) :
    (interface catalog).history (.empty bound strategy) calls = RuleList.interface.history {} calls :=
  (simulates_ruleList interned).history_eq (matches_empty catalog bound strategy) named

/-- A rule is stored twice, a rule that it subsumes is removed with it, and removing it once more does nothing. -/
theorem history_ruleList_subsuming :
    ∃ (general special : Tgd) (guard guard' : Atom) (catalog : Catalog) (calls : List Call),
      general.subsumes special = true ∧ catalog = ⟨#[⟨general, guard, .guarded⟩, ⟨special, guard', .guarded⟩]⟩ ∧
      calls = [.insert 1 special, .insert 1 special, .insert 0 general, .isSubsumed special, .removeSubsumed general,
        .remove 1 special] ∧
      catalog.Interned ∧ (∀ call ∈ calls, call.Named catalog) ∧
      (interface catalog).history (.empty 0 .trie) calls = RuleList.interface.history {} calls ∧
      (RuleList.interface.history {} calls).map Observation.answer =
        [.done, .done, .done, .subsumed true, .removed [0, 1], .done] := by
  let general : Tgd := .ofLists [⟨"p", [.var "x"]⟩] [⟨"q", [.var "x"]⟩]
  let special : Tgd := .ofLists [⟨"p", [.var "x"]⟩, ⟨"r", [.var "x"]⟩] [⟨"q", [.var "x"]⟩]
  let guard : Atom := ⟨"p", [.var "x"]⟩
  let catalog : Catalog := ⟨#[⟨general, guard, .guarded⟩, ⟨special, guard, .guarded⟩]⟩
  have interned : catalog.Interned :=
    (Catalog.Interned.empty.push (t := general) (by decide +kernel) (by decide +kernel)).push (by decide +kernel) (by decide +kernel)
  have named : ∀ call ∈ [Call.insert 1 special, .insert 1 special, .insert 0 general, .isSubsumed special,
      .removeSubsumed general, .remove 1 special], call.Named catalog := by
    simp [Call.Named, catalog, Catalog.get?]
  exact ⟨general, special, guard, guard, catalog, _, by decide +kernel, rfl, rfl, interned, named,
    history_eq_ruleList catalog interned 0 .trie _ named, by decide +kernel⟩

end Subsumer
end GuardedSaturation
