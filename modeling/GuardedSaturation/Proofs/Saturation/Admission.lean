import Mathlib
import GuardedSaturation.Proofs.Saturation.Collections

/-! Admission of one candidate. Every state of a run is consistent: the collections are exact,
and every rule the catalog has taken up is subsumed by a stored rule of its part. -/
namespace GuardedSaturation

/-- A property of rules that trimming and inference keep, and that rules need to have. -/
structure Closed (config : Config) (P : Tgd → Prop) : Prop where
  shape : ∀ t, P t → config.algorithm.Shape t
  trimmed : ∀ t rest, P t → t.trimmed config.discardTautologies = some rest → P rest
  conclusion : ∀ l r c, Rule.Built config.algorithm l → Rule.Built config.algorithm r →
    config.algorithm.partOf l.tgd = .left → config.algorithm.partOf r.tgd = .right → P l.tgd → P r.tgd →
    c ∈ config.algorithm.conclusions l r → P c

theorem closed_shape (config : Config) : Closed config config.algorithm.Shape :=
  ⟨fun _ shape => shape, fun _ _ shape left => shape.trimmed left,
    fun _ _ _ _ right leftPart rightPart leftShape rightShape member =>
      Algorithm.Shape.conclusion right leftPart rightPart leftShape rightShape member⟩

namespace State
variable {config : Config} {P : Tgd → Prop} {s s' s'' : State} {t : Tgd} {id : RuleId} {r : Rule} {p : Part}

@[simp] theorem catalog_count (f : Stats → Stats) : (s.count f).catalog = s.catalog := rfl

@[simp] theorem queue_count (f : Stats → Stats) : (s.count f).queue = s.queue := rfl

@[simp] theorem order_count (f : Stats → Stats) : (s.count f).order = s.order := rfl

@[simp] theorem collection_count (f : Stats → Stats) (p : Part) : (s.count f).collection p = s.collection p := by
  cases p <;> rfl

def members (s : State) (p : Part) : SortedSet RuleId := (s.collection p).stored.members

def Covers (s : State) (p : Part) (t : Tgd) : Prop :=
  ∃ j r, j ∈ s.members p ∧ s.catalog.get? j = some r ∧ r.tgd.subsumes t = true

structure Consistent (config : Config) (P : Tgd → Prop) (s : State) : Prop where
  rules : ∀ id r, s.catalog.get? id = some r → r.Built config.algorithm ∧ P r.tgd
  distinct : ∀ id j r r', s.catalog.get? id = some r → s.catalog.get? j = some r' → r.tgd = r'.tgd → id = j
  exact : ∀ p, (s.collection p).Exact s.catalog config.algorithm.joinAtoms
  parts : ∀ p id r, id ∈ s.members p → s.catalog.get? id = some r → config.algorithm.partOf r.tgd = p
  covered : ∀ id r, s.catalog.get? id = some r → s.Covers (config.algorithm.partOf r.tgd) r.tgd

theorem Consistent.count (consistent : Consistent config P s) (f : Stats → Stats) : Consistent config P (s.count f) :=
  ⟨consistent.rules, consistent.distinct, fun p => by
    rw [collection_count]
    exact consistent.exact p, fun p => by
    rw [members, collection_count]
    exact consistent.parts p, fun id r found => by
    simp only [Covers, members, collection_count]
    exact consistent.covered id r found⟩

/-- What admissions do to a state: they take up rules, and queue those that they store. -/
structure Grows (s s' : State) : Prop where
  catalog : s'.catalog.Extends s.catalog
  size : s.catalog.size ≤ s'.catalog.size
  queue : ∀ id ∈ s.queue, id ∈ s'.queue
  members : ∀ p id, id ∈ s'.members p → id ∈ s.members p ∨ s.catalog.size ≤ id ∧ id ∈ s'.queue

theorem Grows.refl (s : State) : Grows s s := ⟨.refl _, le_rfl, fun _ member => member, fun _ _ member => .inl member⟩

theorem Grows.trans (first : Grows s s') (second : Grows s' s'') : Grows s s'' :=
  ⟨second.catalog.trans first.catalog, first.size.trans second.size,
    fun id queued => second.queue id (first.queue id queued), fun p id member => by
      rcases second.members p id member with member | ⟨late, queued⟩
      · exact (first.members p id member).imp_right (fun ⟨late, queued⟩ => ⟨late, second.queue id queued⟩)
      · exact .inr ⟨first.size.trans late, queued⟩⟩

theorem grows_count (f : Stats → Stats) : Grows s (s.count f) :=
  ⟨.refl _, le_rfl, fun _ queued => queued, fun p id member => .inl (by rwa [members, collection_count] at member)⟩

def taken (s : State) (r : Rule) (o : AtomOrder) : State := { s with catalog := ⟨s.catalog.rules.push r⟩, order := o }

theorem collection_taken (r : Rule) (o : AtomOrder) (p : Part) : (s.taken r o).collection p = s.collection p := by
  cases p <;> rfl

/-- The state after a rule is stored under a number and those that it subsumes are removed. -/
def stored (config : Config) (s : State) (id : RuleId) (r : Rule) : State :=
  let p := config.algorithm.part r
  let (removed, c) := (s.collection p).removeSubsumed s.catalog config.algorithm.joinAtoms r.tgd
  let c := c.insert id r.tgd (config.algorithm.joinAtoms r)
  let s := s.withCollection p c
  { s with queue := s.queue ++ [id] }.count (fun n => { n with removed := n.removed + removed.length })

theorem settle_eq (config : Config) (s : State) (id : RuleId) (r : Rule) :
    s.settle config id r =
      if (s.collection (config.algorithm.part r)).stored.isSubsumed s.catalog r.tgd
      then s.count (fun n => { n with subsumed := n.subsumed + 1 }) else s.stored config id r := rfl

theorem queue_stored : (s.stored config id r).queue = s.queue ++ [id] := by
  simp only [stored, queue_count]
  cases config.algorithm.part r <;> rfl

theorem catalog_stored : (s.stored config id r).catalog = s.catalog := by
  simp only [stored, catalog_count]
  cases config.algorithm.part r <;> rfl

theorem order_stored : (s.stored config id r).order = s.order := by
  simp only [stored, order_count]
  cases config.algorithm.part r <;> rfl

theorem stats_stored : (s.stored config id r).stats = { s.stats with
    removed := s.stats.removed +
      ((s.collection (config.algorithm.part r)).removeSubsumed s.catalog config.algorithm.joinAtoms r.tgd).1.length } := by
  simp only [stored, count]
  cases config.algorithm.part r <;> rfl

theorem collection_stored (q : Part) :
    (s.stored config id r).collection q =
      if q = config.algorithm.part r then
        ((s.collection q).removeSubsumed s.catalog config.algorithm.joinAtoms r.tgd).2.insert id r.tgd
          (config.algorithm.joinAtoms r)
      else s.collection q := by
  simp only [stored, collection_count]
  cases config.algorithm.part r <;> cases q <;> rfl

/-- Everything but the coverage of one rule that is not stored yet. -/
structure Pending (config : Config) (P : Tgd → Prop) (s : State) (id : RuleId) (r : Rule) : Prop where
  rules : ∀ id r, s.catalog.get? id = some r → r.Built config.algorithm ∧ P r.tgd
  distinct : ∀ id j r r', s.catalog.get? id = some r → s.catalog.get? j = some r' → r.tgd = r'.tgd → id = j
  exact : ∀ p, (s.collection p).Exact s.catalog config.algorithm.joinAtoms
  parts : ∀ p id r, id ∈ s.members p → s.catalog.get? id = some r → config.algorithm.partOf r.tgd = p
  covered : ∀ j q, s.catalog.get? j = some q → j ≠ id → s.Covers (config.algorithm.partOf q.tgd) q.tgd
  found : s.catalog.get? id = some r
  absent : ∀ p, id ∉ s.members p

theorem Consistent.pending (consistent : Consistent config P s) (built : r.Built config.algorithm) (good : P r.tgd)
    (new : s.catalog.find? r.tgd = none) (o : AtomOrder) : Pending config P (s.taken r o) s.catalog.size r := by
  have longer : (s.taken r o).catalog.Extends s.catalog := Catalog.extends_push
  have cases {j : RuleId} {q : Rule} (found : (s.taken r o).catalog.get? j = some q) :
      (j = s.catalog.size ∧ q = r) ∨ s.catalog.get? j = some q := by
    rw [show (s.taken r o).catalog = ⟨s.catalog.rules.push r⟩ from rfl, Catalog.get?_push] at found
    split at found
    · next last => exact .inl ⟨last, (Option.some.inj found).symm⟩
    · exact .inr found
  have members (p : Part) : (s.taken r o).members p = s.members p := by rw [members, collection_taken]; rfl
  have known {p : Part} {j : RuleId} (member : j ∈ s.members p) : ∃ q, s.catalog.get? j = some q :=
    (consistent.exact p).known j member
  refine ⟨fun j q found => ?_, fun i j q q' first second same => ?_, fun p => ?_, fun p j q member found => ?_,
    fun j q found other => ?_, by simp [taken, Catalog.get?_push], fun p member => ?_⟩
  · rcases cases found with ⟨rfl, rfl⟩ | found
    · exact ⟨built, good⟩
    · exact consistent.rules j q found
  · rcases cases first with ⟨rfl, rfl⟩ | old <;> rcases cases second with ⟨rfl, rfl⟩ | old'
    · rfl
    · exact absurd same.symm (Catalog.find?_eq_none new old')
    · exact absurd same (Catalog.find?_eq_none new old)
    · exact consistent.distinct i j q q' old old' same
  · rw [collection_taken]
    exact (consistent.exact p).extend longer
  · rw [members] at member
    obtain ⟨q', found'⟩ := known member
    rw [longer j q' found', Option.some.injEq] at found
    exact found ▸ consistent.parts p j q' member found'
  · obtain ⟨k, q', member, found', subsumes⟩ := consistent.covered j q ((cases found).resolve_left (fun last => other last.1))
    exact ⟨k, q', by rwa [members], longer k q' found', subsumes⟩
  · rw [members] at member
    obtain ⟨q, found⟩ := known member
    exact absurd (Catalog.lt_size found) (lt_irrefl _)

/-- Storing keeps the collections exact. Members of the part are the new rule and those that it does not subsume. -/
theorem Pending.exact_stored (pending : Pending config P s id r) :
    (∀ p, ((s.stored config id r).collection p).Exact s.catalog config.algorithm.joinAtoms) ∧
      ∀ p j, j ∈ (s.stored config id r).members p ↔
        if p = config.algorithm.part r then
          j = id ∨ j ∈ s.members p ∧ ∀ t, s.catalog.get? j = some t → r.tgd.subsumes t.tgd = false
        else j ∈ s.members p := by
  obtain ⟨smaller, kept⟩ := (pending.exact (config.algorithm.part r)).removeSubsumed r.tgd
  have fresh : id ∉ ((s.collection (config.algorithm.part r)).removeSubsumed s.catalog config.algorithm.joinAtoms
      r.tgd).2.stored.members := fun member => pending.absent _ ((kept id).mp member).1
  obtain ⟨larger, inserted⟩ := smaller.insert pending.found fresh
    (fun j q found same => pending.distinct j id q r found pending.found same)
  constructor
  · intro p
    rw [collection_stored]
    split
    · next same => exact same ▸ larger
    · exact pending.exact p
  · intro p j
    rw [members, collection_stored]
    split
    · next same =>
      subst same
      rw [inserted, kept]
      rfl
    · rfl

theorem Pending.of_subsumed (pending : Pending config P s id r)
    (subsumed : (s.collection (config.algorithm.part r)).stored.isSubsumed s.catalog r.tgd = true) : Consistent config P s := by
  refine ⟨pending.rules, pending.distinct, pending.exact, pending.parts, ?_⟩
  intro j q found
  by_cases here : j = id
  · subst here
    rw [pending.found, Option.some.injEq] at found
    subst found
    obtain ⟨k, t, held, subsumes⟩ :=
      (Subsumer.isSubsumed_iff (pending.exact _).stored (Collection.cataloged _ _)).mp subsumed
    obtain ⟨member, q, known, rfl⟩ := Collection.holdings_eq_some.mp held
    rw [Algorithm.part_of_built (pending.rules j r pending.found).1] at member
    exact ⟨k, q, member, known, subsumes⟩
  · exact pending.covered j q found here

/-- What the new rule removes it covers itself. -/
theorem Pending.covered_stored (pending : Pending config P s id r) {j : RuleId} {q : Rule} (found : s.catalog.get? j = some q) :
    (s.stored config id r).Covers (config.algorithm.partOf q.tgd) q.tgd := by
  have part := Algorithm.part_of_built (pending.rules id r pending.found).1
  obtain ⟨-, mem⟩ := pending.exact_stored
  have self : id ∈ (s.stored config id r).members (config.algorithm.partOf r.tgd) := by
    rw [mem, part, if_pos rfl]
    exact .inl rfl
  rw [Covers, catalog_stored]
  by_cases here : j = id
  · subst here
    rw [pending.found, Option.some.injEq] at found
    subst found
    exact ⟨j, r, self, pending.found, Tgd.subsumes_refl _⟩
  · obtain ⟨k, t, member, known, subsumes⟩ := pending.covered j q found here
    by_cases same : config.algorithm.partOf q.tgd = config.algorithm.part r
    · cases removes : r.tgd.subsumes t.tgd with
      | true => exact ⟨id, r, by rwa [same, part], pending.found, Tgd.subsumes_trans removes subsumes⟩
      | false =>
        refine ⟨k, t, ?_, known, subsumes⟩
        rw [mem, if_pos same]
        refine .inr ⟨member, fun t' known' => ?_⟩
        rw [known, Option.some.injEq] at known'
        exact known' ▸ removes
    · refine ⟨k, t, ?_, known, subsumes⟩
      rwa [mem, if_neg same]

theorem Pending.stored (pending : Pending config P s id r) : Consistent config P (s.stored config id r) := by
  obtain ⟨exact, mem⟩ := pending.exact_stored
  refine ⟨?_, ?_, ?_, ?_, ?_⟩ <;> rw [catalog_stored]
  · exact pending.rules
  · exact pending.distinct
  · exact exact
  · intro p j t member found
    rw [mem] at member
    split at member
    · next same =>
      rcases member with rfl | ⟨member, -⟩
      · rw [pending.found, Option.some.injEq] at found
        rw [same, Algorithm.part_of_built (pending.rules j r pending.found).1, found]
      · exact pending.parts p j t member found
    · exact pending.parts p j t member found
  · intro j q found
    exact pending.covered_stored found

theorem Pending.settle (pending : Pending config P s id r) : Consistent config P (s.settle config id r) := by
  rw [settle_eq]
  split
  · next subsumed => exact (pending.of_subsumed subsumed).count _
  · exact pending.stored

theorem Pending.grows (pending : Pending config P s id r) {earlier : State} (extends' : s.catalog.Extends earlier.catalog)
    (size : earlier.catalog.size ≤ s.catalog.size) (late : earlier.catalog.size ≤ id) (queue : s.queue = earlier.queue)
    (collections : ∀ p, s.collection p = earlier.collection p) : Grows earlier (s.settle config id r) := by
  have first : Grows earlier s :=
    ⟨extends', size, fun j queued => queue ▸ queued, fun p j member => .inl (by rwa [members, collections] at member)⟩
  rw [settle_eq]
  split
  · exact first.trans (grows_count _)
  · obtain ⟨-, mem⟩ := pending.exact_stored
    refine ⟨?_, ?_, fun j queued => ?_, fun p j member => ?_⟩
    · rw [catalog_stored]
      exact extends'
    · rw [catalog_stored]
      exact size
    · rw [queue_stored, queue]
      exact List.mem_append_left _ queued
    · rw [members, ← collections]
      rw [mem] at member
      split at member
      · rcases member with rfl | ⟨member, -⟩
        · refine .inr ⟨late, ?_⟩
          rw [queue_stored]
          exact List.mem_append_right _ (List.mem_singleton_self _)
        · exact .inl member
      · exact .inl member

theorem enter_cases (closed : Closed config P) (good : P t) (s : State) :
    (∃ id, s.catalog.find? t = some id ∧
      s.enter config t = s.count (fun n => { n with duplicates := n.duplicates + 1 })) ∨
    ∃ r o o', s.catalog.find? t = none ∧ Rule.build config.algorithm.discipline o t = .ok (r, o') ∧ o = s.order ∧
      r.tgd = t ∧ r.Built config.algorithm ∧
      s.enter config t = (s.taken r o').settle config s.catalog.size r := by
  cases known : s.catalog.find? t with
  | some id => exact .inl ⟨id, rfl, by simp [enter, Catalog.intern, known]⟩
  | none =>
    obtain ⟨r, o', built, same⟩ :=
      Rule.build_of_guarded (closed.shape t good).guarded config.algorithm.discipline s.order
    refine .inr ⟨r, s.order, o', rfl, built, rfl, same, ⟨s.order, o', same ▸ built⟩, ?_⟩
    have found : (⟨s.catalog.rules.push r⟩ : Catalog).get? s.catalog.size = some r := by
      rw [Catalog.get?_push, if_pos rfl]
    simp only [enter, Catalog.intern, known, built, bind, Except.bind, pure, Except.pure]
    rw [found]
    rfl

theorem Consistent.enter (consistent : Consistent config P s) (closed : Closed config P) (good : P t) :
    Consistent config P (s.enter config t) ∧ Grows s (s.enter config t) ∧
      ∃ id r, (s.enter config t).catalog.get? id = some r ∧ r.tgd = t := by
  rcases enter_cases closed good s with ⟨id, known, result⟩ | ⟨r, o, o', new, -, -, rfl, built, result⟩ <;> rw [result]
  · exact ⟨consistent.count _, grows_count _, id, Catalog.find?_eq_some known⟩
  · have pending := consistent.pending built good new o'
    have longer : (s.taken r o').catalog.Extends s.catalog := Catalog.extends_push
    refine ⟨pending.settle, pending.grows longer ?_ le_rfl rfl (fun p => collection_taken r o' p), s.catalog.size, r, ?_, rfl⟩
    · simp [taken, Catalog.size]
    · rw [settle_eq]
      split
      · exact pending.found
      · rw [catalog_stored]
        exact pending.found

def loses (discard : Bool) (t : Tgd) : Bool :=
  discard && match t.withoutTautology with
    | none => true
    | some rest => rest.head.size < t.head.size

def tallied (config : Config) (s : State) (t : Tgd) : State :=
  if loses config.discardTautologies t then s.count (fun n => { n with tautologies := n.tautologies + 1 }) else s

/-- Of a candidate, what is left after trimming is entered. -/
theorem accept_eq (config : Config) (s : State) (t : Tgd) :
    s.accept config t = match t.trimmed config.discardTautologies with
      | none => s.tallied config t
      | some rest => (s.tallied config t).enter config rest := by
  unfold accept tallied loses Tgd.trimmed
  cases config.discardTautologies with
  | false => rfl
  | true =>
    cases t.withoutTautology with
    | none => rfl
    | some rest =>
      by_cases lost : rest.head.size < t.head.size <;> simp [lost]

/-- The candidate is trimmed away, or what is left of it is in the catalog. -/
def Handled (config : Config) (s : State) (t : Tgd) : Prop :=
  ∀ rest, t.trimmed config.discardTautologies = some rest → ∃ id r, s.catalog.get? id = some r ∧ r.tgd = rest

theorem Handled.grows {s s' : State} (handled : Handled config s t) (grows : Grows s s') : Handled config s' t := by
  intro rest left
  obtain ⟨id, r, found, same⟩ := handled rest left
  exact ⟨id, r, grows.catalog id r found, same⟩

theorem tallied_cases (config : Config) (s : State) (t : Tgd) : ∃ f, s.tallied config t = s.count f := by
  unfold tallied
  split
  · exact ⟨_, rfl⟩
  · exact ⟨fun n => n, rfl⟩

theorem Consistent.accept (consistent : Consistent config P s) (closed : Closed config P) (good : P t) :
    Consistent config P (s.accept config t) ∧ Grows s (s.accept config t) ∧ Handled config (s.accept config t) t := by
  rw [accept_eq]
  obtain ⟨f, tallied⟩ := tallied_cases config s t
  rw [tallied]
  cases left : t.trimmed config.discardTautologies with
  | none => exact ⟨consistent.count f, grows_count f, fun rest some => by simp [left] at some⟩
  | some rest =>
    obtain ⟨consistent, grows, id, r, found, same⟩ := (consistent.count f).enter closed (closed.trimmed t rest good left)
    refine ⟨consistent, (grows_count f).trans grows, fun rest' some => ⟨id, r, found, same.trans ?_⟩⟩
    rw [left] at some
    exact Option.some.inj some

theorem Consistent.acceptAll {ts : List Tgd} (consistent : Consistent config P s) (closed : Closed config P)
    (good : ∀ t ∈ ts, P t) :
    Consistent config P (s.acceptAll config ts) ∧ Grows s (s.acceptAll config ts) ∧
      ∀ t ∈ ts, Handled config (s.acceptAll config ts) t := by
  induction ts generalizing s with
  | nil => exact ⟨consistent, .refl s, by simp⟩
  | cons t ts ih =>
    obtain ⟨here, later⟩ := List.forall_mem_cons.mp good
    obtain ⟨consistent, grows, handled⟩ := consistent.accept closed here
    obtain ⟨consistent, grows', rest⟩ := ih consistent later
    exact ⟨consistent, grows.trans grows', List.forall_mem_cons.mpr ⟨handled.grows grows', rest⟩⟩

end State
end GuardedSaturation
