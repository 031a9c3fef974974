import Mathlib
import GuardedSaturation.Proofs.Evolution
import GuardedSaturation.Proofs.NormalForms

/-! The shape of the rules of an existential run. It is made by canonical parts, and kept by
trimming and by evolution. -/
namespace GuardedSaturation.Tgd

/-- A guarded rule without function terms, with names of their kind, and full or else with an
existential variable in every head atom. -/
structure Evolvable (t : Tgd) : Prop where
  free : t.isFunctionFree = true
  guarded : t.Guarded
  sorted : t.Sorted {}
  kind : t.isFull = true ∨ ∀ a ∈ t.head, ∃ x ∈ a.vars, x ∉ t.body.vars

variable {t p rest : Tgd}

theorem isFunctionFree_of_subset (free : t.isFunctionFree = true) (body : p.body ⊆ t.body)
    (head : p.head ⊆ t.head) : p.isFunctionFree = true := by
  rw [isFunctionFree_eq_true] at free ⊢
  exact ⟨fun a member => free.1 a (body a member), fun a member => free.2 a (head a member)⟩

theorem isFunctionFree_canonical (free : t.isFunctionFree = true) : t.canonical.isFunctionFree = true :=
  isFunctionFree_subst free (fun _ => rfl)

theorem canonical_eq (t : Tgd) : t.canonical = t.subst (fun x => .var (t.normalName {} x)) := rfl

theorem Guarded.canonical (guarded : t.Guarded) : t.canonical.Guarded := guarded.subst _

theorem canonical_sorted (t : Tgd) : t.canonical.Sorted {} := normalForm_sorted {} t

theorem isFull_canonical (full : t.isFull = true) : t.canonical.isFull = true := isFull_subst full

theorem inventive_canonical (invents : ∀ a ∈ t.head, ∃ x ∈ a.vars, x ∉ t.body.vars) :
    ∀ a ∈ t.canonical.head, ∃ x ∈ a.vars, x ∉ t.canonical.body.vars := by
  rw [canonical_eq]
  intro a member
  obtain ⟨b, present, rfl⟩ := AtomSet.mem_subst.mp member
  obtain ⟨x, inside, absent⟩ := invents b present
  refine ⟨t.normalName {} x, Atom.mem_vars_rename.mpr ⟨x, inside, rfl⟩, ?_⟩
  have old : x ∈ t.existentials := mem_existentials.mpr ⟨AtomSet.mem_vars_of_mem present inside, absent⟩
  have new := (existentials_rename (normalName_injOn Naming.apart_default)).mem_iff.mpr (List.mem_map_of_mem old)
  exact (mem_existentials.mp new).2

theorem Evolvable.of_canonicalParts (free : t.isFunctionFree = true) (guarded : t.Guarded)
    (member : p ∈ t.canonicalParts) : p.Evolvable := by
  obtain ⟨part, present, rfl⟩ := List.mem_map.mp member
  have bodies := body_of_mem_headParts present
  have partFree : part.isFunctionFree = true :=
    isFunctionFree_of_subset free (bodies ▸ fun _ inside => inside) (fun _ => head_of_mem_headParts present)
  refine ⟨isFunctionFree_canonical partFree, (guarded.congr bodies).canonical, canonical_sorted part, ?_⟩
  exact (headParts_kinds present).imp isFull_canonical inventive_canonical

theorem Evolvable.withoutTautology (shape : t.Evolvable) (left : t.withoutTautology = some rest) :
    rest.Evolvable := by
  obtain ⟨bodies, heads⟩ := withoutTautology_eq_some left
  have within : rest.head ⊆ t.head := fun a member => ((heads a).mp member).1
  have vars {x : Variable} (inside : x ∈ rest.head.vars) : x ∈ t.head.vars := by
    obtain ⟨a, member, inside⟩ := AtomSet.mem_vars.mp inside
    exact AtomSet.mem_vars_of_mem (within a member) inside
  refine ⟨isFunctionFree_of_subset shape.free (bodies ▸ fun _ inside => inside) within,
    shape.guarded.congr bodies, ⟨?_, fun x inside absent => ?_⟩, ?_⟩
  · rw [bodies]
    exact shape.sorted.1
  · exact shape.sorted.2 x (vars inside) (bodies ▸ absent)
  · refine shape.kind.imp (fun full => ?_) (fun invents a member => ?_)
    · exact isFull_eq_true.mpr (fun x inside => bodies ▸ isFull_eq_true.mp full x (vars inside))
    · exact bodies ▸ invents a (within a member)

theorem Evolvable.canonical (shape : t.Evolvable) : t.canonical.Evolvable :=
  ⟨isFunctionFree_canonical shape.free, shape.guarded.canonical, canonical_sorted t,
    shape.kind.imp isFull_canonical inventive_canonical⟩

theorem withoutTautology_eq_self (left : t.withoutTautology = some rest) (whole : t.head.size ≤ rest.head.size) :
    rest = t := by
  simp only [Tgd.withoutTautology] at left
  split at left
  · split at left
    · cases left
    · cases left
      have same : t.head \ t.body = t.head := SortedSet.toList_inj.mp (List.filter_sublist.eq_of_length_le whole)
      rw [same]
  · exact (Option.some.inj left).symm

theorem trimmed_eq_none {discard : Bool} (nothing : t.trimmed discard = none) : t.head ⊆ t.body := by
  cases discard with
  | false => simp [trimmed] at nothing
  | true => exact withoutTautology_eq_none (by simpa [trimmed] using nothing)

/-- What is left after trimming is the rule itself, or less of it and renamed. -/
theorem trimmed_cases {discard : Bool} (left : t.trimmed discard = some rest) :
    rest = t ∨ ∃ less, t.withoutTautology = some less ∧ rest = less.canonical := by
  cases discard with
  | false => exact .inl (by simpa [trimmed, eq_comm] using left)
  | true =>
    simp only [trimmed, if_true, Option.map_eq_some_iff] at left
    obtain ⟨less, found, rfl⟩ := left
    split
    · exact .inr ⟨less, found, rfl⟩
    · next whole => exact .inl (withoutTautology_eq_self found (Nat.le_of_not_lt whole))

theorem isFull_trimmed {discard : Bool} (full : t.isFull = true) (left : t.trimmed discard = some rest) :
    rest.isFull = true := by
  have fewer {less : Tgd} (found : t.withoutTautology = some less) : less.isFull = true := by
    obtain ⟨bodies, heads⟩ := withoutTautology_eq_some found
    apply isFull_eq_true.mpr
    intro x inside
    obtain ⟨a, member, inside⟩ := AtomSet.mem_vars.mp inside
    rw [bodies]
    exact isFull_eq_true.mp full x (AtomSet.mem_vars_of_mem ((heads a).mp member).1 inside)
  obtain rfl | ⟨less, found, rfl⟩ := trimmed_cases left
  · exact full
  · exact isFull_canonical (fewer found)

theorem Evolvable.trimmed {discard : Bool} (shape : t.Evolvable) (left : t.trimmed discard = some rest) :
    rest.Evolvable := by
  obtain rfl | ⟨less, found, rfl⟩ := trimmed_cases left
  · exact shape
  · exact (shape.withoutTautology found).canonical

theorem Evolvable.conclusion {nonFull full : Tgd} (first : nonFull.Evolvable) (second : full.Evolvable)
    (notFull : nonFull.isFull = false) (member : t ∈ evolve nonFull full) (part : p ∈ t.canonicalParts) :
    p.Evolvable := by
  have invents := first.kind.resolve_left (by simp [notFull])
  exact .of_canonicalParts (isFunctionFree_evolve first.free second.free member)
    (guarded_evolve first.guarded second.guarded invents member) part

end GuardedSaturation.Tgd
