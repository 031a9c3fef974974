import Mathlib
import GuardedSaturation.Proofs.Evolution.Completeness
import GuardedSaturation.Proofs.Chase.Tree

/-! What a child derives its parent knows of. A view of a child is a rule with existential
variables whose body holds at the parent and whose head lists facts of the child. Whatever full
rules derive at the child is listed by some larger view, or holds at the parent: where a full rule
uses facts of the view, evolution has a conclusion that lists the new facts too, and a rule that
subsumes it is among the rules. So facts about values that the parent knows were there before. -/
namespace GuardedSaturation

namespace Tgd
variable {t p rest : Tgd}

theorem trimmed_of_inventive {discard : Bool} (invents : ∀ a ∈ t.head, ∃ x ∈ a.vars, x ∉ t.body.vars) :
    t.trimmed discard = some t := by
  have apart : t.head.any (· ∈ t.body) = false := by
    rw [SortedSet.any, List.any_eq_false]
    intro a member granted
    obtain ⟨x, inside, absent⟩ := invents a member
    exact absent (AtomSet.mem_vars_of_mem (of_decide_eq_true granted) inside)
  have whole : t.withoutTautology = some t := by
    rw [withoutTautology, apart]
    rfl
  cases discard with
  | false => rfl
  | true => simp [trimmed, whole]

theorem existentials_of_headParts (part : p ∈ t.headParts) {e : Variable} (existential : e ∈ p.existentials) :
    e ∈ t.existentials := by
  obtain ⟨mentioned, absent⟩ := mem_existentials.mp existential
  obtain ⟨a, member, inside⟩ := AtomSet.mem_vars.mp mentioned
  rw [universals, body_of_mem_headParts part] at absent
  exact mem_existentials.mpr ⟨AtomSet.mem_vars_of_mem (head_of_mem_headParts part member) inside, absent⟩

theorem existentials_of_canonical {e : Variable} (existential : e ∈ t.canonical.existentials) :
    ∃ x ∈ t.existentials, t.normalName {} x = e := by
  rw [canonical_eq] at existential
  exact exists_of_mem_existentials_rename existential

/-- Between rules with names of their kind, an existential variable of one is not universal in the other. -/
theorem Sorted.existential {s : Tgd} (sorted : t.Sorted {}) (sorted' : s.Sorted {}) {e : Variable}
    (existential : e ∈ s.existentials) (inside : e ∈ t.vars) : e ∈ t.existentials := by
  obtain ⟨mentioned, absent⟩ := mem_existentials.mp existential
  have notUniversal : e ∉ t.body.vars := by
    intro universal
    obtain ⟨i, name⟩ := sorted.1 e universal
    obtain ⟨j, name'⟩ := sorted'.2 e mentioned absent
    exact Naming.apart_default i j (name.symm.trans name')
  exact mem_existentials.mpr ⟨(mem_vars.mp inside).resolve_left notUniversal, notUniversal⟩

end Tgd

namespace Chase
variable {discard : Bool} {L R : Tgd → Prop} {D : AtomSet} {n k : Node} {l r t t' q p : Tgd} {u u' f w : domain.Assignment}
  {F : domain.Fact} {h : Atom}

/-- The body holds at the node, and the existential variables have own values of another node. -/
structure Fits (L R : Tgd → Prop) (D : AtomSet) (n k : Node) (t : Tgd) (u : domain.Assignment) : Prop where
  body : ∀ a ∈ t.body, Holds L R D n (domain.fact u a)
  null : ∀ e ∈ t.existentials, ∃ i, u e = .null k i
  apart : ∀ e ∈ t.existentials, ∀ e' ∈ t.existentials, u e = u e' → e = e'

structure View (L R : Tgd → Prop) (D : AtomSet) (n k : Node) (t : Tgd) (u : domain.Assignment) : Prop
    extends Fits L R D n k t u where
  left : L t

def Lists (t : Tgd) (u : domain.Assignment) (F : domain.Fact) : Prop := ∃ h ∈ t.head, domain.fact u h = F

/-- The second rule lists all that the first one does. -/
def Extends (t : Tgd) (u : domain.Assignment) (t' : Tgd) (u' : domain.Assignment) : Prop := ∀ F, Lists t u F → Lists t' u' F

theorem view_invented {v : domain.Assignment} (left : L l) (body : ∀ a ∈ l.body, Holds L R D n (domain.fact v a)) :
    View L R D n (.child n l v) l (invented n l v) := by
  refine ⟨⟨?_, fun e existential => ⟨_, if_pos existential⟩, ?_⟩, left⟩
  · intro a member
    have same : domain.fact (invented n l v) a = domain.fact v a := by
      apply Interpretation.fact_congr
      intro x inside
      apply if_neg
      intro existential
      exact (Tgd.mem_existentials.mp existential).2 (AtomSet.mem_vars_of_mem member inside)
    rw [same]
    exact body a member
  · intro e first e' second same
    rw [invented, invented, if_pos first, if_pos second, Value.null.injEq] at same
    exact (List.idxOf_inj first).mp same.2

theorem Fits.part (fits : Fits L R D n k t u) (part : p ∈ t.headParts) : Fits L R D n k p u := by
  refine ⟨?_, fun e existential => fits.null e (Tgd.existentials_of_headParts part existential), ?_⟩
  · rw [Tgd.body_of_mem_headParts part]
    exact fits.body
  · intro e first e' second
    exact fits.apart e (Tgd.existentials_of_headParts part first) e' (Tgd.existentials_of_headParts part second)

theorem Fits.canonical (fits : Fits L R D n k t u) : ∃ u', Fits L R D n k t.canonical u' ∧ Extends t u t.canonical u' := by
  obtain ⟨u', named⟩ := Structure.exists_renamed (M := ⟨domain, fun _ => True⟩)
    (Tgd.normalName_injOn (t := t) Naming.apart_default) u
  have same {a : Atom} (inside : ∀ x ∈ a.vars, x ∈ t.vars) :
      domain.fact u' (a.subst (fun x => .var (t.normalName {} x))) = domain.fact u a := by
    rw [Interpretation.fact_subst]
    apply Interpretation.fact_congr
    intro x mentions
    rw [Interpretation.value_var]
    exact named x (inside x mentions)
  have value {x : Variable} (existential : x ∈ t.existentials) : u' (t.normalName {} x) = u x :=
    named x (Tgd.mem_vars_of_existential existential)
  refine ⟨u', ⟨?_, ?_, ?_⟩, ?_⟩
  · rw [Tgd.canonical_eq]
    intro a member
    obtain ⟨b, present, rfl⟩ := AtomSet.mem_subst.mp member
    rw [same (fun x inside => Tgd.mem_vars_of_body (AtomSet.mem_vars_of_mem present inside))]
    exact fits.body b present
  · intro e existential
    obtain ⟨x, old, rfl⟩ := Tgd.existentials_of_canonical existential
    rw [value old]
    exact fits.null x old
  · intro e existential e' existential' equal
    obtain ⟨x, old, rfl⟩ := Tgd.existentials_of_canonical existential
    obtain ⟨x', old', rfl⟩ := Tgd.existentials_of_canonical existential'
    rw [value old, value old'] at equal
    rw [fits.apart x old x' old' equal]
  · rw [Tgd.canonical_eq]
    rintro F ⟨h, member, rfl⟩
    exact ⟨_, AtomSet.mem_subst.mpr ⟨h, member, rfl⟩,
      same (fun x inside => Tgd.mem_vars_of_head (AtomSet.mem_vars_of_mem member inside))⟩

theorem exists_unused (k : Node) (used : List Value) : ∃ N, ∀ i, Value.null k (N + i) ∉ used := by
  induction used with
  | nil => exact ⟨0, by simp⟩
  | cons x used ih =>
    obtain ⟨N, unused⟩ := ih
    by_cases taken : ∃ j, x = .null k (N + j)
    · obtain ⟨j, rfl⟩ := taken
      refine ⟨N + j + 1, fun i member => ?_⟩
      rcases List.mem_cons.mp member with same | member
      · have := (Value.null.injEq ..).mp same
        omega
      · refine unused (j + 1 + i) ?_
        rwa [show N + (j + 1 + i) = N + j + 1 + i by omega]
    · refine ⟨N, fun i member => ?_⟩
      rcases List.mem_cons.mp member with same | member
      · exact taken ⟨i, same.symm⟩
      · exact unused i member

/-- A rule that subsumes another one fits as well: what it mentions alone gets unused values. -/
theorem Fits.of_subsumes (fits : Fits L R D n k t u) (sorted : t.Sorted {}) (sorted' : q.Sorted {})
    (subsumes : q.subsumes t = true) : ∃ u', Fits L R D n k q u' ∧ Extends t u q u' := by
  obtain ⟨bodies, heads⟩ := Tgd.subsumes_iff.mp subsumes
  obtain ⟨N, unused⟩ := exists_unused k (t.vars.map u)
  let u' : domain.Assignment := fun x => if x ∈ t.vars then u x else .null k (N + q.vars.idxOf x)
  have shared {x : Variable} (inside : x ∈ t.vars) : u' x = u x := if_pos inside
  have other {x : Variable} (absent : x ∉ t.vars) : u' x = .null k (N + q.vars.idxOf x) := if_neg absent
  have fact {a : Atom} (inside : ∀ x ∈ a.vars, x ∈ t.vars) : domain.fact u' a = domain.fact u a :=
    Interpretation.fact_congr (fun x mentions => shared (inside x mentions))
  have mixed {x y : Variable} (inside : x ∈ t.vars) (absent : y ∉ t.vars) : u' x ≠ u' y := by
    rw [shared inside, other absent]
    intro same
    have taken := List.mem_map_of_mem (f := u) inside
    rw [same] at taken
    exact unused _ taken
  refine ⟨u', ⟨?_, ?_, ?_⟩, ?_⟩
  · intro a member
    rw [fact (fun x inside => Tgd.mem_vars_of_body (AtomSet.mem_vars_of_mem (bodies a member) inside))]
    exact fits.body a (bodies a member)
  · intro e existential
    by_cases inside : e ∈ t.vars
    · rw [shared inside]
      exact fits.null e (sorted.existential sorted' existential inside)
    · exact ⟨_, other inside⟩
  · intro e existential e' existential' same
    by_cases inside : e ∈ t.vars <;> by_cases inside' : e' ∈ t.vars
    · rw [shared inside, shared inside'] at same
      exact fits.apart e (sorted.existential sorted' existential inside) e'
        (sorted.existential sorted' existential' inside') same
    · exact absurd same (mixed inside inside')
    · exact absurd same.symm (mixed inside' inside)
    · rw [other inside, other inside', Value.null.injEq] at same
      exact (List.idxOf_inj (Tgd.mem_vars_of_existential existential)).mp (by omega)
  · rintro F ⟨h, member, rfl⟩
    exact ⟨h, heads h member, fact (fun x inside => Tgd.mem_vars_of_head (AtomSet.mem_vars_of_mem member inside))⟩

theorem Fits.of_grants (view : View L R D n k t u) (grants : Grants domain t r u f (Holds L R D n) t' w) :
    Fits L R D n k t' w := by
  refine ⟨?_, ?_, ?_⟩
  · intro a member
    rcases grants.body a member with ⟨b, inside, same⟩ | old
    · rw [same]
      exact view.body b inside
    · exact old
  · intro e existential
    obtain ⟨older, same⟩ := grants.existential e existential
    rw [same]
    exact view.null e older
  · intro e existential e' existential' equal
    obtain ⟨older, same⟩ := grants.existential e existential
    obtain ⟨older', same'⟩ := grants.existential e' existential'
    rw [same, same'] at equal
    exact view.apart e older e' older' equal

section Saturated
variable (saturated : Saturated discard L R)
include saturated

theorem View.own (view : View L R D n k t u) (listed : Lists t u F) : ∃ i, .null k i ∈ F.2 := by
  obtain ⟨h, member, rfl⟩ := listed
  obtain ⟨evolvable, notFull⟩ := saturated.left t view.left
  obtain ⟨x, inside, absent⟩ := evolvable.kind.resolve_left (by simp [notFull]) h member
  obtain ⟨i, own⟩ := view.null x (Tgd.mem_existentials.mpr ⟨AtomSet.mem_vars_of_mem member inside, absent⟩)
  exact ⟨i, (mem_fact ((saturated.plain_left view.left).2 h member)).mpr (.inl ⟨x, inside, own⟩)⟩

/-- The full part of a conclusion adds to the facts of the node itself. -/
theorem View.full_part (view : View L R D n k t u) (right : R r) (grants : Grants domain t r u f (Holds L R D n) t' w)
    (part : p ∈ t'.headParts) (full : p.isFull = true) : ∀ a ∈ p.head, Holds L R D n (domain.fact w a) := by
  have canonical : p.canonical ∈ t'.canonicalParts := List.mem_map_of_mem part
  have evolvable := Tgd.Evolvable.conclusion (saturated.left t view.left).1 (saturated.right r right).1
    (saturated.left t view.left).2 grants.member canonical
  have trimmed (rest : Tgd) (left : p.canonical.trimmed discard = some rest) : (facts L R D n).Models rest := by
    obtain ⟨q, kind, subsumes⟩ := saturated.closed t r view.left right t' grants.member _ canonical rest left
    rw [if_pos (Tgd.isFull_trimmed (Tgd.isFull_canonical full) left)] at kind
    exact .of_subsumes Naming.apart_default (saturated.right q kind).1.sorted (evolvable.trimmed left).sorted subsumes
      (models_right kind)
  have models := Structure.models_canonical.mp (Structure.models_trimmed.mp trimmed)
  exact models.of_full full ((Fits.of_grants view grants).part part).body

/-- The other part of a conclusion is kept as it is, and a rule that subsumes it lists all its facts. -/
theorem View.inventive_part (view : View L R D n k t u) (right : R r)
    (grants : Grants domain t r u f (Holds L R D n) t' w) (part : p ∈ t'.headParts) (notFull : p.isFull = false)
    (invents : ∀ a ∈ p.head, ∃ x ∈ a.vars, x ∉ p.body.vars) :
    ∃ q u', View L R D n k q u' ∧ Extends p w q u' := by
  have canonical : p.canonical ∈ t'.canonicalParts := List.mem_map_of_mem part
  have evolvable := Tgd.Evolvable.conclusion (saturated.left t view.left).1 (saturated.right r right).1
    (saturated.left t view.left).2 grants.member canonical
  obtain ⟨q, kind, subsumes⟩ := saturated.closed t r view.left right t' grants.member _ canonical _
    (Tgd.trimmed_of_inventive (Tgd.inventive_canonical invents))
  have stays : p.canonical.isFull ≠ true := by
    intro full
    obtain ⟨x, inside, absent⟩ : ∃ x ∈ p.head.vars, x ∉ p.body.vars := by
      by_contra none
      push Not at none
      simp [Tgd.isFull_eq_true.mpr none] at notFull
    obtain ⟨a, member, mentions⟩ := AtomSet.mem_vars.mp inside
    obtain ⟨y, inside', absent'⟩ := Tgd.inventive_canonical invents _ (AtomSet.mem_subst.mpr ⟨a, member, rfl⟩)
    exact absent' (Tgd.isFull_eq_true.mp full y (AtomSet.mem_vars_of_mem (AtomSet.mem_subst.mpr ⟨a, member, rfl⟩) inside'))
  rw [if_neg stays] at kind
  obtain ⟨w', fits, renamed⟩ := ((Fits.of_grants view grants).part part).canonical
  obtain ⟨u', fits, subsumed⟩ := fits.of_subsumes evolvable.sorted (saturated.left q kind).1.sorted subsumes
  exact ⟨q, u', ⟨fits, kind⟩, fun F listed => subsumed F (renamed F listed)⟩

variable (ground : ∀ a ∈ D, a.IsGround) (new : ∀ i, ¬ Known n (.null k i))
include ground new

theorem View.invents (view : View L R D n k t u) : t.Invents domain u := by
  constructor
  · intro e existential c same
    obtain ⟨i, own⟩ := view.null e existential
    rw [own] at same
    cases same
  · intro e existential y inside same
    by_cases invents : y ∈ t.existentials
    · exact view.apart y invents e existential same
    · have universal : y ∈ t.body.vars := by
        by_contra absent
        exact invents (Tgd.mem_existentials.mpr ⟨(Tgd.mem_vars.mp inside).resolve_left absent, absent⟩)
      have known := known_of_body saturated ground (saturated.plain_left view.left).1 view.body universal
      obtain ⟨i, own⟩ := view.null e existential
      rw [same, own] at known
      exact absurd known (new i)

/-- What a full rule grants in a conclusion holds at the node, or a view lists it with all that was listed before. -/
theorem View.evolved (view : View L R D n k t u) (right : R r) (grants : Grants domain t r u f (Holds L R D n) t' w)
    (member : h ∈ r.head) :
    Holds L R D n (domain.fact f h) ∨
      ∃ q u', View L R D n k q u' ∧ Extends t u q u' ∧ Lists q u' (domain.fact f h) := by
  obtain ⟨a, inside, same⟩ := grants.second h member
  obtain ⟨p, part, present, full, together⟩ := Tgd.exists_mem_headParts inside
  cases kind : t'.inventive a with
  | false =>
    left
    rw [← same]
    exact view.full_part saturated right grants part (full kind) a present
  | true =>
    right
    have notFull : p.isFull = false := by
      obtain ⟨x, mentions, absent⟩ := (Tgd.inventive_iff inside).mp kind
      rw [← Tgd.body_of_mem_headParts part] at absent
      rw [← Bool.not_eq_true, Tgd.isFull_eq_true]
      exact fun full => absent (full x (AtomSet.mem_vars_of_mem present mentions))
    have invents := (Tgd.headParts_kinds part).resolve_left (by simp [notFull])
    obtain ⟨q, u', view', larger⟩ := view.inventive_part saturated right grants part notFull invents
    refine ⟨q, u', view', fun G listed => ?_, larger _ ⟨a, present, same⟩⟩
    -- Facts of the first head are about own values, so that their atoms are in this part too.
    obtain ⟨i, own⟩ := view.own saturated listed
    obtain ⟨g, old, rfl⟩ := listed
    obtain ⟨b, kept, same'⟩ := grants.first g old
    rw [← same'] at own ⊢
    have free := Tgd.isFunctionFree_eq_true.mp (Tgd.isFunctionFree_evolve (saturated.left t view.left).1.free
      (saturated.right r right).1.free grants.member)
    refine larger _ ⟨b, together kind b kept ((Tgd.inventive_iff kept).mpr ?_), rfl⟩
    rcases (mem_fact (free.2 b kept)).mp own with ⟨y, mentions, value⟩ | ⟨c, -, value⟩
    · refine ⟨y, mentions, fun universal => new i ?_⟩
      rw [← value]
      exact known_of_body saturated ground free.1 (Fits.of_grants view grants).body universal
    · cases value

theorem View.advance (view : View L R D n k t u) (right : R r)
    (body : ∀ a ∈ r.body, Holds L R D n (domain.fact f a) ∨ Lists t u (domain.fact f a)) (member : h ∈ r.head) :
    Holds L R D n (domain.fact f h) ∨
      ∃ q u', View L R D n k q u' ∧ Extends t u q u' ∧ Lists q u' (domain.fact f h) := by
  by_cases all : ∀ a ∈ r.body, Holds L R D n (domain.fact f a)
  · exact .inl (.close right all member)
  · push Not at all
    obtain ⟨evolvable, full⟩ := saturated.right r right
    have granted (a : Atom) (inside : a ∈ r.body) (late : ¬ Holds L R D n (domain.fact f a)) :
        ∃ h ∈ t.head, domain.fact f a = domain.fact u h := by
      obtain ⟨h, listed, same⟩ := (body a inside).resolve_left late
      exact ⟨h, listed, same.symm⟩
    have apart (a : Atom) (inside : a ∈ r.body) (old : Holds L R D n (domain.fact f a)) (x : Variable) (mentions : x ∈ a.vars)
        (e : Variable) (existential : e ∈ t.existentials) : f x ≠ u e := by
      intro same
      have known := old.known saturated ground (f x)
        ((mem_fact ((saturated.plain_right right).1 a inside)).mpr (.inl ⟨x, mentions, rfl⟩))
      obtain ⟨i, own⟩ := view.null e existential
      rw [same, own] at known
      exact new i known
    obtain ⟨t', w, grants⟩ := exists_grants (fun _ _ same => Value.const.inj same) (saturated.left t view.left).1.free
      evolvable.free full (view.invents saturated ground new) granted all apart
    exact view.evolved saturated ground new right grants member

end Saturated

/-- From any view on, the fact holds at the parent or a larger view lists it. -/
def Seen (L R : Tgd → Prop) (D : AtomSet) (n k : Node) (t : Tgd) (u : domain.Assignment) (F : domain.Fact) : Prop :=
  ∀ q w, View L R D n k q w → Extends t u q w →
    Holds L R D n F ∨ ∃ q' w', View L R D n k q' w' ∧ Extends q w q' w' ∧ Lists q' w' F

theorem Extends.trans (first : Extends t u t' u') (second : Extends t' u' q w) : Extends t u q w :=
  fun F listed => second F (first F listed)

theorem Seen.all {as : List Atom} (seen : ∀ a ∈ as, Seen L R D n k t u (domain.fact f a)) (view : View L R D n k t' u')
    (larger : Extends t u t' u') :
    ∃ q w, View L R D n k q w ∧ Extends t' u' q w ∧
      ∀ a ∈ as, Holds L R D n (domain.fact f a) ∨ Lists q w (domain.fact f a) := by
  induction as generalizing t' u' with
  | nil => exact ⟨t', u', view, fun _ listed => listed, by simp⟩
  | cons a as ih =>
    obtain ⟨here, later⟩ := List.forall_mem_cons.mp seen
    rcases here t' u' view larger with old | ⟨q, w, view', larger', listed⟩
    · obtain ⟨q, w, view, last, rest⟩ := ih later view larger
      exact ⟨q, w, view, last, List.forall_mem_cons.mpr ⟨.inl old, rest⟩⟩
    · obtain ⟨q', w', view, last, rest⟩ := ih later view' (larger.trans larger')
      exact ⟨q', w', view, larger'.trans last, List.forall_mem_cons.mpr ⟨.inr (last _ listed), rest⟩⟩

section Child
variable {v : domain.Assignment} (saturated : Saturated discard L R) (ground : ∀ a ∈ D, a.IsGround)
include saturated ground

theorem Holds.seen (holds : Holds L R D (.child n l v) F) : Seen L R D n (.child n l v) l (invented n l v) F := by
  generalize same : Node.child n l v = k at holds
  -- The views are quantified within `Seen`: each body fact of a full rule may enlarge the view.
  induction holds with
  | given => cases same
  | passed left body old known =>
    cases same
    exact fun _ _ _ _ => .inl old
  | create left body member =>
    cases same
    exact fun q w view larger => .inr ⟨q, w, view, fun _ listed => listed, larger _ ⟨_, member, rfl⟩⟩
  | close right body member ih =>
    subst same
    intro q w view larger
    obtain ⟨q', w', view', larger', all⟩ := Seen.all (fun a inside => ih a inside rfl) view larger
    rcases view'.advance saturated ground (fun _ => not_known_own) right all member with
      old | ⟨last, w'', view'', larger'', listed⟩
    · exact .inl old
    · exact .inr ⟨last, w'', view'', larger'.trans larger'', listed⟩

/-- Facts of a child that are not about its own values hold at its parent. -/
theorem Holds.of_child (holds : Holds L R D (.child n l v) F) (old : ∀ i, .null (.child n l v) i ∉ F.2) : Holds L R D n F := by
  obtain ⟨left, body⟩ := holds.opened saturated
  rcases holds.seen saturated ground l _ (view_invented left body) (fun _ listed => listed) with
    old | ⟨q, w, view, -, listed⟩
  · exact old
  · obtain ⟨i, own⟩ := view.own saturated listed
    exact absurd own (old i)

end Child

end Chase
end GuardedSaturation
