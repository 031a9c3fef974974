import Mathlib
import GuardedSaturation.Proofs.Shapes.Existential

/-! A tree of facts over given facts and rules of two kinds. A rule with existential variables
opens a child of a node where its body holds; the child invents values for these variables, and
takes over the facts of its parent about values that it knows. Full rules are applied at every
node by itself, so that the root has what the full rules alone derive. -/
namespace GuardedSaturation

def Atom.IsGround (a : Atom) : Prop := ∀ t ∈ a.args, ∃ c, t = .const c

theorem Atom.IsGround.plain {a : Atom} (ground : a.IsGround) : a.isFunctional = false := by
  apply isFunctional_eq_false.mpr
  intro t member
  obtain ⟨c, rfl⟩ := ground t member
  rfl

theorem Atom.IsGround.vars {a : Atom} (ground : a.IsGround) {x : Variable} : x ∉ a.vars := by
  intro inside
  obtain ⟨t, member, inside⟩ := mem_vars.mp inside
  obtain ⟨c, rfl⟩ := ground t member
  simp at inside

namespace Chase

mutual
inductive Value where
  | const (c : String)
  /-- A value that a node has invented. -/
  | null (node : Node) (i : Nat)

inductive Node where
  | root
  | child (parent : Node) (rule : Tgd) (v : Variable → Value)
end

def Node.depth : Node → Nat
  | .root => 0
  | .child parent _ _ => parent.depth + 1

/-- Constants and invented values. What function terms mean does not matter: no rule has any. -/
abbrev domain : Interpretation.{0} where
  Domain := Value
  inhabited := ⟨.const ""⟩
  const := .const
  app _ _ := .const ""

/-- A child knows its own values, and of those that its parent knows the ones that its rule mentions. -/
inductive Known : Node → Value → Prop
  | const {n : Node} (c : String) : Known n (.const c)
  | own {n : Node} {l : Tgd} {v : Variable → Value} (i : Nat) : Known (.child n l v) (.null (.child n l v) i)
  | passed {n : Node} {l : Tgd} {v : Variable → Value} {x : Variable} (known : Known n (v x)) (inside : x ∈ l.body.vars) :
      Known (.child n l v) (v x)

/-- The values of a child: those of its parent, with an own value for each existential variable. -/
def invented (n : Node) (l : Tgd) (v : Variable → Value) : domain.Assignment :=
  fun x => if x ∈ l.existentials then .null (.child n l v) (l.existentials.idxOf x) else v x

inductive Holds (L R : Tgd → Prop) (D : AtomSet) : Node → domain.Fact → Prop
  | given {a : Atom} (v : domain.Assignment) (member : a ∈ D) : Holds L R D .root (domain.fact v a)
  | passed {n : Node} {l : Tgd} {v : domain.Assignment} {F : domain.Fact} (left : L l)
      (body : ∀ a ∈ l.body, Holds L R D n (domain.fact v a)) (old : Holds L R D n F)
      (known : ∀ x ∈ F.2, Known (.child n l v) x) : Holds L R D (.child n l v) F
  | create {n : Node} {l : Tgd} {v : domain.Assignment} {h : Atom} (left : L l)
      (body : ∀ a ∈ l.body, Holds L R D n (domain.fact v a)) (member : h ∈ l.head) :
      Holds L R D (.child n l v) (domain.fact (invented n l v) h)
  | close {n : Node} {r : Tgd} {f : domain.Assignment} {h : Atom} (right : R r)
      (body : ∀ a ∈ r.body, Holds L R D n (domain.fact f a)) (member : h ∈ r.head) :
      Holds L R D n (domain.fact f h)

variable {n m : Node} {l : Tgd} {v u : domain.Assignment} {x : Value} {F : domain.Fact}

theorem Known.const_of_root (known : Known .root x) : ∃ c, x = .const c := by
  cases known
  exact ⟨_, rfl⟩

/-- A node knows no values of others that are not above it. -/
theorem Known.above (known : Known n x) {k : Node} {i : Nat} (own : x = .null k i) : k = n ∨ k.depth < n.depth := by
  induction known with
  | const c => cases own
  | own j =>
    cases own
    exact .inl rfl
  | passed known inside ih =>
    right
    rw [Node.depth]
    rcases ih own with rfl | above <;> omega

theorem not_known_own {i : Nat} : ¬ Known n (.null (.child n l v) i) := by
  intro known
  have above := known.above rfl
  simp only [Node.depth] at above
  rcases above with same | above
  · have := congrArg Node.depth same
    simp only [Node.depth] at this
    omega
  · omega

theorem Known.of_child (known : Known (.child n l v) x) (old : ∀ i, x ≠ .null (.child n l v) i) : Known n x := by
  cases known with
  | const c => exact .const c
  | own i => exact absurd rfl (old i)
  | passed known inside => exact known

theorem mem_fact {a : Atom} (plain : a.isFunctional = false) :
    x ∈ (domain.fact u a).2 ↔ (∃ y ∈ a.vars, u y = x) ∨ ∃ c, .const c ∈ a.args ∧ x = .const c := by
  rw [Interpretation.fact, Interpretation.values_eq_map, List.mem_map]
  constructor
  · rintro ⟨t, member, rfl⟩
    rcases Term.plain_cases (Atom.isFunctional_eq_false.mp plain t member) with ⟨y, rfl⟩ | ⟨c, rfl⟩
    · exact .inl ⟨y, (Atom.var_mem_args plain).mp member, by simp⟩
    · exact .inr ⟨c, member, by simp⟩
  · rintro (⟨y, inside, rfl⟩ | ⟨c, member, rfl⟩)
    · exact ⟨.var y, (Atom.var_mem_args plain).mpr inside, by simp⟩
    · exact ⟨.const c, member, by simp⟩

/-- Rules of two kinds, closed under evolution up to trimming and subsumption. -/
structure Saturated (discard : Bool) (L R : Tgd → Prop) : Prop where
  left : ∀ l, L l → l.Evolvable ∧ l.isFull = false
  right : ∀ r, R r → r.Evolvable ∧ r.isFull = true
  closed : ∀ l r, L l → R r → ∀ t ∈ evolve l r, ∀ p ∈ t.canonicalParts, ∀ rest, p.trimmed discard = some rest →
    ∃ q, (if rest.isFull = true then R q else L q) ∧ q.subsumes rest = true

section Holds
variable {discard : Bool} {L R : Tgd → Prop} {D : AtomSet} (saturated : Saturated discard L R) (ground : ∀ a ∈ D, a.IsGround)
include saturated

theorem Saturated.guard_left (left : L l) : ∃ a ∈ l.body, ∀ x ∈ l.body.vars, x ∈ a.vars := (saturated.left l left).1.guarded

theorem Saturated.plain_left (left : L l) :
    (∀ a ∈ l.body, a.isFunctional = false) ∧ ∀ a ∈ l.head, a.isFunctional = false :=
  Tgd.isFunctionFree_eq_true.mp (saturated.left l left).1.free

theorem Saturated.plain_right {r : Tgd} (right : R r) :
    (∀ a ∈ r.body, a.isFunctional = false) ∧ ∀ a ∈ r.head, a.isFunctional = false :=
  Tgd.isFunctionFree_eq_true.mp (saturated.right r right).1.free

include ground

theorem Holds.known (holds : Holds L R D n F) : ∀ x ∈ F.2, Known n x := by
  induction holds with
  | given v member =>
    intro x inside
    rcases (mem_fact (ground _ member).plain).mp inside with ⟨y, mentions, -⟩ | ⟨c, -, rfl⟩
    · exact absurd mentions (ground _ member).vars
    · exact .const c
  | passed left body old known => exact known
  | @create n l v h left body member ih =>
    intro x inside
    rcases (mem_fact ((saturated.plain_left left).2 h member)).mp inside with ⟨y, mentions, rfl⟩ | ⟨c, -, rfl⟩
    · rw [invented]
      split
      · exact .own _
      · next universal =>
        have inside : y ∈ l.body.vars := by
          by_contra absent
          exact universal (Tgd.mem_existentials.mpr ⟨AtomSet.mem_vars_of_mem member mentions, absent⟩)
        obtain ⟨a, present, mentions⟩ := AtomSet.mem_vars.mp inside
        have known := ih a present (v y) ((mem_fact ((saturated.plain_left left).1 a present)).mpr (.inl ⟨y, mentions, rfl⟩))
        exact .passed known inside
    · exact .const c
  | @close n r f h right body member ih =>
    intro x inside
    rcases (mem_fact ((saturated.plain_right right).2 h member)).mp inside with ⟨y, mentions, rfl⟩ | ⟨c, -, rfl⟩
    · have full := Tgd.isFull_eq_true.mp (saturated.right r right).2
      obtain ⟨a, present, mentions⟩ := AtomSet.mem_vars.mp (full y (AtomSet.mem_vars_of_mem member mentions))
      exact ih a present (f y) ((mem_fact ((saturated.plain_right right).1 a present)).mpr (.inl ⟨y, mentions, rfl⟩))
    · exact .const c

theorem known_of_body {s : AtomSet} (plain : ∀ a ∈ s, a.isFunctional = false)
    (body : ∀ a ∈ s, Holds L R D n (domain.fact u a)) {y : Variable} (inside : y ∈ s.vars) : Known n (u y) := by
  obtain ⟨a, member, mentions⟩ := AtomSet.mem_vars.mp inside
  exact (body a member).known saturated ground (u y) ((mem_fact (plain a member)).mpr (.inl ⟨y, mentions, rfl⟩))

omit ground

/-- Where a fact holds at a child, its rule was applied. -/
theorem Holds.opened (holds : Holds L R D (.child n l v) F) : L l ∧ ∀ a ∈ l.body, Holds L R D n (domain.fact v a) := by
  generalize same : Node.child n l v = k at holds
  induction holds with
  | given => cases same
  | passed left body old known =>
    cases same
    exact ⟨left, body⟩
  | create left body member =>
    cases same
    exact ⟨left, body⟩
  | close right body member ih =>
    obtain ⟨a, inside, -⟩ := (saturated.right _ right).1.guarded
    exact ih a inside same

end Holds

def facts (L R : Tgd → Prop) (D : AtomSet) (n : Node) : Structure.{0} := ⟨domain, Holds L R D n⟩

theorem models_right {L R : Tgd → Prop} {D : AtomSet} {r : Tgd} (right : R r) : (facts L R D n).Models r :=
  fun v body => ⟨v, fun _ _ => rfl, fun _ member => .close right body member⟩

end Chase
end GuardedSaturation
