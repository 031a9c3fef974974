import Mathlib
import GuardedSaturation.Proofs.Chase.Views

/-! The facts of all nodes together satisfy the rules. A fact moves between nodes that know its
values: up to a common ancestor since no child derives facts of its parent's values that the parent
lacks, and down since a child takes them over. So the body of a guarded rule holds at one node, that
of its guard. About constants, all nodes together have only what the root has. -/
namespace GuardedSaturation.Chase
variable {discard : Bool} {L R : Tgd → Prop} {D : AtomSet} {n m : Node} {l r : Tgd} {v : domain.Assignment} {F : domain.Fact}

/-- Every node on the way is the application of a rule. -/
def Opened (L R : Tgd → Prop) (D : AtomSet) : Node → Prop
  | .root => True
  | .child n l v => Opened L R D n ∧ L l ∧ ∀ a ∈ l.body, Holds L R D n (domain.fact v a)

section Saturated
variable (saturated : Saturated discard L R)
include saturated

theorem opened_of_holds : (n : Node) → {F : domain.Fact} → Holds L R D n F → Opened L R D n
  | .root, _, _ => trivial
  | .child n _ _, _, holds => by
    obtain ⟨left, body⟩ := holds.opened saturated
    obtain ⟨a, inside, -⟩ := saturated.guard_left left
    exact ⟨opened_of_holds n (body a inside), left, body⟩

variable (ground : ∀ a ∈ D, a.IsGround)
include ground

/-- A fact holds at every node that knows its values, if it holds anywhere. -/
theorem Holds.move {m n : Node} (holds : Holds L R D m F) (opened : Opened L R D n) (known : ∀ x ∈ F.2, Known n x) :
    Holds L R D n F := by
  by_cases same : m = n
  · exact same ▸ holds
  -- Either the fact comes from the parent of its node, or it has own values of the node.
  by_cases up : ∃ p l v, m = .child p l v ∧ ∀ i, .null m i ∉ F.2
  · obtain ⟨p, l, v, child, old⟩ := up
    have lower : p.depth < m.depth := by
      rw [child, Node.depth]
      exact Nat.lt_succ_self _
    have parent : Holds L R D p F := by
      rw [child] at holds old
      exact holds.of_child saturated ground old
    exact Holds.move parent opened known
  · have own : m = .root ∨ ∃ i, .null m i ∈ F.2 := by
      cases m with
      | root => exact .inl rfl
      | child p l v =>
        right
        by_contra none
        push Not at none
        exact up ⟨p, l, v, rfl, none⟩
    cases n with
    | root =>
      rcases own with rfl | ⟨i, own⟩
      · exact absurd rfl same
      · obtain ⟨c, equal⟩ := (known _ own).const_of_root
        cases equal
    | child p l v =>
      obtain ⟨above, left, body⟩ := opened
      have old (i : Nat) : .null (.child p l v) i ∉ F.2 := by
        intro inside
        rcases (holds.known saturated ground _ inside).above rfl with equal | higher
        · exact same equal.symm
        · rcases own with rfl | ⟨j, own⟩
          · simp [Node.depth] at higher
          · rcases (known _ own).above rfl with equal | higher'
            · exact same equal
            · omega
      have parent : Holds L R D p F := Holds.move holds above (fun x inside =>
        (known x inside).of_child (fun i equal => old i (equal ▸ inside)))
      exact .passed left body parent known
termination_by m.depth + n.depth
decreasing_by
  · omega
  · have child : n = .child p l v := ‹_›
    simp only [child, Node.depth]
    omega

/-- Where a guard holds, all atoms hold whose variables it has. -/
theorem holds_at_guard {s : AtomSet} (plain : ∀ a ∈ s, a.isFunctional = false) (guarded : ∃ a ∈ s, ∀ x ∈ s.vars, x ∈ a.vars)
    (body : ∀ a ∈ s, ∃ n, Holds L R D n (domain.fact v a)) : ∃ n, ∀ a ∈ s, Holds L R D n (domain.fact v a) := by
  obtain ⟨g, guard, covers⟩ := guarded
  obtain ⟨n, holds⟩ := body g guard
  refine ⟨n, fun a member => ?_⟩
  obtain ⟨m, elsewhere⟩ := body a member
  apply elsewhere.move saturated ground (opened_of_holds saturated n holds)
  intro x inside
  rcases (mem_fact (plain a member)).mp inside with ⟨y, mentions, rfl⟩ | ⟨c, -, rfl⟩
  · exact holds.known saturated ground (v y) ((mem_fact (plain g guard)).mpr
      (.inl ⟨y, covers y (AtomSet.mem_vars_of_mem member mentions), rfl⟩))
  · exact .const c

end Saturated

def model (L R : Tgd → Prop) (D : AtomSet) : Structure.{0} := ⟨domain, fun F => ∃ n, Holds L R D n F⟩

section Saturated
variable (saturated : Saturated discard L R) (ground : ∀ a ∈ D, a.IsGround)
include saturated ground

theorem model_left (left : L l) : (model L R D).Models l := by
  intro v body
  obtain ⟨n, body⟩ := holds_at_guard saturated ground (saturated.plain_left left).1 (saturated.guard_left left) body
  refine ⟨invented n l v, fun x universal => ?_, fun h member => ⟨_, .create left body member⟩⟩
  exact if_neg (fun existential => (Tgd.mem_existentials.mp existential).2 universal)

theorem model_right (right : R r) : (model L R D).Models r := by
  intro v body
  obtain ⟨n, body⟩ := holds_at_guard saturated ground (saturated.plain_right right).1 (saturated.right r right).1.guarded body
  exact ⟨v, fun _ _ => rfl, fun h member => ⟨n, .close right body member⟩⟩

theorem holds_root (holds : ∃ n, Holds L R D n F) (constants : ∀ x ∈ F.2, ∃ c, x = .const c) : Holds L R D .root F := by
  obtain ⟨n, holds⟩ := holds
  have opened : Opened L R D .root := trivial
  apply holds.move saturated ground opened
  intro x inside
  obtain ⟨c, rfl⟩ := constants x inside
  exact .const c

end Saturated
end GuardedSaturation.Chase
