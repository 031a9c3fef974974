import Mathlib
import GuardedSaturation.Proofs.Saturation.Invariants
import GuardedSaturation.Proofs.Widths

/-! Runs stay within the guarded rules: whatever is drawn is guarded, so nothing is discarded for the lack of a guard. -/
namespace GuardedSaturation

namespace State
variable {config : Config} {ds : List Dependency} {m : State}

theorem undiscarded (config : Config) (P : Tgd → Prop) : Invariant config P (fun s => s.stats.unguardedResolvents = 0) := by
  refine ⟨fun s f same none => ?_, fun s id queue _ none => none, fun s r o _ none => none, fun s r o _ _ none _ => ?_⟩
  · rw [count, (same _).2]
    exact none
  · rw [stats_stored]
    exact none

theorem Between.undiscarded (checked : Dependency.checkAll ds = .ok ()) (between : Between config ds m) :
    m.stats.unguardedResolvents = 0 :=
  (State.undiscarded config config.algorithm.Shape).between (runs_shape config checked) rfl between

end State

/-- No candidate of any run lacks a guard. In particular, resolvents of a guarded rule whose head atoms all mention
existential variables with a guarded full rule are guarded, and neither gain universal variables nor have other
existential ones. -/
theorem unguardedResolvents_eq_zero :
    (∀ (config : Config) (ds : List Dependency), Dependency.checkAll ds = .ok () →
      (∀ m, State.Between config ds m → m.stats.unguardedResolvents = 0) ∧
      ∃ result, saturate config ds = .ok result ∧ result.stats.unguardedResolvents = 0) ∧
    ∀ nonFull full : Tgd, nonFull.isFunctionFree = true → full.isFunctionFree = true → nonFull.Guarded → full.Guarded →
      full.isFull = true → (∀ h ∈ nonFull.head, ∃ e ∈ nonFull.existentials, h.mentions e = true) →
      ∀ t ∈ evolve nonFull full, t.Guarded ∧ t.universals.length ≤ nonFull.universals.length ∧
        t.existentials ⊆ nonFull.existentials := by
  refine ⟨fun config ds checked => ⟨fun m between => between.undiscarded checked, ?_⟩, ?_⟩
  · exact ⟨_, saturate_of_checked config checked,
      State.Between.undiscarded checked (.within (.turn (State.final_reached config ds)))⟩
  · intro nonFull full free free' guarded guarded' isFull inventive t member
    have invents (h : Atom) (inside : h ∈ nonFull.head) : ∃ e ∈ h.vars, e ∉ nonFull.body.vars := by
      obtain ⟨e, existential, mentions⟩ := inventive h inside
      exact ⟨e, Atom.mentions_iff.mp mentions, (Tgd.mem_existentials.mp existential).2⟩
    exact ⟨Tgd.guarded_evolve guarded guarded' invents member,
      Tgd.universals_length_evolve free free' guarded' invents member, Tgd.existentials_evolve_subset isFull member⟩

/-- The rules of two dependencies that join: nothing is discarded, and `p(u0) → ∃e0. q(u0, e0) ∧ r(u0)` is guarded. -/
theorem unguardedResolvents_chained :
    ∃ nonFull full t : Tgd, nonFull = .ofLists [⟨"p", [.var "u0"]⟩] [⟨"q", [.var "u0", .var "e0"]⟩] ∧
      full = .ofLists [⟨"q", [.var "u0", .var "u1"]⟩] [⟨"r", [.var "u0"]⟩] ∧
      t = .ofLists [⟨"p", [.var "u0"]⟩] [⟨"q", [.var "u0", .var "e0"]⟩, ⟨"r", [.var "u0"]⟩] ∧ t ∈ evolve nonFull full ∧
      nonFull.Guarded ∧ full.Guarded ∧ (∀ h ∈ nonFull.head, ∃ e ∈ nonFull.existentials, h.mentions e = true) ∧
      t.Guarded ∧ t.existentials ⊆ nonFull.existentials ∧
      ∃ result, saturate {} Dependency.chained = .ok result ∧ result.stats.unguardedResolvents = 0 := by
  obtain ⟨runs, evolved⟩ := unguardedResolvents_eq_zero
  let nonFull : Tgd := .ofLists [⟨"p", [.var "u0"]⟩] [⟨"q", [.var "u0", .var "e0"]⟩]
  let full : Tgd := .ofLists [⟨"q", [.var "u0", .var "u1"]⟩] [⟨"r", [.var "u0"]⟩]
  have guarded : nonFull.Guarded := Tgd.guard?_isSome.mp (by decide +kernel)
  have guarded' : full.Guarded := Tgd.guard?_isSome.mp (by decide +kernel)
  have inventive : ∀ h ∈ nonFull.head, ∃ e ∈ nonFull.existentials, h.mentions e = true := by
    intro h member
    obtain rfl : h = ⟨"q", [.var "u0", .var "e0"]⟩ := by simpa [nonFull, Tgd.ofLists] using member
    exact ⟨"e0", by decide +kernel, by decide +kernel⟩
  have member : .ofLists [⟨"p", [.var "u0"]⟩] [⟨"q", [.var "u0", .var "e0"]⟩, ⟨"r", [.var "u0"]⟩] ∈ evolve nonFull full := by
    decide +kernel
  obtain ⟨kept, -, existentials⟩ := evolved nonFull full (by decide +kernel) (by decide +kernel) guarded guarded'
    (by decide +kernel) inventive _ member
  exact ⟨nonFull, full, _, rfl, rfl, rfl, member, guarded, guarded', inventive, kept, existentials,
    (runs {} Dependency.chained checkAll_chained).2⟩

end GuardedSaturation
