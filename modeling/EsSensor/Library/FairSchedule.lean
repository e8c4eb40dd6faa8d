import EsSensor.Library.GuardedRun

/-!
Endless schedules of a program's actions. Where some kind of action always makes
progress, and the others do not undo it, a schedule that takes actions of every
kind again and again reaches its goal.
-/
namespace EsSensor.FairSchedule

open GuardedRun

variable {σ α κ : Type}

/-- The state after the first n actions of a schedule. -/
def after (act : α → σ → Option σ) (schedule : ℕ → α) (s : σ) (n : ℕ) : Option σ :=
  run act ((List.range n).map schedule) s

/-- Actions of every kind are taken again and again. -/
def Fair (kind : α → κ) (schedule : ℕ → α) : Prop :=
  ∀ k n, ∃ m, n ≤ m ∧ kind (schedule m) = k

/-- Until the goal, no action goes back, and one kind of action goes on. -/
structure Progress (act : α → σ → Option σ) (kind : α → κ) (Inv Goal : σ → Prop)
    (closer : σ → σ → Prop) : Prop where
  wf : WellFounded closer
  step : ∀ s a, Inv s → ¬ Goal s →
    ∃ s', act a s = some s' ∧ Inv s' ∧ (s' = s ∨ closer s' s)
  helpful : ∀ s, Inv s → ¬ Goal s → ∃ k, ∀ a, kind a = k → act a s ≠ some s

variable {act : α → σ → Option σ} {schedule : ℕ → α} {s s' : σ} {n : ℕ}

@[simp] theorem after_zero : after act schedule s 0 = some s := rfl

theorem after_succ : after act schedule s (n + 1) =
    (after act schedule s n).bind (act (schedule n)) := by
  rw [after, List.range_succ, List.map_append, run_append]
  congr 1
  funext t
  exact Option.bind_fun_some (act (schedule n) t)

/-- What every action keeps holds throughout a schedule. -/
theorem after_inv {Inv : σ → Prop} (hact : ∀ a s s', Inv s → act a s = some s' → Inv s')
    (hs : Inv s) (hafter : after act schedule s n = some s') : Inv s' :=
  inv_of_run hact hs hafter

theorem Progress.reaches {kind : α → κ} {Inv Goal : σ → Prop} {closer : σ → σ → Prop}
    (h : Progress act kind Inv Goal closer) (hfair : Fair kind schedule) {s₀ : σ}
    (hs : Inv s) (hafter : after act schedule s₀ n = some s) :
    ∃ m s', after act schedule s₀ m = some s' ∧ Goal s' := by
  induction s using h.wf.induction generalizing n with
  | _ s ih =>
    by_cases hgoal : Goal s
    · exact ⟨n, s, hafter, hgoal⟩
    obtain ⟨k, hhelpful⟩ := h.helpful s hs hgoal
    obtain ⟨m, hnm, hkind⟩ := hfair k n
    obtain ⟨d, rfl⟩ := Nat.exists_eq_add_of_le hnm
    clear hnm
    -- until the helpful action is taken, the others progress or leave the state
    induction d generalizing n with
    | zero =>
      obtain ⟨s', hact, hs', hstay | hcloser⟩ := h.step s (schedule n) hs hgoal
      · exact absurd (hstay ▸ hact) (hhelpful _ hkind)
      · have hnext : after act schedule s₀ (n + 1) = some s' := by
          rw [after_succ, hafter, Option.bind_some, hact]
        exact ih s' hcloser hs' hnext
    | succ d ihd =>
      obtain ⟨s', hact, hs', hstay | hcloser⟩ := h.step s (schedule n) hs hgoal
      · subst hstay
        have hnext : after act schedule s₀ (n + 1) = some s' := by
          rw [after_succ, hafter, Option.bind_some, hact]
        exact ihd hnext (by rw [Nat.add_right_comm, Nat.add_assoc]; exact hkind)
      · have hnext : after act schedule s₀ (n + 1) = some s' := by
          rw [after_succ, hafter, Option.bind_some, hact]
        exact ih s' hcloser hs' hnext

end EsSensor.FairSchedule
