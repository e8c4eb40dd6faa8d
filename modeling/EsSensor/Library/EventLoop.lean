import EsSensor.Library.CheckedLoop

/-!
A loop that waits for one event in each round, and goes on or returns. Where the
event alone decides which, the loop ends exactly if such an event ever comes.
-/
namespace EsSensor.EventLoop

open CheckedLoop

variable {σ ε ρ : Type}

inductive Outcome (σ ρ : Type)
  | goOn (s : σ)
  | done (r : ρ)

/-- From event number `i` on; given up after `fuel` rounds. -/
def loop (round : σ → ε → Except Fault (Outcome σ ρ)) (events : ℕ → ε) :
    ℕ → ℕ → σ → Except Fault ρ
  | 0, _, _ => .error .outOfFuel
  | fuel + 1, i, s => do
    match ← round s (events i) with
    | .goOn s' => loop round events fuel (i + 1) s'
    | .done r => .ok r

/-- The loop returns, if it is given time enough. -/
def Ends (round : σ → ε → Except Fault (Outcome σ ρ)) (events : ℕ → ε) (s : σ) : Prop :=
  ∃ fuel r, loop round events fuel 0 s = .ok r

variable {round : σ → ε → Except Fault (Outcome σ ρ)} {events : ℕ → ε}

theorem loop_goOn {s s' : σ} {i : ℕ} (hround : round s (events i) = .ok (.goOn s')) (fuel : ℕ) :
    loop round events (fuel + 1) i s = loop round events fuel (i + 1) s' := by
  rw [loop, hround]
  rfl

theorem loop_done {s : σ} {i : ℕ} {r : ρ} (hround : round s (events i) = .ok (.done r))
    (fuel : ℕ) : loop round events (fuel + 1) i s = .ok r := by
  rw [loop, hround]
  rfl

/-- What a returned value has been through: rounds that went on, and one that
did not. -/
theorem loop_inv (Inv : σ → Prop) {Post : ρ → Prop}
    (hgoOn : ∀ s e s', Inv s → round s e = .ok (.goOn s') → Inv s')
    (hdone : ∀ s e r, Inv s → round s e = .ok (.done r) → Post r)
    {fuel i : ℕ} {s : σ} {r : ρ} (hs : Inv s) (hrun : loop round events fuel i s = .ok r) :
    Post r := by
  induction fuel generalizing i s with
  | zero => exact absurd hrun (by simp [loop])
  | succ fuel ih =>
    obtain ⟨outcome, hround, hrest⟩ := bind_eq_ok.mp hrun
    cases outcome with
    | goOn s' => exact ih (hgoOn s _ s' hs hround) hrest
    | done r' =>
      obtain rfl := Except.ok.inj hrest
      exact hdone s _ r' hs hround

/-- The events decide when the loop is left, and the state does not. -/
structure Decides (round : σ → ε → Except Fault (Outcome σ ρ)) (Inv : σ → Prop)
    (Last : ε → Prop) : Prop where
  done : ∀ s e, Inv s → Last e → ∃ r, round s e = .ok (.done r)
  goOn : ∀ s e, Inv s → ¬ Last e → ∃ s', round s e = .ok (.goOn s') ∧ Inv s'

theorem ends_iff {Inv : σ → Prop} {Last : ε → Prop} (h : Decides round Inv Last) {s : σ}
    (hs : Inv s) : Ends round events s ↔ ∃ i, Last (events i) := by
  constructor
  · rintro ⟨fuel, r, hrun⟩
    by_contra hnever
    have hnone : ∀ fuel i s, Inv s → loop round events fuel i s = .error .outOfFuel := by
      intro fuel
      induction fuel with
      | zero => exact fun _ _ _ => rfl
      | succ fuel ih =>
        intro i s hs
        obtain ⟨s', hround, hs'⟩ := h.goOn s (events i) hs (fun hlast => hnever ⟨i, hlast⟩)
        rw [loop_goOn hround, ih (i + 1) s' hs']
    rw [hnone fuel 0 s hs] at hrun
    cases hrun
  · rintro ⟨i, hlast⟩
    have hreturns : ∀ k j s, Inv s → Last (events (j + k)) →
        ∃ r, loop round events (k + 1) j s = .ok r := by
      intro k
      induction k with
      | zero =>
        intro j s hs hlast
        obtain ⟨r, hround⟩ := h.done s _ hs hlast
        exact ⟨r, loop_done hround 0⟩
      | succ k ih =>
        intro j s hs hlast
        by_cases hnow : Last (events j)
        · obtain ⟨r, hround⟩ := h.done s _ hs hnow
          exact ⟨r, loop_done hround _⟩
        · obtain ⟨s', hround, hs'⟩ := h.goOn s _ hs hnow
          rw [loop_goOn hround]
          exact ih (j + 1) s' hs' (by rwa [Nat.add_right_comm, Nat.add_assoc])
    obtain ⟨r, hrun⟩ := hreturns i 0 s hs (by rwa [Nat.zero_add])
    exact ⟨i + 1, r, hrun⟩

end EsSensor.EventLoop
