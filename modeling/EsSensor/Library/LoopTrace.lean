import EsSensor.Library.CheckedLoop

/-!
The completed iterations of a loop that talks to its surroundings. Each one is
recorded with the state at its head, what it was given and what it produced, so
that a condition on single iterations can be asked of a whole run.
-/
namespace EsSensor.LoopTrace

open CheckedLoop

variable {σ α ω : Type}

structure Visit (σ α ω : Type) where
  state : σ
  input : α
  output : ω

/-- `while (go) step`; an iteration that throws ends the run unrecorded. -/
def visits (go : σ → Bool) (step : σ → α → Except Fault (σ × ω)) :
    σ → List α → List (Visit σ α ω)
  | _, [] => []
  | s, a :: rest =>
    if go s then
      match step s a with
      | .error _ => []
      | .ok (s', o) => ⟨s, a, o⟩ :: visits go step s' rest
    else []

variable {go : σ → Bool} {step : σ → α → Except Fault (σ × ω)}

theorem visits_cons_of_ok {s s' : σ} {a : α} {o : ω} (hgo : go s = true)
    (hstep : step s a = .ok (s', o)) (rest : List α) :
    visits go step s (a :: rest) = ⟨s, a, o⟩ :: visits go step s' rest := by
  simp [visits, hgo, hstep]

/-- The first iteration was completed, and the others are those of the next state. -/
theorem mem_visits_cons {s : σ} {a : α} {rest : List α} {v : Visit σ α ω}
    (hv : v ∈ visits go step s (a :: rest)) :
    ∃ s' o, step s a = .ok (s', o) ∧ ⟨s, a, o⟩ ∈ visits go step s (a :: rest) ∧
      (v = ⟨s, a, o⟩ ∨ v ∈ visits go step s' rest) ∧
      visits go step s' rest ⊆ visits go step s (a :: rest) := by
  cases hgo : go s with
  | false => simp [visits, hgo] at hv
  | true =>
    cases hstep : step s a with
    | error e => simp [visits, hgo, hstep] at hv
    | ok result =>
      obtain ⟨s', o⟩ := result
      have hcons := visits_cons_of_ok hgo hstep rest
      rw [hcons] at hv ⊢
      exact ⟨s', o, rfl, List.mem_cons_self, List.mem_cons.mp hv, List.subset_cons_self _ _⟩

theorem input_mem_of_mem_visits {s : σ} {inputs : List α} {v : Visit σ α ω}
    (hv : v ∈ visits go step s inputs) : v.input ∈ inputs := by
  induction inputs generalizing s with
  | nil => simp [visits] at hv
  | cons a rest ih =>
    obtain ⟨s', o, _, _, rfl | hlater, _⟩ := mem_visits_cons hv
    · exact List.mem_cons_self
    · exact List.mem_cons_of_mem a (ih hlater)

/-- A loop that no input stops goes through all of them. -/
theorem visits_complete (Inv : σ → Prop) (Goes : α → Prop)
    (hkeep : ∀ s a, Inv s → Goes a → ∃ s' o, step s a = .ok (s', o) ∧ Inv s' ∧ go s' = go s)
    {s : σ} (hs : Inv s) (hgo : go s = true) (inputs : List α) (hinputs : ∀ a ∈ inputs, Goes a) :
    (visits go step s inputs).map Visit.input = inputs := by
  induction inputs generalizing s with
  | nil => rfl
  | cons a rest ih =>
    obtain ⟨ha, hrest⟩ := List.forall_mem_cons.mp hinputs
    obtain ⟨s', o, hstep, hs', hsame⟩ := hkeep s a hs ha
    rw [visits_cons_of_ok hgo hstep rest, List.map_cons, ih hs' (hsame.trans hgo) hrest]

/-- An invariant that iterations keep when they meet a condition holds at the
head of every iteration of a run whose iterations all meet it. -/
theorem visits_inv (Inv : σ → Prop) (Meets : Visit σ α ω → Prop)
    (hkeep : ∀ s a s' o, Inv s → step s a = .ok (s', o) → Meets ⟨s, a, o⟩ → Inv s')
    {s : σ} (hs : Inv s) (inputs : List α)
    (hmeets : ∀ v ∈ visits go step s inputs, Meets v) :
    ∀ v ∈ visits go step s inputs, Inv v.state ∧ Meets v ∧
      ∃ s', step v.state v.input = .ok (s', v.output) := by
  induction inputs generalizing s with
  | nil => simp [visits]
  | cons a rest ih =>
    intro v hv
    obtain ⟨s', o, hstep, hfirst, hcase, hrest⟩ := mem_visits_cons hv
    have hkept := hkeep s a s' o hs hstep (hmeets _ hfirst)
    rcases hcase with rfl | hlater
    · exact ⟨hs, hmeets _ hfirst, s', hstep⟩
    · exact ih hkept (fun v hv => hmeets v (hrest hv)) v hlater

/-- Two conditions on iterations that say the same where the invariant holds say
the same of a whole run, if the second one keeps the invariant. -/
theorem visits_forall_iff (Inv : σ → Prop) {P Q : Visit σ α ω → Prop}
    (hiff : ∀ s a s' o, Inv s → step s a = .ok (s', o) → (P ⟨s, a, o⟩ ↔ Q ⟨s, a, o⟩))
    (hkeep : ∀ s a s' o, Inv s → step s a = .ok (s', o) → Q ⟨s, a, o⟩ → Inv s')
    {s : σ} (hs : Inv s) (inputs : List α) :
    (∀ v ∈ visits go step s inputs, P v) ↔ ∀ v ∈ visits go step s inputs, Q v := by
  induction inputs generalizing s with
  | nil => simp [visits]
  | cons a rest ih =>
    cases hgo : go s with
    | false => simp [visits, hgo]
    | true =>
      cases hstep : step s a with
      | error e => simp [visits, hgo, hstep]
      | ok result =>
        obtain ⟨s', o⟩ := result
        have hfirst := hiff s a s' o hs hstep
        rw [visits_cons_of_ok hgo hstep rest, List.forall_mem_cons, List.forall_mem_cons, hfirst]
        constructor
        · rintro ⟨hq, hrest⟩
          exact ⟨hq, (ih (hkeep s a s' o hs hstep hq)).mp hrest⟩
        · rintro ⟨hq, hrest⟩
          exact ⟨hq, (ih (hkeep s a s' o hs hstep hq)).mpr hrest⟩

end EsSensor.LoopTrace
