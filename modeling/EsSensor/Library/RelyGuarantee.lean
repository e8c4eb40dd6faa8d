import EsSensor.Library.GuardedRun

/-!
Two threads on one shared state, each with what it knows locally. A step of one
thread keeps the shared invariant, says what it leaves alone, and what the other
knows must survive that.
-/
namespace EsSensor.RelyGuarantee

/-- What the threads share, and where each of them is. -/
structure System (σ α β : Type) where
  shared : σ
  left : α
  right : β

variable {σ γ α β ι κ : Type}

/-- A step of the thread on its side of the schedule. A step without a result is
undefined behaviour or a failed assertion. -/
def act (stepLeft : ι → α → σ → Option (α × σ)) (stepRight : κ → β → σ → Option (β × σ)) :
    ι ⊕ κ → System σ α β → Option (System σ α β)
  | .inl i, s => (stepLeft i s.left s.shared).map
      (fun r => { s with left := r.1, shared := r.2 })
  | .inr k, s => (stepRight k s.right s.shared).map
      (fun r => { s with right := r.1, shared := r.2 })

/-- Every step of a thread that starts from what it knows succeeds, and leaves
the invariant, what the thread knows then, and its promise to the other one. -/
def Sound {π : Type} (step : ι → π → σ → Option (π × σ)) (Inv : σ → γ → Prop)
    (Knows : γ → π → Prop) (Keeps : γ → γ → Prop) : Prop :=
  ∀ i p s g, Inv s g → Knows g p →
    ∃ p' s' g', step i p s = some (p', s') ∧ Inv s' g' ∧ Knows g' p' ∧ Keeps g g'

/-- What a thread knows survives the steps of the other one. -/
def Stable {π : Type} (Inv : σ → γ → Prop) (Knows : γ → π → Prop) (Keeps : γ → γ → Prop) : Prop :=
  ∀ p s g g', Inv s g → Knows g p → Keeps g g' → Knows g' p

/-- The invariant and what both threads know, for some ghost state. -/
def Holds (Inv : σ → γ → Prop) (KnowsLeft : γ → α → Prop) (KnowsRight : γ → β → Prop)
    (s : System σ α β) : Prop :=
  ∃ g, Inv s.shared g ∧ KnowsLeft g s.left ∧ KnowsRight g s.right

variable {stepLeft : ι → α → σ → Option (α × σ)} {stepRight : κ → β → σ → Option (β × σ)}
  {Inv : σ → γ → Prop} {KnowsLeft : γ → α → Prop} {KnowsRight : γ → β → Prop}
  {KeepsLeft KeepsRight : γ → γ → Prop}

theorem holds_act (hleft : Sound stepLeft Inv KnowsLeft KeepsLeft)
    (hright : Sound stepRight Inv KnowsRight KeepsRight)
    (hstableLeft : Stable Inv KnowsLeft KeepsRight)
    (hstableRight : Stable Inv KnowsRight KeepsLeft)
    {s : System σ α β} (hs : Holds Inv KnowsLeft KnowsRight s) (a : ι ⊕ κ) :
    ∃ s', act stepLeft stepRight a s = some s' ∧ Holds Inv KnowsLeft KnowsRight s' := by
  obtain ⟨g, hinv, hl, hr⟩ := hs
  cases a with
  | inl i =>
    obtain ⟨p', s', g', hstep, hinv', hl', hkeeps⟩ := hleft i s.left s.shared g hinv hl
    refine ⟨{ s with left := p', shared := s' }, by simp [act, hstep], g', hinv', hl', ?_⟩
    exact hstableRight s.right s.shared g g' hinv hr hkeeps
  | inr k =>
    obtain ⟨p', s', g', hstep, hinv', hr', hkeeps⟩ := hright k s.right s.shared g hinv hr
    refine ⟨{ s with right := p', shared := s' }, by simp [act, hstep], g', hinv', ?_, hr'⟩
    exact hstableLeft s.left s.shared g g' hinv hl hkeeps

/-- In every interleaving no step fails, and the invariant holds at the end. -/
theorem holds_run (hleft : Sound stepLeft Inv KnowsLeft KeepsLeft)
    (hright : Sound stepRight Inv KnowsRight KeepsRight)
    (hstableLeft : Stable Inv KnowsLeft KeepsRight)
    (hstableRight : Stable Inv KnowsRight KeepsLeft)
    {s : System σ α β} (hs : Holds Inv KnowsLeft KnowsRight s) (schedule : List (ι ⊕ κ)) :
    ∃ s', GuardedRun.run (act stepLeft stepRight) schedule s = some s' ∧
      Holds Inv KnowsLeft KnowsRight s' := by
  induction schedule generalizing s with
  | nil => exact ⟨s, rfl, hs⟩
  | cons a schedule ih =>
    obtain ⟨t, hact, ht⟩ := holds_act hleft hright hstableLeft hstableRight hs a
    obtain ⟨s', hrun, hs'⟩ := ih ht
    exact ⟨s', by rw [GuardedRun.run_cons, hact, Option.bind_some, hrun], hs'⟩

end EsSensor.RelyGuarantee
