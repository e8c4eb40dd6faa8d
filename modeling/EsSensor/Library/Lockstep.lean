import EsSensor.Library.StreamMachine

/-!
Two programs that go through the same motions on different representations of
their state. A relation that every step keeps makes them fail alike and return
related values, through loops and over whole streams.
-/
namespace EsSensor.Lockstep

open CheckedLoop StreamMachine

universe u v

variable {σ τ α β : Type u} {γ : Type v}

/-- The same fault on both sides, or related values. -/
def Alike (R : σ → τ → Prop) : Except Fault σ → Except Fault τ → Prop
  | .ok s, .ok t => R s t
  | .error e, .error e' => e = e'
  | _, _ => False

@[simp] theorem alike_ok {R : σ → τ → Prop} {s : σ} {t : τ} :
    Alike R (.ok s) (.ok t) ↔ R s t := Iff.rfl

theorem Alike.bind {R : σ → τ → Prop} {Q : α → β → Prop} {x : Except Fault σ}
    {y : Except Fault τ} {f : σ → Except Fault α} {g : τ → Except Fault β}
    (hxy : Alike R x y) (hfg : ∀ s t, R s t → Alike Q (f s) (g t)) :
    Alike Q (x >>= f) (y >>= g) := by
  cases x with
  | error e =>
    cases y with
    | error e' => exact hxy
    | ok t => exact hxy.elim
  | ok s =>
    cases y with
    | error e' => exact hxy.elim
    | ok t => exact hfg s t hxy

/-- What the second program returns tells what the first one does. -/
theorem Alike.of_right {R : σ → τ → Prop} {x : Except Fault σ} {t : τ}
    (h : Alike R x (.ok t)) : ∃ s, x = .ok s ∧ R s t := by
  cases x with
  | error e => exact h.elim
  | ok s => exact ⟨s, rfl, h⟩

/-- Both loops take the same rounds, and are left when the condition fails. -/
theorem alike_whileLoop {R : σ → τ → Prop} {cond : σ → Bool} {cond' : τ → Bool}
    {body : σ → Except Fault σ} {body' : τ → Except Fault τ}
    (hcond : ∀ s t, R s t → cond s = cond' t)
    (hbody : ∀ s t, R s t → cond s = true → Alike R (body s) (body' t))
    (fuel : ℕ) {s : σ} {t : τ} (hst : R s t) :
    Alike (fun s t => R s t ∧ cond s = false) (whileLoop cond body fuel s)
      (whileLoop cond' body' fuel t) := by
  induction fuel generalizing s t with
  | zero =>
    cases hc : cond s with
    | true => simp [whileLoop, hc, ← hcond s t hst, Alike]
    | false => simpa [whileLoop, hc, ← hcond s t hst] using hst
  | succ fuel ih =>
    cases hc : cond s with
    | true =>
      simp only [whileLoop, hc, ← hcond s t hst, if_true]
      exact (hbody s t hst hc).bind fun s' t' hst' => ih hst'
    | false => simpa [whileLoop, hc, ← hcond s t hst] using hst

section Streams

variable {step : σ → γ → Except Fault (σ × List α)} {step' : τ → γ → Except Fault (τ × List α)}

/-- Related states that have emitted the same. -/
def SameOutput {ω : Type u} (R : σ → τ → Prop) (p : σ × ω) (q : τ × ω) : Prop :=
  R p.1 q.1 ∧ p.2 = q.2

theorem alike_run {R : σ → τ → Prop}
    (hstep : ∀ s t x, R s t → Alike (SameOutput R) (step s x) (step' t x))
    (xs : List γ) {s : σ} {t : τ} (hst : R s t) :
    Alike (SameOutput R) (run step s xs) (run step' t xs) := by
  induction xs generalizing s t with
  | nil => exact ⟨hst, rfl⟩
  | cons x xs ih =>
    refine (hstep s t x hst).bind fun p q hpq => ?_
    refine (ih hpq.1).bind fun p' q' hpq' => ?_
    exact ⟨hpq'.1, by rw [hpq.2, hpq'.2]⟩

theorem alike_runCalls {R : σ → τ → Prop}
    (hstep : ∀ s t x, R s t → Alike (SameOutput R) (step s x) (step' t x))
    (calls : List (List γ)) {s : σ} {t : τ} (hst : R s t) :
    Alike (SameOutput R) (runCalls step s calls) (runCalls step' t calls) := by
  induction calls generalizing s t with
  | nil => exact ⟨hst, rfl⟩
  | cons call calls ih =>
    refine (alike_run hstep call hst).bind fun p q hpq => ?_
    refine (ih hpq.1).bind fun p' q' hpq' => ?_
    exact ⟨hpq'.1, by rw [hpq.2, hpq'.2]⟩

end Streams

end EsSensor.Lockstep
