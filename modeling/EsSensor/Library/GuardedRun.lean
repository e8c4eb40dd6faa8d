import Mathlib.Data.List.Infix
import Mathlib.Data.Nat.Notation
import Mathlib.Tactic.Common

/-!
Runs of a program that may end at any action. A property of every state of a
run is traced back to a guard on single actions.
-/
namespace EsSensor.GuardedRun

variable {σ α : Type}

/-- The actions in order; `none` when one of them ends the program. -/
def run (act : α → σ → Option σ) : List α → σ → Option σ
  | [], s => some s
  | a :: rest, s => (act a s).bind (run act rest)

@[simp] theorem run_nil (act : α → σ → Option σ) (s : σ) : run act [] s = some s := rfl

@[simp] theorem run_cons (act : α → σ → Option σ) (a : α) (rest : List α) (s : σ) :
    run act (a :: rest) s = (act a s).bind (run act rest) := rfl

theorem run_append (act : α → σ → Option σ) (xs ys : List α) (s : σ) :
    run act (xs ++ ys) s = (run act xs s).bind (run act ys) := by
  induction xs generalizing s with
  | nil => rfl
  | cons x xs ih =>
    simp only [List.cons_append, run_cons, Option.bind_assoc]
    congr 1
    funext t
    exact ih t

/-- The property holds in every state that the actions pass through. -/
def Along (act : α → σ → Option σ) (P : σ → Prop) (s : σ) (actions : List α) : Prop :=
  ∀ done, done <+: actions → ∀ s', run act done s = some s' → P s'

/-- Every action that is completed meets the guard in the state it is done in. -/
def Meets (act : α → σ → Option σ) (Guard : α → σ → Prop) (s : σ) (actions : List α) : Prop :=
  ∀ done a, done ++ [a] <+: actions → ∀ s' s'', run act done s = some s' →
    act a s' = some s'' → Guard a s'

variable {act : α → σ → Option σ}

theorem along_cons {P : σ → Prop} {s : σ} {a : α} {rest : List α} :
    Along act P s (a :: rest) ↔ P s ∧ ∀ s', act a s = some s' → Along act P s' rest := by
  constructor
  · intro h
    refine ⟨h [] (List.nil_prefix) s rfl, ?_⟩
    intro s' hact done hdone t hrun
    exact h (a :: done) (List.cons_prefix_cons.mpr ⟨rfl, hdone⟩) t (by simp [hact, hrun])
  · intro ⟨hs, hrest⟩ done hdone t hrun
    cases done with
    | nil =>
      obtain rfl := Option.some.inj hrun
      exact hs
    | cons b done =>
      obtain ⟨rfl, hafter⟩ := List.cons_prefix_cons.mp hdone
      obtain ⟨s', hact, hrun⟩ := Option.bind_eq_some_iff.mp hrun
      exact hrest s' hact done hafter t hrun

theorem meets_cons {Guard : α → σ → Prop} {s : σ} {a : α} {rest : List α} :
    Meets act Guard s (a :: rest) ↔
      ∀ s', act a s = some s' → Guard a s ∧ Meets act Guard s' rest := by
  constructor
  · intro h s' hact
    refine ⟨h [] a (by simp) s s' rfl hact, ?_⟩
    intro done b hdone t t' hrun
    exact h (a :: done) b (List.cons_prefix_cons.mpr ⟨rfl, hdone⟩) t t' (by simp [hact, hrun])
  · intro h done b hdone t t' hrun hact
    cases done with
    | nil =>
      obtain rfl := Option.some.inj hrun
      obtain ⟨rfl, _⟩ := List.cons_prefix_cons.mp hdone
      exact (h t' hact).1
    | cons c done =>
      obtain ⟨rfl, hafter⟩ := List.cons_prefix_cons.mp hdone
      obtain ⟨s', hfirst, hrun⟩ := Option.bind_eq_some_iff.mp hrun
      exact (h s' hfirst).2 done b hafter t t' hrun hact

theorem meets_nil (Guard : α → σ → Prop) (s : σ) : Meets act Guard s [] := by
  intro done a hdone
  simp at hdone

/-- Whether a run meets its guards can be computed. -/
instance decidableMeets {Guard : α → σ → Prop} [∀ a s, Decidable (Guard a s)] :
    ∀ (s : σ) (actions : List α), Decidable (Meets act Guard s actions)
  | s, [] => isTrue (meets_nil Guard s)
  | s, a :: rest =>
    match hact : act a s with
    | none => isTrue (meets_cons.mpr fun s' h => absurd (hact.symm.trans h) (by simp))
    | some s' =>
      have := @decidableMeets Guard _ s' rest
      decidable_of_iff (Guard a s ∧ Meets act Guard s' rest) (by simp [meets_cons, hact])

/-- Where each action keeps the property exactly when it meets its guard, the
property holds along a run exactly when all its actions do. -/
theorem along_iff_meets {Inv P : σ → Prop} {Guard : α → σ → Prop} {actions : List α}
    (hact : ∀ a ∈ actions, ∀ s s', Inv s → P s → act a s = some s' →
      Inv s' ∧ (P s' ↔ Guard a s))
    {s : σ} (hinv : Inv s) (hs : P s) :
    Along act P s actions ↔ Meets act Guard s actions := by
  induction actions generalizing s with
  | nil =>
    constructor
    · intro _ done a hdone
      simp at hdone
    · intro _ done hdone t hrun
      obtain rfl := List.prefix_nil.mp hdone
      obtain rfl := Option.some.inj hrun
      exact hs
  | cons a rest ih =>
    rw [along_cons, meets_cons]
    have hrest := fun b hb => hact b (List.mem_cons_of_mem a hb)
    constructor
    · intro ⟨_, hall⟩ s' hstep
      obtain ⟨hinv', hiff⟩ := hact a List.mem_cons_self s s' hinv hs hstep
      have hs' : P s' := hall s' hstep [] List.nil_prefix s' rfl
      exact ⟨hiff.mp hs', (ih hrest hinv' hs').mp (hall s' hstep)⟩
    · intro hall
      refine ⟨hs, ?_⟩
      intro s' hstep
      obtain ⟨hinv', hiff⟩ := hact a List.mem_cons_self s s' hinv hs hstep
      obtain ⟨hguard, hmeets⟩ := hall s' hstep
      exact (ih hrest hinv' (hiff.mpr hguard)).mpr hmeets

/-- What every action keeps holds at the end of a run. -/
theorem inv_of_run {Inv : σ → Prop} (hact : ∀ a s s', Inv s → act a s = some s' → Inv s')
    {actions : List α} {s s' : σ} (hinv : Inv s) (hrun : run act actions s = some s') : Inv s' := by
  induction actions generalizing s with
  | nil =>
    obtain rfl := Option.some.inj hrun
    exact hinv
  | cons a rest ih =>
    obtain ⟨t, hstep, hrest⟩ := Option.bind_eq_some_iff.mp hrun
    exact ih (hact a s t hinv hstep) hrest

/-- An invariant that guarded actions keep holds at the end of a guarded run. -/
theorem inv_of_meets {Inv : σ → Prop} {Guard : α → σ → Prop} {actions : List α}
    (hact : ∀ a ∈ actions, ∀ s s', Inv s → act a s = some s' → Guard a s → Inv s')
    {s s' : σ} (hinv : Inv s) (hmeets : Meets act Guard s actions)
    (hrun : run act actions s = some s') : Inv s' := by
  induction actions generalizing s with
  | nil =>
    obtain rfl := Option.some.inj hrun
    exact hinv
  | cons a rest ih =>
    obtain ⟨t, hstep, hrest⟩ := Option.bind_eq_some_iff.mp hrun
    obtain ⟨hguard, hmeets'⟩ := meets_cons.mp hmeets t hstep
    have hkept := hact a List.mem_cons_self s t hinv hstep hguard
    exact ih (fun b hb => hact b (List.mem_cons_of_mem a hb)) hkept hmeets' hrest

theorem Meets.of_prefix {Guard : α → σ → Prop} {s : σ} {xs actions : List α}
    (hmeets : Meets act Guard s actions) (hxs : xs <+: actions) : Meets act Guard s xs :=
  fun done a hdone => hmeets done a (hdone.trans hxs)

theorem Meets.after {Guard : α → σ → Prop} {s t : σ} {xs ys : List α}
    (hmeets : Meets act Guard s (xs ++ ys)) (hrun : run act xs s = some t) :
    Meets act Guard t ys := by
  intro done a hdone s' s'' hrun' hact
  refine hmeets (xs ++ done) a ?_ s' s'' ?_ hact
  · rw [List.append_assoc]
    exact (List.prefix_append_right_inj xs).mpr hdone
  · rw [run_append, hrun, Option.bind_some, hrun']

/-- Where no state decides whether an action is completed, neither does the order. -/
theorem run_isSome_iff (hact : ∀ a s t, (act a s).isSome = (act a t).isSome)
    (actions : List α) (s : σ) :
    (run act actions s).isSome ↔ ∀ a ∈ actions, (act a s).isSome := by
  induction actions generalizing s with
  | nil => simp
  | cons a rest ih =>
    rw [run_cons, List.forall_mem_cons]
    cases hstep : act a s with
    | none => simp
    | some s' =>
      rw [Option.bind_some, ih s']
      simp only [hact _ s' s, Option.isSome_some, true_and]

/-- What every one of the actions leaves alone is not changed by the run. -/
theorem run_keeps {β : Type} {view : σ → β} {actions : List α}
    (hact : ∀ a ∈ actions, ∀ s s', act a s = some s' → view s' = view s)
    {s s' : σ} (hrun : run act actions s = some s') : view s' = view s := by
  induction actions generalizing s with
  | nil =>
    obtain rfl := Option.some.inj hrun
    rfl
  | cons a rest ih =>
    obtain ⟨t, hstep, hrest⟩ := Option.bind_eq_some_iff.mp hrun
    have htail := ih (fun b hb => hact b (List.mem_cons_of_mem a hb)) hrest
    rw [htail, hact a List.mem_cons_self s t hstep]

/-- Where no action raises the rank, and an own one lowers it, enough own actions
come by rank zero. -/
theorem exists_rank_zero (rank : σ → ℕ) (own : α → Bool)
    (hact : ∀ a s s', act a s = some s' → rank s ≠ 0 →
      rank s' ≤ rank s ∧ (own a = true → rank s' < rank s))
    {actions : List α} {s t : σ} (hrun : run act actions s = some t)
    (hown : rank s ≤ (actions.filter own).length) :
    ∃ done, done <+: actions ∧ ∃ s', run act done s = some s' ∧ rank s' = 0 := by
  induction actions generalizing s with
  | nil => exact ⟨[], List.nil_prefix, s, rfl, Nat.le_zero.mp hown⟩
  | cons a rest ih =>
    by_cases hzero : rank s = 0
    · exact ⟨[], List.nil_prefix, s, rfl, hzero⟩
    obtain ⟨s', hstep, hrest⟩ := Option.bind_eq_some_iff.mp hrun
    obtain ⟨hle, hlt⟩ := hact a s s' hstep hzero
    have hown' : rank s' ≤ (rest.filter own).length := by
      by_cases ha : own a = true
      · rw [List.filter_cons_of_pos ha, List.length_cons] at hown
        have := hlt ha
        omega
      · rw [List.filter_cons_of_neg ha] at hown
        exact hle.trans hown
    obtain ⟨done, hdone, u, hu, hrank⟩ := ih hrest hown'
    refine ⟨a :: done, List.cons_prefix_cons.mpr ⟨rfl, hdone⟩, u, ?_, hrank⟩
    rw [run_cons, hstep, Option.bind_some, hu]

end EsSensor.GuardedRun
