import Mathlib.Data.List.Forall2
import Mathlib.Data.Nat.Notation
import Mathlib.Tactic.Common

/-!
Loops and array accesses of an imperative program, with their failures kept.
A computation ends in a value or in a fault; a loop that still runs when its
fuel is spent ends in `outOfFuel`, which is the only fault that more fuel can
remove. Nothing here depends on the program that is modelled.
-/
namespace EsSensor.CheckedLoop

/-- Why a computation has no value. `thrown` keeps the text of the exception. A float that
is infinite or no number ends no program, but is not followed any further. -/
inductive Fault
  | outOfRange
  | outOfFuel
  | divByZero
  | notFinite
  | thrown (what : String)
  deriving DecidableEq, Repr

universe u

variable {α β σ : Type u}

@[simp] theorem ok_bind (a : α) (f : α → Except Fault β) :
    ((Except.ok a : Except Fault α) >>= f) = f a := rfl

@[simp] theorem error_bind (e : Fault) (f : α → Except Fault β) :
    ((Except.error e : Except Fault α) >>= f) = Except.error e := rfl

theorem bind_eq_ok {x : Except Fault α} {f : α → Except Fault β} {b : β} :
    (x >>= f) = .ok b ↔ ∃ a, x = .ok a ∧ f a = .ok b := by
  cases x with
  | error e => simp
  | ok a => simp

def readAt (xs : List α) (i : ℕ) : Except Fault α :=
  match xs[i]? with
  | some x => .ok x
  | none => .error .outOfRange

def writeAt (xs : List α) (i : ℕ) (x : α) : Except Fault (List α) :=
  if i < xs.length then .ok (xs.set i x) else .error .outOfRange

/-- Write consecutive cells from index `i`. -/
def storeAt (xs : List α) (i : ℕ) (ys : List α) : Except Fault (List α) :=
  if i + ys.length ≤ xs.length then .ok (xs.take i ++ ys ++ xs.drop (i + ys.length))
  else .error .outOfRange

theorem readAt_eq_ok {xs : List α} {i : ℕ} {x : α} :
    readAt xs i = .ok x ↔ xs[i]? = some x := by
  unfold readAt
  cases xs[i]? <;> simp

theorem readAt_of_lt {xs : List α} {i : ℕ} (hi : i < xs.length) :
    ∃ x, readAt xs i = .ok x := by
  exact ⟨xs[i], readAt_eq_ok.mpr (List.getElem?_eq_getElem hi)⟩

theorem exists_readAt_eq_ok {xs : List α} {i : ℕ} :
    (∃ x, readAt xs i = .ok x) ↔ i < xs.length := by
  constructor
  · rintro ⟨x, hx⟩
    exact (List.getElem?_eq_some_iff.mp (readAt_eq_ok.mp hx)).1
  · exact readAt_of_lt

theorem writeAt_of_lt {xs : List α} {i : ℕ} (hi : i < xs.length) (x : α) :
    writeAt xs i x = .ok (xs.set i x) := by
  simp [writeAt, hi]

/-- What was there is replaced by as many cells. -/
theorem storeAt_append {xs ys zs : List α} {i : ℕ} (hi : xs.length = i) (hlen : ys.length ≤ zs.length) :
    storeAt (xs ++ zs) i ys = .ok (xs ++ ys ++ zs.drop ys.length) := by
  have hdrop : (xs ++ zs).drop (i + ys.length) = zs.drop ys.length := by
    rw [← hi, List.drop_length_add_append]
  rw [storeAt, if_pos (by rw [List.length_append]; omega), List.take_left' hi, hdrop]

/-- `while (cond) body`, given up after `fuel` rounds. -/
def whileLoop (cond : σ → Bool) (body : σ → Except Fault σ) : ℕ → σ → Except Fault σ
  | 0, s => if cond s then .error .outOfFuel else .ok s
  | fuel + 1, s => if cond s then body s >>= whileLoop cond body fuel else .ok s

/-- Total correctness: a variant that every round lowers bounds the fuel. -/
theorem whileLoop_of_variant {cond : σ → Bool} {body : σ → Except Fault σ}
    (Inv : σ → Prop) (variant : σ → ℕ)
    (hbody : ∀ s, Inv s → cond s = true →
      ∃ s', body s = .ok s' ∧ Inv s' ∧ variant s' < variant s)
    (fuel : ℕ) (s : σ) (hs : Inv s) (hfuel : variant s ≤ fuel) :
    ∃ s', whileLoop cond body fuel s = .ok s' ∧ Inv s' ∧ cond s' = false := by
  induction fuel generalizing s with
  | zero =>
    cases hc : cond s with
    | false => exact ⟨s, by simp [whileLoop, hc], hs, hc⟩
    | true =>
      obtain ⟨s', _, _, hlt⟩ := hbody s hs hc
      omega
  | succ fuel ih =>
    cases hc : cond s with
    | false => exact ⟨s, by simp [whileLoop, hc], hs, hc⟩
    | true =>
      obtain ⟨s', hrun, hs', hlt⟩ := hbody s hs hc
      obtain ⟨t, ht, hinv, hexit⟩ := ih s' hs' (by omega)
      exact ⟨t, by simpa [whileLoop, hc, hrun] using ht, hinv, hexit⟩

/-- A loop that counts: a round takes number `m` to `m + 1`, and the loop is left
at the last number. -/
theorem whileLoop_counts {cond : σ → Bool} {body : σ → Except Fault σ} {Inv : ℕ → σ → Prop}
    {last : ℕ}
    (hround : ∀ m s, Inv m s → cond s = true →
      m < last ∧ ∃ s', body s = .ok s' ∧ Inv (m + 1) s')
    (hexit : ∀ m s, Inv m s → cond s = false → m = last)
    {fuel m : ℕ} {s : σ} (hs : Inv m s) (hfuel : last ≤ m + fuel) :
    ∃ s', whileLoop cond body fuel s = .ok s' ∧ Inv last s' ∧ cond s' = false := by
  induction fuel generalizing m s with
  | zero =>
    cases hc : cond s with
    | false =>
      obtain rfl := hexit m s hs hc
      exact ⟨s, by simp [whileLoop, hc], hs, hc⟩
    | true =>
      have hlt := (hround m s hs hc).1
      omega
  | succ fuel ih =>
    cases hc : cond s with
    | false =>
      obtain rfl := hexit m s hs hc
      exact ⟨s, by simp [whileLoop, hc], hs, hc⟩
    | true =>
      obtain ⟨_, s', hbody, hs'⟩ := hround m s hs hc
      obtain ⟨t, hrun, ht, hend⟩ := ih hs' (by omega)
      exact ⟨t, by simpa [whileLoop, hc, hbody] using hrun, ht, hend⟩

/-- Partial correctness: whatever the fuel, a loop that returns keeps its
invariant and leaves with its condition false. -/
theorem whileLoop_inv {cond : σ → Bool} {body : σ → Except Fault σ} (Inv : σ → Prop)
    (hbody : ∀ s s', Inv s → cond s = true → body s = .ok s' → Inv s')
    {fuel : ℕ} {s t : σ} (hs : Inv s) (hrun : whileLoop cond body fuel s = .ok t) :
    Inv t ∧ cond t = false := by
  induction fuel generalizing s with
  | zero =>
    cases hc : cond s with
    | true => simp [whileLoop, hc] at hrun
    | false =>
      obtain rfl : s = t := by simpa [whileLoop, hc] using hrun
      exact ⟨hs, hc⟩
  | succ fuel ih =>
    cases hc : cond s with
    | true =>
      simp only [whileLoop, hc, if_true] at hrun
      obtain ⟨s', hbs, hrest⟩ := bind_eq_ok.mp hrun
      exact ih (hbody s s' hs hc hbs) hrest
    | false =>
      obtain rfl : s = t := by simpa [whileLoop, hc] using hrun
      exact ⟨hs, hc⟩

/-- A counted loop keeps what each of its rounds keeps. -/
theorem foldlM_inv {f : σ → α → Except Fault σ} (Inv : σ → Prop)
    (hf : ∀ s a s', Inv s → f s a = .ok s' → Inv s') {xs : List α} {s t : σ}
    (hs : Inv s) (hrun : xs.foldlM f s = .ok t) : Inv t := by
  induction xs generalizing s with
  | nil =>
    obtain rfl := Except.ok.inj hrun
    exact hs
  | cons x xs ih =>
    rw [List.foldlM_cons] at hrun
    obtain ⟨s', hstep, hrest⟩ := bind_eq_ok.mp hrun
    exact ih (hf s x s' hs hstep) hrest

/-- Every round of a counted loop that returns has returned. -/
theorem foldlM_step_ok {f : σ → α → Except Fault σ} (Inv : σ → Prop)
    (hf : ∀ s a s', Inv s → f s a = .ok s' → Inv s') {xs : List α} {s t : σ}
    (hs : Inv s) (hrun : xs.foldlM f s = .ok t) :
    ∀ x ∈ xs, ∃ s₁ s₂, Inv s₁ ∧ f s₁ x = .ok s₂ := by
  induction xs generalizing s with
  | nil => simp
  | cons x xs ih =>
    rw [List.foldlM_cons] at hrun
    obtain ⟨s', hstep, hrest⟩ := bind_eq_ok.mp hrun
    exact List.forall_mem_cons.mpr ⟨⟨s, s', hs, hstep⟩, ih (hf s x s' hs hstep) hrest⟩

/-- A counted loop over the first numbers: each round is one step of the invariant. -/
theorem foldlM_range {round : σ → ℕ → Except Fault σ} {Inv : ℕ → σ → Prop} {count : ℕ}
    (hround : ∀ i < count, ∀ s, Inv i s → ∃ s', round s i = .ok s' ∧ Inv (i + 1) s')
    {s : σ} (hs : Inv 0 s) :
    ∃ t, (List.range count).foldlM round s = .ok t ∧ Inv count t := by
  induction count with
  | zero => exact ⟨s, rfl, hs⟩
  | succ count ih =>
    obtain ⟨t, hrun, ht⟩ := ih (fun i hi => hround i (Nat.lt_succ_of_lt hi))
    obtain ⟨t', hlast, ht'⟩ := hround count (Nat.lt_succ_self count) t ht
    refine ⟨t', ?_, ht'⟩
    rw [List.range_succ, List.foldlM_append, hrun, ok_bind, List.foldlM_cons, hlast, ok_bind]
    rfl

theorem length_mapM {f : α → Except Fault β} {xs : List α} {ys : List β}
    (hrun : xs.mapM f = .ok ys) : ys.length = xs.length := by
  induction xs generalizing ys with
  | nil =>
    obtain rfl := Except.ok.inj hrun
    rfl
  | cons x xs ih =>
    rw [List.mapM_cons] at hrun
    obtain ⟨y, _, hrest⟩ := bind_eq_ok.mp hrun
    obtain ⟨ys', htail, hys⟩ := bind_eq_ok.mp hrest
    obtain rfl := Except.ok.inj hys
    simp [ih htail]

theorem mapM_eq_ok_iff {f : α → Except Fault β} {xs : List α} {ys : List β} :
    xs.mapM f = .ok ys ↔ List.Forall₂ (fun x y => f x = .ok y) xs ys := by
  induction xs generalizing ys with
  | nil =>
    rw [List.forall₂_nil_left_iff]
    exact ⟨fun hrun => (Except.ok.inj hrun).symm, fun hnil => by rw [hnil]; rfl⟩
  | cons x xs ih =>
    rw [List.mapM_cons, List.forall₂_cons_left_iff, bind_eq_ok]
    constructor
    · rintro ⟨y, hy, hrest⟩
      obtain ⟨ys', hrun, hys⟩ := bind_eq_ok.mp hrest
      exact ⟨y, ys', hy, ih.mp hrun, (Except.ok.inj hys).symm⟩
    · rintro ⟨y, ys', hy, hrun, rfl⟩
      exact ⟨y, hy, by rw [ih.mpr hrun]; rfl⟩

theorem exists_of_mem_mapM {f : α → Except Fault β} {xs : List α} {ys : List β} {y : β}
    (hrun : xs.mapM f = .ok ys) (hy : y ∈ ys) : ∃ x ∈ xs, f x = .ok y := by
  induction xs generalizing ys with
  | nil =>
    obtain rfl := Except.ok.inj hrun
    simp at hy
  | cons x xs ih =>
    rw [List.mapM_cons] at hrun
    obtain ⟨y', hhead, hrest⟩ := bind_eq_ok.mp hrun
    obtain ⟨ys', htail, hys⟩ := bind_eq_ok.mp hrest
    obtain rfl := Except.ok.inj hys
    rcases List.mem_cons.mp hy with rfl | hlater
    · exact ⟨x, List.mem_cons_self, hhead⟩
    · obtain ⟨x', hx', hfx⟩ := ih htail hlater
      exact ⟨x', List.mem_cons_of_mem x hx', hfx⟩

theorem mapM_eq_ok_map {f : α → Except Fault β} {g : α → β} {xs : List α}
    (hfg : ∀ x ∈ xs, f x = .ok (g x)) : xs.mapM f = .ok (xs.map g) := by
  induction xs with
  | nil => rfl
  | cons x xs ih =>
    rw [List.mapM_cons, hfg x List.mem_cons_self,
      ih (fun y hy => hfg y (List.mem_cons_of_mem x hy))]
    rfl

theorem exists_mapM_eq_ok {f : α → Except Fault β} {xs : List α} :
    (∃ ys, xs.mapM f = .ok ys) ↔ ∀ x ∈ xs, ∃ y, f x = .ok y := by
  induction xs with
  | nil => exact ⟨fun _ => by simp, fun _ => ⟨[], rfl⟩⟩
  | cons x xs ih =>
    rw [List.forall_mem_cons, ← ih]
    simp only [List.mapM_cons]
    constructor
    · rintro ⟨ys, hrun⟩
      obtain ⟨y, hy, hrest⟩ := bind_eq_ok.mp hrun
      obtain ⟨ys', hys, _⟩ := bind_eq_ok.mp hrest
      exact ⟨⟨y, hy⟩, ys', hys⟩
    · rintro ⟨⟨y, hy⟩, ys, hys⟩
      exact ⟨y :: ys, by rw [hy, ok_bind, hys]; rfl⟩

/-- Safety at every fuel: the computation has a value satisfying `P`, or it
is still running. No array access and no division has failed. -/
def Safe (P : α → Prop) : Except Fault α → Prop
  | .ok a => P a
  | .error e => e = .outOfFuel

@[simp] theorem safe_ok (P : α → Prop) (a : α) : Safe P (.ok a : Except Fault α) ↔ P a := Iff.rfl

theorem Safe.mono {P Q : α → Prop} {x : Except Fault α} (hx : Safe P x) (hPQ : ∀ a, P a → Q a) :
    Safe Q x := by
  cases x with
  | error e => exact hx
  | ok a => exact hPQ a hx

theorem Safe.bind {P : α → Prop} {Q : β → Prop} {x : Except Fault α}
    {f : α → Except Fault β} (hx : Safe P x) (hf : ∀ a, P a → Safe Q (f a)) :
    Safe Q (x >>= f) := by
  cases x with
  | error e => exact hx
  | ok a => exact hf a hx

theorem Safe.ne_outOfRange {P : α → Prop} {x : Except Fault α} (hx : Safe P x) :
    x ≠ .error .outOfRange := by
  rintro rfl
  exact absurd hx (by simp [Safe])

theorem safe_whileLoop {cond : σ → Bool} {body : σ → Except Fault σ} (Inv : σ → Prop)
    (hbody : ∀ s, Inv s → cond s = true → Safe Inv (body s))
    (fuel : ℕ) (s : σ) (hs : Inv s) : Safe Inv (whileLoop cond body fuel s) := by
  induction fuel generalizing s with
  | zero =>
    cases hc : cond s with
    | true => simp [whileLoop, hc, Safe]
    | false => simpa [whileLoop, hc] using hs
  | succ fuel ih =>
    cases hc : cond s with
    | true =>
      simp only [whileLoop, hc, if_true]
      exact (hbody s hs hc).bind ih
    | false => simpa [whileLoop, hc] using hs

end EsSensor.CheckedLoop
