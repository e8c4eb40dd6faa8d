import EsSensor.Library.CheckedLoop
import Mathlib.Data.List.Range
import Mathlib.Order.Monotone.Defs

/-!
Machines that consume a stream one sample at a time and emit any number of
results on each sample. A caller hands the stream over in calls of arbitrary
length; what is emitted depends on the position in the stream and not on where
the calls were cut.
-/
namespace EsSensor.StreamMachine

open CheckedLoop

universe u v

variable {σ β : Type u} {α : Type v}

/-- One call: the samples are consumed in order and the results concatenated. -/
def run (step : σ → α → Except Fault (σ × List β)) :
    σ → List α → Except Fault (σ × List β)
  | s, [] => .ok (s, [])
  | s, x :: xs => do
    let (s', out) ← step s x
    let (t, rest) ← run step s' xs
    .ok (t, out ++ rest)

/-- Consecutive calls on one machine; the results are kept call by call. -/
def runCalls (step : σ → α → Except Fault (σ × List β)) :
    σ → List (List α) → Except Fault (σ × List (List β))
  | s, [] => .ok (s, [])
  | s, call :: calls => do
    let (s', out) ← run step s call
    let (t, rest) ← runCalls step s' calls
    .ok (t, out :: rest)

/-- The samples of `xs` are those of the signal from position `n` on. -/
def Follows (signal : ℕ → α) (n : ℕ) (xs : List α) : Prop :=
  ∀ i, (hi : i < xs.length) → xs[i] = signal (n + i)

theorem follows_cons (signal : ℕ → α) (n : ℕ) (x : α) (xs : List α) :
    Follows signal n (x :: xs) ↔ x = signal n ∧ Follows signal (n + 1) xs := by
  constructor
  · intro h
    refine ⟨h 0 (Nat.zero_lt_succ _), ?_⟩
    intro i hi
    have hnext := h (i + 1) (by simpa using hi)
    simpa [Nat.add_assoc, Nat.add_comm 1 i] using hnext
  · rintro ⟨hx, hxs⟩ i hi
    cases i with
    | zero => simpa using hx
    | succ i =>
      have hrest := hxs i (by simpa using hi)
      simpa [Nat.add_assoc, Nat.add_comm 1 i] using hrest

theorem follows_append (signal : ℕ → α) (n : ℕ) (xs ys : List α) :
    Follows signal n (xs ++ ys) ↔ Follows signal n xs ∧ Follows signal (n + xs.length) ys := by
  induction xs generalizing n with
  | nil => simp [Follows]
  | cons x xs ih =>
    simp only [List.cons_append, follows_cons, ih, List.length_cons, and_assoc,
      Nat.add_assoc, Nat.add_comm 1]

/-- A finite stream is the start of its own extension by a default value. -/
theorem follows_getD (xs : List α) (d : α) : Follows (fun i => xs.getD i d) 0 xs := by
  intro i hi
  simp [List.getD_eq_getElem?_getD, List.getElem?_eq_getElem hi]

/-- What the first `c` calls hand over. -/
def total (calls : List (List α)) (c : ℕ) : ℕ := (calls.take c).flatten.length

theorem total_succ (calls : List (List α)) (c : ℕ) :
    total calls (c + 1) = total calls c + (calls.getD c []).length := by
  rw [total, total, List.take_add_one, List.flatten_append, List.length_append,
    List.getD_eq_getElem?_getD]
  cases calls[c]? with
  | none => rfl
  | some call => simp

theorem total_succ_of_lt {calls : List (List α)} {c : ℕ} (hc : c < calls.length) :
    total calls (c + 1) = total calls c + calls[c].length := by
  rw [total_succ, List.getD_eq_getElem?_getD, List.getElem?_eq_getElem hc, Option.getD_some]

theorem total_eq_of_map_length {calls : List (List α)} {calls' : List (List β)}
    (hlength : calls.map List.length = calls'.map List.length) (c : ℕ) :
    total calls c = total calls' c := by
  rw [total, total, List.length_flatten, List.length_flatten, List.map_take, List.map_take, hlength]

/-- Call by call as long, when the totals agree. -/
theorem map_length_of_total {calls : List (List α)} {calls' : List (List β)}
    (hlength : calls.length = calls'.length) (htotal : ∀ c, total calls c = total calls' c) :
    calls.map List.length = calls'.map List.length := by
  apply List.ext_getElem
  · simpa using hlength
  · intro c hc hc'
    rw [List.length_map] at hc hc'
    have hcall := total_succ_of_lt hc
    have hcall' := total_succ_of_lt hc'
    rw [htotal, htotal] at hcall
    rw [List.getElem_map, List.getElem_map]
    omega

/-- The results due at positions `n` to `n + k - 1`. -/
def emitted (emit : ℕ → List β) (n k : ℕ) : List β := (List.range' n k).flatMap emit

@[simp] theorem emitted_zero (emit : ℕ → List β) (n : ℕ) : emitted emit n 0 = [] := rfl

theorem emitted_succ (emit : ℕ → List β) (n k : ℕ) :
    emitted emit n (k + 1) = emit n ++ emitted emit (n + 1) k := by
  simp [emitted, List.range'_succ]

theorem emitted_add (emit : ℕ → List β) (n a b : ℕ) :
    emitted emit n (a + b) = emitted emit n a ++ emitted emit (n + a) b := by
  unfold emitted
  rw [← List.flatMap_append, List.range'_append_1]

/-- The results of calls cut at arbitrary places, call by call. -/
def callOutputs (emit : ℕ → List β) : ℕ → List (List α) → List (List β)
  | _, [] => []
  | n, call :: calls =>
    emitted emit n call.length :: callOutputs emit (n + call.length) calls

@[simp] theorem callOutputs_length (emit : ℕ → List β) (n : ℕ) (calls : List (List α)) :
    (callOutputs emit n calls).length = calls.length := by
  induction calls generalizing n with
  | nil => rfl
  | cons call calls ih => simp [callOutputs, ih]

theorem callOutputs_flatten (emit : ℕ → List β) (n : ℕ) (calls : List (List α)) :
    (callOutputs emit n calls).flatten = emitted emit n calls.flatten.length := by
  induction calls generalizing n with
  | nil => rfl
  | cons call calls ih =>
    simp only [callOutputs, List.flatten_cons, ih, List.length_append, emitted_add]

theorem callOutputs_take (emit : ℕ → List β) (n c : ℕ) (calls : List (List α)) :
    (callOutputs emit n calls).take c = callOutputs emit n (calls.take c) := by
  induction calls generalizing n c with
  | nil => simp [callOutputs]
  | cons call calls ih =>
    cases c with
    | zero => rfl
    | succ c => simp [callOutputs, ih]

theorem callOutputs_getElem (emit : ℕ → List β) (n : ℕ) (calls : List (List α)) (k : ℕ)
    (hk : k < calls.length) (hk' : k < (callOutputs emit n calls).length) :
    (callOutputs emit n calls)[k] =
      emitted emit (n + (calls.take k).flatten.length) calls[k].length := by
  induction calls generalizing n k with
  | nil => simp at hk
  | cons call calls ih =>
    cases k with
    | zero => simp [callOutputs]
    | succ k =>
      have hrest := ih (n + call.length) k (by simpa using hk) (by simpa using hk)
      simpa [callOutputs, Nat.add_assoc] using hrest

section Numbered

variable {count : ℕ → ℕ} {value : ℕ → β}

/-- Results that are made one after the other, from number `a` on. -/
theorem map_range'_succ (value : ℕ → β) {a m : ℕ} (ham : a ≤ m) :
    (List.range' a (m + 1 - a)).map value = (List.range' a (m - a)).map value ++ [value m] := by
  have hcount : m + 1 - a = m - a + 1 := by omega
  have hlast : a + (m - a) = m := by omega
  rw [hcount, List.range'_concat, List.map_append, Nat.one_mul, hlast, List.map_singleton]

/-- Results are numbered; those before position `n` are the first `count n`. -/
def numbered (count : ℕ → ℕ) (value : ℕ → β) (n : ℕ) : List β :=
  (List.range' (count n) (count (n + 1) - count n)).map value

theorem emitted_numbered (hmono : Monotone count) (n k : ℕ) :
    emitted (numbered count value) n k =
      (List.range' (count n) (count (n + k) - count n)).map value := by
  induction k generalizing n with
  | zero => simp
  | succ k ih =>
    have hfirst : count n ≤ count (n + 1) := hmono (Nat.le_succ n)
    have hrest : count (n + 1) ≤ count (n + (k + 1)) := hmono (by omega)
    have hidx : n + 1 + k = n + (k + 1) := by omega
    have happend := List.range'_append_1 (s := count n) (m := count (n + 1) - count n)
      (n := count (n + (k + 1)) - count (n + 1))
    rw [Nat.add_sub_cancel' hfirst] at happend
    rw [emitted_succ, ih, numbered, hidx, ← List.map_append, happend]
    congr 2
    omega

theorem length_emitted_numbered (hmono : Monotone count) (n k : ℕ) :
    (emitted (numbered count value) n k).length = count (n + k) - count n := by
  rw [emitted_numbered hmono, List.length_map, List.length_range']

/-- From the start of the stream, result number `m` is at place `m`. -/
theorem getElem?_emitted_numbered (hmono : Monotone count) (hzero : count 0 = 0) (k m : ℕ) :
    (emitted (numbered count value) 0 k)[m]? = if m < count k then some (value m) else none := by
  rw [emitted_numbered hmono, Nat.zero_add, hzero, Nat.sub_zero, List.getElem?_map]
  by_cases hm : m < count k
  · rw [if_pos hm, List.getElem?_range' hm, Option.map_some, Nat.zero_add, Nat.one_mul]
  · rw [if_neg hm, List.getElem?_eq_none (by simpa using hm)]
    rfl

end Numbered

section Rules

variable {step : σ → α → Except Fault (σ × List β)}

/-- One sample preserves the invariant and emits what is due at its position. -/
def Advances (step : σ → α → Except Fault (σ × List β)) (signal : ℕ → α)
    (Inv : ℕ → σ → Prop) (emit : ℕ → List β) : Prop :=
  ∀ n s, Inv n s → ∃ s', step s (signal n) = .ok (s', emit n) ∧ Inv (n + 1) s'

theorem run_advances {signal : ℕ → α} {Inv : ℕ → σ → Prop} {emit : ℕ → List β}
    (hstep : Advances step signal Inv emit) (xs : List α) (n : ℕ) (s : σ)
    (hxs : Follows signal n xs) (hs : Inv n s) :
    ∃ s', run step s xs = .ok (s', emitted emit n xs.length) ∧ Inv (n + xs.length) s' := by
  induction xs generalizing n s with
  | nil => exact ⟨s, rfl, hs⟩
  | cons x xs ih =>
    obtain ⟨hx, hrest⟩ := (follows_cons signal n x xs).mp hxs
    obtain ⟨s₁, hs₁, hinv₁⟩ := hstep n s hs
    obtain ⟨s₂, hs₂, hinv₂⟩ := ih (n + 1) s₁ hrest hinv₁
    refine ⟨s₂, ?_, by simpa [Nat.add_assoc, Nat.add_comm 1] using hinv₂⟩
    subst hx
    simp [run, hs₁, hs₂, emitted_succ]

/-- The run rule: every cut into calls emits exactly what the positions are due. -/
theorem runCalls_advances {signal : ℕ → α} {Inv : ℕ → σ → Prop} {emit : ℕ → List β}
    (hstep : Advances step signal Inv emit) (calls : List (List α)) (n : ℕ) (s : σ)
    (hcalls : Follows signal n calls.flatten) (hs : Inv n s) :
    ∃ s', runCalls step s calls = .ok (s', callOutputs emit n calls) ∧
      Inv (n + calls.flatten.length) s' := by
  induction calls generalizing n s with
  | nil => exact ⟨s, rfl, hs⟩
  | cons call calls ih =>
    obtain ⟨hcall, hrest⟩ := (follows_append signal n call calls.flatten).mp hcalls
    obtain ⟨s₁, hs₁, hinv₁⟩ := run_advances hstep call n s hcall hs
    obtain ⟨s₂, hs₂, hinv₂⟩ := ih (n + call.length) s₁ hrest hinv₁
    refine ⟨s₂, by simp [runCalls, hs₁, hs₂, callOutputs], ?_⟩
    simpa [Nat.add_assoc] using hinv₂

/-- Partial correctness: samples of one kind keep the invariant and give results of
one kind. -/
theorem run_outputs {Inv : σ → Prop} {P : α → Prop} {Q : β → Prop}
    (hstep : ∀ s x s' out, Inv s → P x → step s x = .ok (s', out) → Inv s' ∧ ∀ y ∈ out, Q y)
    {xs : List α} {s s' : σ} {out : List β} (hxs : ∀ x ∈ xs, P x) (hs : Inv s)
    (hrun : run step s xs = .ok (s', out)) : Inv s' ∧ ∀ y ∈ out, Q y := by
  induction xs generalizing s out with
  | nil =>
    obtain ⟨rfl, rfl⟩ := Prod.mk.inj (Except.ok.inj hrun)
    exact ⟨hs, by simp⟩
  | cons x xs ih =>
    obtain ⟨⟨s₁, out₁⟩, hfirst, hrest⟩ := bind_eq_ok.mp hrun
    obtain ⟨⟨s₂, out₂⟩, hlater, hend⟩ := bind_eq_ok.mp hrest
    obtain ⟨rfl, rfl⟩ := Prod.mk.inj (Except.ok.inj hend)
    obtain ⟨hx, hxs⟩ := List.forall_mem_cons.mp hxs
    obtain ⟨hs₁, hout₁⟩ := hstep s x s₁ out₁ hs hx hfirst
    obtain ⟨hs₂, hout₂⟩ := ih hxs hs₁ hlater
    exact ⟨hs₂, List.forall_mem_append.mpr ⟨hout₁, hout₂⟩⟩

theorem runCalls_outputs {Inv : σ → Prop} {P : α → Prop} {Q : β → Prop}
    (hstep : ∀ s x s' out, Inv s → P x → step s x = .ok (s', out) → Inv s' ∧ ∀ y ∈ out, Q y)
    {calls : List (List α)} {s s' : σ} {outs : List (List β)}
    (hcalls : ∀ x ∈ calls.flatten, P x) (hs : Inv s)
    (hrun : runCalls step s calls = .ok (s', outs)) : Inv s' ∧ ∀ y ∈ outs.flatten, Q y := by
  induction calls generalizing s outs with
  | nil =>
    obtain ⟨rfl, rfl⟩ := Prod.mk.inj (Except.ok.inj hrun)
    exact ⟨hs, by simp⟩
  | cons call calls ih =>
    obtain ⟨⟨s₁, out⟩, hfirst, hrest⟩ := bind_eq_ok.mp hrun
    obtain ⟨⟨s₂, rest⟩, hlater, hend⟩ := bind_eq_ok.mp hrest
    obtain ⟨rfl, rfl⟩ := Prod.mk.inj (Except.ok.inj hend)
    obtain ⟨hcall, hcalls⟩ := List.forall_mem_append.mp hcalls
    obtain ⟨hs₁, hout⟩ := run_outputs hstep hcall hs hfirst
    obtain ⟨hs₂, hrest⟩ := ih hcalls hs₁ hlater
    exact ⟨hs₂, List.forall_mem_append.mpr ⟨hout, hrest⟩⟩

theorem run_inv {Inv : σ → Prop}
    (hstep : ∀ s x s' out, Inv s → step s x = .ok (s', out) → Inv s') {xs : List α} {s s' : σ}
    {out : List β} (hs : Inv s) (hrun : run step s xs = .ok (s', out)) : Inv s' :=
  (run_outputs (P := fun _ => True) (Q := fun _ => True)
    (fun s x s' out hs _ hrun => ⟨hstep s x s' out hs hrun, fun _ _ => trivial⟩)
    (fun _ _ => trivial) hs hrun).1

theorem safe_run {Inv : σ → Prop} (hstep : ∀ s x, Inv s → Safe (fun r => Inv r.1) (step s x))
    (xs : List α) (s : σ) (hs : Inv s) : Safe (fun r => Inv r.1) (run step s xs) := by
  induction xs generalizing s with
  | nil => exact hs
  | cons x xs ih =>
    refine (hstep s x hs).bind ?_
    rintro ⟨s₁, out⟩ hs₁
    refine (ih s₁ hs₁).bind ?_
    rintro ⟨s₂, rest⟩ hs₂
    exact hs₂

theorem safe_runCalls {Inv : σ → Prop}
    (hstep : ∀ s x, Inv s → Safe (fun r => Inv r.1) (step s x))
    (calls : List (List α)) (s : σ) (hs : Inv s) :
    Safe (fun r => Inv r.1) (runCalls step s calls) := by
  induction calls generalizing s with
  | nil => exact hs
  | cons call calls ih =>
    refine (safe_run hstep call s hs).bind ?_
    rintro ⟨s₁, out⟩ hs₁
    refine (ih s₁ hs₁).bind ?_
    rintro ⟨s₂, rest⟩ hs₂
    exact hs₂

end Rules

end EsSensor.StreamMachine
