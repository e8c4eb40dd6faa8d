import Mathlib.Data.Finset.Basic
import Mathlib.Logic.Function.Basic

/-!
Objects that own at most one thread each. A thread that is created while the object still
owns one ends the program, as does nothing else here: to join without a thread is an error
that the caller sees. Whoever keeps to this never runs two threads of one object.
-/
namespace EsSensor.ThreadHandles

/-- The thread that each object owns, and the threads that have not ended, with the
objects they were created for. -/
structure Threads (ι : Type) where
  handle : ι → Option ℕ := fun _ => none
  live : Finset (ℕ × ι) := ∅
  fresh : ℕ := 0

namespace Threads

variable {ι : Type} [DecidableEq ι] (s : Threads ι)

/-- `none` when the thread of the object was not joined. -/
def create (i : ι) : Option (Threads ι) :=
  match s.handle i with
  | some _ => none
  | none => some {
      handle := Function.update s.handle i (some s.fresh)
      live := insert (s.fresh, i) s.live
      fresh := s.fresh + 1 }

/-- The thread comes to its end. -/
def finish (t : ℕ) : Threads ι := { s with live := s.live.filter (fun x => x.1 ≠ t) }

/-- How a join goes on: it waits, it is refused, or the object owns no thread any more. -/
inductive Join (ι : Type)
  | waits
  | refused
  | joined (s : Threads ι)

def join (i : ι) : Join ι :=
  match s.handle i with
  | none => .refused
  | some t =>
    if ∃ x ∈ s.live, x.1 = t then .waits
    else .joined { s with handle := Function.update s.handle i none }

/-- A thread that has not ended is the one that its object owns. -/
def Owned : Prop := ∀ x ∈ s.live, s.handle x.2 = some x.1

variable {s}

omit [DecidableEq ι] in
theorem Owned.unique (h : s.Owned) {x y : ℕ × ι} (hx : x ∈ s.live) (hy : y ∈ s.live)
    (hsame : x.2 = y.2) : x = y := by
  have hx' := h x hx
  have hy' := h y hy
  rw [hsame, hy', Option.some_inj] at hx'
  exact Prod.ext hx'.symm hsame

omit [DecidableEq ι] in
/-- An object that owns no thread has none that runs. -/
theorem Owned.not_live (h : s.Owned) {i : ι} (hi : s.handle i = none) {x : ℕ × ι}
    (hx : x ∈ s.live) : x.2 ≠ i := by
  rintro rfl
  rw [h x hx] at hi
  cases hi

omit [DecidableEq ι] in
theorem owned_empty : Owned ({} : Threads ι) := by
  intro x hx
  exact absurd hx (Finset.notMem_empty x)

theorem create_eq_some {i : ι} {s' : Threads ι} (hcreate : s.create i = some s') :
    s.handle i = none ∧ s' = {
      handle := Function.update s.handle i (some s.fresh)
      live := insert (s.fresh, i) s.live
      fresh := s.fresh + 1 } := by
  unfold create at hcreate
  split at hcreate
  · cases hcreate
  · exact ⟨‹_›, (Option.some.inj hcreate).symm⟩

theorem join_eq_joined {i : ι} {s' : Threads ι} (hjoin : s.join i = .joined s') :
    s' = { s with handle := Function.update s.handle i none } ∧
      ∃ t, s.handle i = some t ∧ ∀ x ∈ s.live, x.1 ≠ t := by
  unfold join at hjoin
  split at hjoin
  · cases hjoin
  · split at hjoin
    · cases hjoin
    · rename_i t ht hnone
      exact ⟨(Join.joined.inj hjoin).symm, t, ht, fun x hx heq => hnone ⟨x, hx, heq⟩⟩

theorem Owned.create (h : s.Owned) {i : ι} {s' : Threads ι} (hcreate : s.create i = some s') :
    s'.Owned := by
  obtain ⟨hi, rfl⟩ := create_eq_some hcreate
  intro x hx
  rcases Finset.mem_insert.mp hx with rfl | hx
  · exact Function.update_self ..
  · dsimp only
    rw [Function.update_of_ne (h.not_live hi hx)]
    exact h x hx

omit [DecidableEq ι] in
theorem Owned.finish (h : s.Owned) (t : ℕ) : (s.finish t).Owned := by
  intro x hx
  exact h x (Finset.mem_filter.mp hx).1

theorem Owned.join (h : s.Owned) {i : ι} {s' : Threads ι} (hjoin : s.join i = .joined s') :
    s'.Owned := by
  obtain ⟨rfl, t, ht, hended⟩ := join_eq_joined hjoin
  intro x hx
  have hxi : x.2 ≠ i := by
    rintro rfl
    exact hended x hx (Option.some.inj ((h x hx).symm.trans ht))
  dsimp only
  rw [Function.update_of_ne hxi]
  exact h x hx

/-- Only the object itself comes to own a thread. -/
theorem handle_create {i j : ι} {s' : Threads ι} (hcreate : s.create i = some s')
    (hj : s'.handle j ≠ none) : j = i ∨ s.handle j ≠ none := by
  obtain ⟨_, rfl⟩ := create_eq_some hcreate
  dsimp only at hj
  by_cases hji : j = i
  · exact .inl hji
  · rw [Function.update_of_ne hji] at hj
    exact .inr hj

theorem handle_join {i j : ι} {s' : Threads ι} (hjoin : s.join i = .joined s')
    (hj : s'.handle j ≠ none) : j ≠ i ∧ s.handle j ≠ none := by
  obtain ⟨rfl, _⟩ := join_eq_joined hjoin
  dsimp only at hj
  by_cases hji : j = i
  · subst hji
    rw [Function.update_self] at hj
    exact absurd rfl hj
  · rw [Function.update_of_ne hji] at hj
    exact ⟨hji, hj⟩

end Threads

end EsSensor.ThreadHandles
