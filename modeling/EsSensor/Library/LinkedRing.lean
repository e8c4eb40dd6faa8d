import Mathlib.Data.Nat.Notation
import Mathlib.Tactic.Common

/-!
Nodes linked by pointers, along a path and round a ring. The ring may be entered
at the next node, and a node may be linked in behind any other.
-/
namespace EsSensor.LinkedRing

variable {α : Type} {next next' : α → Option α}

/-- Each node links to the one after it, and the last one to `stop`. -/
def Path (next : α → Option α) : List α → α → Prop
  | [], _ => True
  | p :: rest, stop => next p = some (rest.headD stop) ∧ Path next rest stop

@[simp] theorem path_nil (stop : α) : Path next [] stop := trivial

@[simp] theorem path_cons (p : α) (rest : List α) (stop : α) :
    Path next (p :: rest) stop ↔ next p = some (rest.headD stop) ∧ Path next rest stop := Iff.rfl

theorem path_append {xs ys : List α} {stop : α} :
    Path next (xs ++ ys) stop ↔ Path next xs (ys.headD stop) ∧ Path next ys stop := by
  induction xs with
  | nil => simp
  | cons p xs ih =>
    have hhead : (xs ++ ys).headD stop = xs.headD (ys.headD stop) := by
      cases xs <;> rfl
    rw [List.cons_append, path_cons, path_cons, ih, hhead, and_assoc]

/-- Only the links of the nodes on the path matter. -/
theorem Path.congr {xs : List α} {stop : α} (h : Path next xs stop)
    (hsame : ∀ p ∈ xs, next' p = next p) : Path next' xs stop := by
  induction xs with
  | nil => exact trivial
  | cons p xs ih =>
    refine ⟨(hsame p List.mem_cons_self).trans h.1, ih h.2 ?_⟩
    intro q hq
    exact hsame q (List.mem_cons_of_mem p hq)

/-- A ring is entered at the node after the first one. -/
theorem Path.rotate {f n : α} {rest : List α} (h : Path next (f :: n :: rest) f) :
    Path next (n :: (rest ++ [f])) n := by
  have hrest : Path next (n :: rest) f := h.2
  have hf : next f = some n := h.1
  rw [← List.cons_append, path_append]
  exact ⟨hrest, hf, trivial⟩

/-- A new node takes over the link of the node that it is put behind. -/
theorem Path.insert {xs ys : List α} {t n stop : α} (h : Path next (xs ++ t :: ys) stop)
    (ht : next' t = some n) (hn : next' n = next t)
    (hxs : ∀ p ∈ xs, next' p = next p) (hys : ∀ p ∈ ys, next' p = next p) :
    Path next' (xs ++ t :: n :: ys) stop := by
  obtain ⟨hbefore, hlink, hafter⟩ := path_append.mp h
  exact path_append.mpr ⟨hbefore.congr hxs, ht, hn.trans hlink, hafter.congr hys⟩

end EsSensor.LinkedRing
