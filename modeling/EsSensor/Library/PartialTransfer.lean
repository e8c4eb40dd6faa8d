import EsSensor.Library.CheckedLoop
import Mathlib.Algebra.BigOperators.Group.List.Basic
import Mathlib.Algebra.Ring.Nat
import Mathlib.Data.List.Induction

/-!
Transfers that are made in parts. Each call names an offset and a length, and is
answered with the number of symbols that were moved, or with zero or less. Where
every call begins behind what was moved before it, the parts make up the whole.
-/
namespace EsSensor.PartialTransfer

/-- Who answers the calls. Call number `i` may be given any answer, but none that
is larger than what it asks for. -/
structure Peer where
  answer : ℕ → ℤ → ℤ
  answer_le : ∀ i requested, answer i requested ≤ max requested 0

structure Call where
  offset : ℤ
  requested : ℤ
  result : ℤ
  deriving DecidableEq, Repr

def Call.count (c : Call) : ℕ := c.result.toNat

def moved (calls : List Call) : ℕ := (calls.map Call.count).sum

/-- A call that moves something begins where the earlier calls have ended. -/
def InOrder (calls : List Call) : Prop :=
  ∀ (done : List Call) (c : Call), done ++ [c] <+: calls → 0 < c.result → c.offset = moved done

variable {calls done : List Call} {c : Call}

theorem moved_append_singleton (calls : List Call) (c : Call) :
    moved (calls ++ [c]) = moved calls + c.count := by
  simp [moved]

/-- What is said of every call and the ones before it, with one call more. -/
theorem forall_before_append_singleton {P : List Call → Call → Prop} :
    (∀ done d, done ++ [d] <+: calls ++ [c] → P done d) ↔
      (∀ done d, done ++ [d] <+: calls → P done d) ∧ P calls c := by
  constructor
  · intro h
    exact ⟨fun done d hdone => h done d (hdone.trans (List.prefix_append calls [c])),
      h calls c (List.prefix_refl _)⟩
  · rintro ⟨hcalls, hlast⟩ done d hdone
    rcases List.prefix_concat_iff.mp hdone with heq | hbefore
    · obtain ⟨rfl, hd⟩ := List.append_inj' heq rfl
      obtain rfl := (List.cons.inj hd).1
      exact hlast
    · exact hcalls done d hbefore

theorem forall_before_nil {P : List Call → Call → Prop} :
    ∀ done d, done ++ [d] <+: ([] : List Call) → P done d := by
  intro done d hprefix
  simp at hprefix

theorem inOrder_nil : InOrder [] := forall_before_nil

theorem inOrder_append_singleton :
    InOrder (calls ++ [c]) ↔ InOrder calls ∧ (0 < c.result → c.offset = moved calls) :=
  forall_before_append_singleton

theorem InOrder.of_isPrefix (h : InOrder calls) (hdone : done <+: calls) : InOrder done :=
  fun before d hbefore => h before d (hbefore.trans hdone)

/-- Calls in order that never ask for more than is left of a length. -/
structure Fits (len : ℕ) (calls : List Call) : Prop where
  inOrder : InOrder calls
  requested_le : ∀ (done : List Call) (c : Call), done ++ [c] <+: calls →
    c.requested ≤ (len : ℤ) - moved done
  moved_le : moved calls ≤ len

theorem fits_nil (len : ℕ) : Fits len [] :=
  ⟨inOrder_nil, forall_before_nil, Nat.zero_le len⟩

theorem Fits.append_singleton {len : ℕ} (h : Fits len calls) (hoffset : c.offset = moved calls)
    (hrequested : c.requested ≤ (len : ℤ) - moved calls)
    (hresult : c.result ≤ max c.requested 0) : Fits len (calls ++ [c]) := by
  refine ⟨inOrder_append_singleton.mpr ⟨h.inOrder, fun _ => hoffset⟩,
    forall_before_append_singleton.mpr ⟨h.requested_le, hrequested⟩, ?_⟩
  have hle := h.moved_le
  rw [moved_append_singleton, Call.count]
  omega

theorem moved_le_of_isPrefix (hdone : done <+: calls) : moved done ≤ moved calls := by
  obtain ⟨rest, rfl⟩ := hdone
  rw [moved, moved, List.map_append, List.sum_append]
  exact Nat.le_add_right _ _

theorem Fits.of_isPrefix {len : ℕ} (h : Fits len calls) (hdone : done <+: calls) : Fits len done :=
  ⟨h.inOrder.of_isPrefix hdone,
    fun before d hbefore => h.requested_le before d (hbefore.trans hdone),
    Nat.le_trans (moved_le_of_isPrefix hdone) h.moved_le⟩

section Log

variable {p : Peer} {ask : ℤ → ℤ} {len : ℕ}

/-- The results are the answers of the peer, call by call. -/
def Answered (p : Peer) (calls : List Call) : Prop :=
  ∀ i c, calls[i]? = some c → c.result = p.answer i c.requested

/-- Every call asks for what is left of a length, or for a part of that. -/
def Asks (ask : ℤ → ℤ) (len : ℕ) (calls : List Call) : Prop :=
  ∀ (done : List Call) (c : Call), done ++ [c] <+: calls →
    c.requested = ask ((len : ℤ) - moved done)

theorem answered_nil (p : Peer) : Answered p [] := by
  intro i c hcall
  simp at hcall

theorem Answered.append_singleton (h : Answered p calls)
    (hresult : c.result = p.answer calls.length c.requested) : Answered p (calls ++ [c]) := by
  intro i d hcall
  rcases Nat.lt_trichotomy i calls.length with hlt | rfl | hgt
  · rw [List.getElem?_append_left hlt] at hcall
    exact h i d hcall
  · rw [List.getElem?_concat_length] at hcall
    obtain rfl := Option.some.inj hcall
    exact hresult
  · rw [List.getElem?_eq_none (by simp; omega)] at hcall
    cases hcall

theorem asks_nil (ask : ℤ → ℤ) (len : ℕ) : Asks ask len [] := forall_before_nil

theorem Asks.append_singleton (h : Asks ask len calls)
    (hrequested : c.requested = ask ((len : ℤ) - moved calls)) : Asks ask len (calls ++ [c]) :=
  forall_before_append_singleton.mpr ⟨h, hrequested⟩

end Log

section Sending

variable {α : Type}

/-- The symbols of a message that the calls have moved. -/
def transferred (msg : List α) (calls : List Call) : List α :=
  calls.flatMap (fun c => (msg.drop c.offset.toNat).take c.count)

theorem transferred_append_singleton (msg : List α) (calls : List Call) (c : Call) :
    transferred msg (calls ++ [c]) =
      transferred msg calls ++ (msg.drop c.offset.toNat).take c.count := by
  simp [transferred]

/-- What was moved is the beginning of the message. -/
theorem transferred_eq_take (msg : List α) (h : InOrder calls) :
    transferred msg calls = msg.take (moved calls) := by
  induction calls using List.reverseRecOn with
  | nil => simp [transferred, moved]
  | append_singleton calls c ih =>
    obtain ⟨hcalls, hlast⟩ := inOrder_append_singleton.mp h
    rw [transferred_append_singleton, moved_append_singleton, ih hcalls]
    by_cases hpos : 0 < c.result
    · have hoffset : c.offset.toNat = moved calls := by
        rw [hlast hpos, Int.toNat_natCast]
      rw [hoffset, ← List.take_add]
    · have hnone : c.count = 0 := by
        unfold Call.count
        omega
      rw [hnone, List.take_zero, List.append_nil, Nat.add_zero]

theorem length_transferred {msg : List α} (h : Fits msg.length calls) :
    (transferred msg calls).length = moved calls := by
  rw [transferred_eq_take msg h.inOrder, List.length_take, Nat.min_eq_left h.moved_le]

end Sending

section Receiving

/-- Which of the incoming symbols each cell holds, and how many have come. -/
structure Buffer where
  cell : ℕ → Option ℕ := fun _ => none
  arrived : ℕ := 0

/-- A call stores the next symbols from its offset on. -/
def Buffer.store (b : Buffer) (c : Call) : Buffer where
  cell i :=
    if c.offset ≤ i ∧ (i : ℤ) < c.offset + c.count then
      some (b.arrived + (i - c.offset).toNat)
    else b.cell i
  arrived := b.arrived + c.count

def received (calls : List Call) : Buffer := calls.foldl Buffer.store {}

theorem received_append_singleton (calls : List Call) (c : Call) :
    received (calls ++ [c]) = (received calls).store c := by
  simp [received]

theorem arrived_received (calls : List Call) : (received calls).arrived = moved calls := by
  induction calls using List.reverseRecOn with
  | nil => rfl
  | append_singleton calls c ih =>
    rw [received_append_singleton, moved_append_singleton, ← ih]
    rfl

/-- Every symbol that has come stands in the cell of its own number. -/
theorem cell_received (h : InOrder calls) {i : ℕ} (hi : i < moved calls) :
    (received calls).cell i = some i := by
  induction calls using List.reverseRecOn with
  | nil => exact absurd hi (Nat.not_lt_zero i)
  | append_singleton calls c ih =>
    obtain ⟨hcalls, hlast⟩ := inOrder_append_singleton.mp h
    rw [moved_append_singleton] at hi
    rw [received_append_singleton]
    show (if c.offset ≤ i ∧ (i : ℤ) < c.offset + c.count then
      some ((received calls).arrived + (i - c.offset).toNat) else (received calls).cell i) = some i
    rw [arrived_received]
    by_cases hbefore : i < moved calls
    · -- a call in order begins behind the cells that are filled
      have hkept : ¬(c.offset ≤ i ∧ (i : ℤ) < c.offset + c.count) := by
        rintro ⟨hle, hlt⟩
        have hpos : 0 < c.result := by
          unfold Call.count at hlt
          omega
        have hoffset := hlast hpos
        omega
      rw [if_neg hkept]
      exact ih hcalls hbefore
    · have hpos : 0 < c.result := by
        unfold Call.count at hi
        omega
      have hoffset := hlast hpos
      rw [if_pos (by omega)]
      congr 1
      omega

end Receiving

end EsSensor.PartialTransfer
