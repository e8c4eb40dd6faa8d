import EsSensor.Library.CyclicIndex
import Mathlib.Data.Nat.Notation
import Mathlib.Data.Nat.ModEq
import Mathlib.Tactic.Common

/-!
Raw storage used in a circle. A slot holds an object or nothing; objects are
constructed into empty slots and destroyed where they are. All that was ever
constructed is kept as a history, of which the slots show a window.
-/
namespace EsSensor.SlotWindow

/-- Two places that are less than a turn apart do not share a slot. -/
theorem mod_ne_of_lt {size j k : ℕ} (hjk : j < k) (hk : k < j + size) :
    j % size ≠ k % size := by
  intro heq
  have hdvd : size ∣ k - j := (Nat.modEq_iff_dvd' hjk.le).mp heq
  have hle := Nat.le_of_dvd (by omega) hdvd
  omega

/-- Stepping an index round a power of two by masking. -/
theorem succ_and_mask {size k : ℕ} (hsize : size = 2 ^ k) (n : ℕ) :
    (n % size + 1) &&& (size - 1) = (n + 1) % size := by
  rw [hsize, Nat.and_two_pow_sub_one_eq_mod, Nat.mod_add_mod]

variable {T : Type}

/-- Construct an object in place; nothing may live there. -/
def construct (slots : List (Option T)) (i : ℕ) (x : T) : Option (List (Option T)) :=
  match slots[i]? with
  | some none => some (slots.set i (some x))
  | _ => none

/-- The object that lives in a slot. -/
def look (slots : List (Option T)) (i : ℕ) : Option T :=
  match slots[i]? with
  | some (some x) => some x
  | _ => none

/-- Move the object out of a slot and destroy it. -/
def destroy (slots : List (Option T)) (i : ℕ) : Option (T × List (Option T)) :=
  (look slots i).map (fun x => (x, slots.set i none))

/-- One turn of slots, from place `low` of the history on. -/
def Shows (slots : List (Option T)) (low : ℕ) (history : List T) : Prop :=
  ∀ k, low ≤ k → k < low + slots.length → slots[k % slots.length]? = some history[k]?

theorem shows_replicate (size : ℕ) : Shows (List.replicate size (none : Option T)) 0 [] := by
  intro k _ hk
  rw [List.length_replicate] at hk ⊢
  rw [Nat.mod_eq_of_lt (by omega), List.getElem?_replicate, if_pos (by omega),
    List.getElem?_nil]

variable {slots : List (Option T)} {low : ℕ} {history : List T}

/-- The next object finds its slot empty, and the window shows it there. -/
theorem Shows.construct (h : Shows slots low history) (hlow : low ≤ history.length)
    (hroom : history.length < low + slots.length) (x : T) :
    ∃ slots', SlotWindow.construct slots (history.length % slots.length) x = some slots' ∧
      slots'.length = slots.length ∧ Shows slots' low (history ++ [x]) := by
  have hempty := h history.length hlow hroom
  rw [List.getElem?_eq_none (Nat.le_refl _)] at hempty
  refine ⟨slots.set (history.length % slots.length) (some x),
    by rw [SlotWindow.construct, hempty], List.length_set, ?_⟩
  intro k hk hlt
  rw [List.length_set] at hlt ⊢
  rcases Nat.lt_trichotomy k history.length with hbefore | heq | hafter
  · have hne : history.length % slots.length ≠ k % slots.length :=
      (mod_ne_of_lt hbefore (by omega)).symm
    rw [List.getElem?_set_ne hne, h k hk hlt, List.getElem?_append_left hbefore]
  · subst heq
    rw [List.getElem?_set_self (Nat.mod_lt _ (by omega)), List.getElem?_concat_length]
  · have hne : history.length % slots.length ≠ k % slots.length :=
      mod_ne_of_lt hafter (by omega)
    rw [List.getElem?_set_ne hne, h k hk hlt, List.getElem?_eq_none hafter.le,
      List.getElem?_eq_none (by rw [List.length_append, List.length_singleton]; omega)]

/-- An object that was constructed and not yet destroyed is where it was put. -/
theorem Shows.look (h : Shows slots low history) {k : ℕ} (hlow : low ≤ k)
    (hlt : k < low + slots.length) {x : T} (hx : history[k]? = some x) :
    SlotWindow.look slots (k % slots.length) = some x := by
  rw [SlotWindow.look, h k hlow hlt, hx]

/-- The oldest object can be destroyed, which moves the window by one place. -/
theorem Shows.destroy (h : Shows slots low history)
    (hroom : history.length ≤ low + slots.length) {x : T} (hx : history[low]? = some x) :
    ∃ slots', SlotWindow.destroy slots (low % slots.length) = some (x, slots') ∧
      slots'.length = slots.length ∧ Shows slots' (low + 1) history := by
  have hlt : low < history.length := (List.getElem?_eq_some_iff.mp hx).1
  have hsize : 0 < slots.length := by omega
  refine ⟨slots.set (low % slots.length) none, ?_, List.length_set, ?_⟩
  · rw [SlotWindow.destroy, h.look (Nat.le_refl low) (by omega) hx, Option.map_some]
  intro k hk hkt
  rw [List.length_set] at hkt ⊢
  by_cases hturn : k = low + slots.length
  · subst hturn
    rw [Nat.add_mod_right, List.getElem?_set_self (Nat.mod_lt _ hsize),
      List.getElem?_eq_none hroom]
  · have hne : low % slots.length ≠ k % slots.length := mod_ne_of_lt (by omega) (by omega)
    rw [List.getElem?_set_ne hne, h k (by omega) (by omega)]

/-- A window at the end of the history shows empty slots only. -/
theorem Shows.nothing_lives {data : List (Option T)} {history : List T}
    (h : Shows data history.length history) : data.filterMap id = [] := by
  refine List.filterMap_eq_nil_iff.mpr ?_
  intro slot hslot
  obtain ⟨i, hi, rfl⟩ := List.getElem_of_mem hslot
  obtain ⟨d, hd, hmod⟩ := CyclicIndex.exists_add_mod hi history.length
  have hshow := h (history.length + d) (Nat.le_add_right _ _) (by omega)
  rw [hmod, List.getElem?_eq_none (Nat.le_add_right _ _), List.getElem?_eq_getElem hi] at hshow
  exact Option.some.inj hshow

end EsSensor.SlotWindow
