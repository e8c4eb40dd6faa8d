import Mathlib.Data.Nat.Notation
import Mathlib.Tactic.Common

/-!
Frames on a stream without marks between them. A reader that takes one valid
frame from the front, whatever follows it, takes a stream of frames apart in
one way only, and finds no whole number of frames where one was cut.
-/
namespace EsSensor

universe u

/-- A way to write items as frames and to read one back. -/
structure FrameCode (α β : Type u) where
  frame : α → List β
  Valid : α → Prop
  next : List β → Option (α × List β)
  next_frame : ∀ a, Valid a → ∀ rest, next (frame a ++ rest) = some (a, rest)
  next_shorter : ∀ stream a rest, next stream = some (a, rest) → rest.length < stream.length

namespace FrameCode

variable {α β : Type u} (F : FrameCode α β)

/-- Read frames until nothing is left. -/
def decode (stream : List β) : Option (List α) :=
  if stream.isEmpty then some []
  else
    match _ : F.next stream with
    | none => none
    | some (a, rest) => (decode rest).map (a :: ·)
termination_by stream.length
decreasing_by exact F.next_shorter stream a rest (by assumption)

/-- The stream is a sequence of frames with nothing before or after. -/
def Whole (stream : List β) : Prop :=
  ∃ items : List α, (∀ a ∈ items, F.Valid a) ∧ stream = items.flatMap F.frame

variable {F} {a : α} {items : List α} {stream p q : List β}

theorem frame_ne_nil (ha : F.Valid a) : F.frame a ≠ [] := by
  intro hnil
  have hnext := F.next_frame a ha []
  rw [hnil, List.append_nil] at hnext
  exact absurd (F.next_shorter _ _ _ hnext) (by simp)

theorem decode_nil : F.decode [] = some [] := by
  rw [decode]
  rfl

theorem decode_frame_append (ha : F.Valid a) (stream : List β) :
    F.decode (F.frame a ++ stream) = (F.decode stream).map (a :: ·) := by
  have hnext := F.next_frame a ha stream
  have hne : (F.frame a ++ stream).isEmpty = false := by
    rw [List.isEmpty_eq_false_iff]
    exact List.append_ne_nil_of_left_ne_nil (frame_ne_nil ha) stream
  rw [decode, hne, if_neg (by decide)]
  split
  · rename_i hnone
    rw [hnext] at hnone
    cases hnone
  · rename_i a' rest hsome
    rw [hnext] at hsome
    obtain ⟨rfl, rfl⟩ := Prod.mk.inj (Option.some.inj hsome)
    rfl

theorem decode_frames (hitems : ∀ a ∈ items, F.Valid a) :
    F.decode (items.flatMap F.frame) = some items := by
  induction items with
  | nil => exact decode_nil
  | cons a rest ih =>
    have ha : F.Valid a := hitems a (List.mem_cons_self ..)
    have hrest := ih (fun b hb => hitems b (List.mem_cons_of_mem a hb))
    rw [List.flatMap_cons, decode_frame_append ha, hrest]
    rfl

theorem whole_nil : F.Whole [] := ⟨[], by simp, rfl⟩

theorem Whole.cons (ha : F.Valid a) (hstream : F.Whole stream) :
    F.Whole (F.frame a ++ stream) := by
  obtain ⟨items, hitems, rfl⟩ := hstream
  refine ⟨a :: items, ?_, (List.flatMap_cons ..).symm⟩
  intro b hb
  rcases List.mem_cons.mp hb with hab | hb
  · exact hab ▸ ha
  · exact hitems b hb

/-- The first frame of a stream of frames is the one that is read. -/
theorem Whole.tail (ha : F.Valid a) (hwhole : F.Whole (F.frame a ++ stream)) : F.Whole stream := by
  obtain ⟨items, hitems, heq⟩ := hwhole
  cases items with
  | nil => exact absurd (List.append_eq_nil_iff.mp heq).1 (frame_ne_nil ha)
  | cons b rest =>
    have hnext := F.next_frame a ha stream
    rw [heq, List.flatMap_cons, F.next_frame b (hitems b (List.mem_cons_self ..))] at hnext
    obtain ⟨-, rfl⟩ := Prod.mk.inj (Option.some.inj hnext)
    exact ⟨rest, fun c hc => hitems c (List.mem_cons_of_mem b hc), rfl⟩

theorem whole_frames_append_iff (hitems : ∀ a ∈ items, F.Valid a) :
    F.Whole (items.flatMap F.frame ++ stream) ↔ F.Whole stream := by
  induction items with
  | nil => rfl
  | cons a rest ih =>
    have ha : F.Valid a := hitems a (List.mem_cons_self ..)
    have hrest := ih (fun b hb => hitems b (List.mem_cons_of_mem a hb))
    rw [List.flatMap_cons, List.append_assoc, ← hrest]
    exact ⟨Whole.tail ha, Whole.cons ha⟩

/-- A frame that was cut is no sequence of frames. -/
theorem not_whole_of_cut (ha : F.Valid a) (hcut : F.frame a = p ++ q) (hp : p ≠ [])
    (hq : q ≠ []) : ¬ F.Whole p := by
  intro hwhole
  obtain ⟨items, hitems, rfl⟩ := hwhole
  cases items with
  | nil => exact hp rfl
  | cons b rest =>
    have hnext := F.next_frame a ha []
    rw [List.append_nil, hcut, List.flatMap_cons, List.append_assoc,
      F.next_frame b (hitems b (List.mem_cons_self ..))] at hnext
    obtain ⟨-, hnil⟩ := Prod.mk.inj (Option.some.inj hnext)
    exact hq (List.append_eq_nil_iff.mp hnil).2

end FrameCode

end EsSensor
