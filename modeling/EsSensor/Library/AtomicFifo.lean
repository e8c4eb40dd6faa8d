import EsSensor.Library.MachineWord

/-!
What a queue between one producer and one consumer is for, as a history of calls
and answers. Each call that succeeds takes effect at once when it is answered; a
call that fails says what the queue held when it was made.
-/
namespace EsSensor.AtomicFifo

open MachineWord

/-- The calls of the two threads and the answers to them. `grown` says that the
queue took more memory. -/
inductive Event (T : Type)
  | offer (x : T)
  | accepted (x : T)
  | refused
  | grown
  | request
  | taken (x : T)
  | seen (x : T)
  | empty
  | measured (n : ℕ)
  deriving DecidableEq, Repr

/-- What is in the queue; the element that is being offered, and whether the queue
was full at that call; how many elements there were when the consumer asked. -/
structure Fifo (T : Type) where
  items : List T
  offered : Option (T × Bool)
  requested : Option ℕ

variable {T : Type} {capacity : ℕ}

def start : Fifo T := { items := [], offered := none, requested := none }

/-- A queue that has room for `capacity` elements may refuse one, or take more
memory, only when it was full at the call. A size, counted in a word, is at least
what there was at the call, and may count an element that is being offered. -/
inductive Next (capacity : ℕ) : Event T → Fifo T → Fifo T → Prop
  | offer (q : Fifo T) (x : T) (hidle : q.offered = none) :
    Next capacity (.offer x) q { q with offered := some (x, capacity ≤ q.items.length) }
  | accepted (q : Fifo T) (x : T) (full : Bool) (hoffer : q.offered = some (x, full)) :
    Next capacity (.accepted x) q { q with items := q.items ++ [x], offered := none }
  | refused (q : Fifo T) (x : T) (hoffer : q.offered = some (x, true)) :
    Next capacity .refused q { q with offered := none }
  | grown (q : Fifo T) (x : T) (hoffer : q.offered = some (x, true)) :
    Next capacity .grown q q
  | request (q : Fifo T) (hidle : q.requested = none) :
    Next capacity .request q { q with requested := some q.items.length }
  | taken (q : Fifo T) (x : T) (rest : List T) (atCall : ℕ)
      (hrequest : q.requested = some atCall) (hitems : q.items = x :: rest) :
    Next capacity (.taken x) q { q with items := rest, requested := none }
  | seen (q : Fifo T) (x : T) (rest : List T) (atCall : ℕ)
      (hrequest : q.requested = some atCall) (hitems : q.items = x :: rest) :
    Next capacity (.seen x) q { q with requested := none }
  | empty (q : Fifo T) (hrequest : q.requested = some 0) :
    Next capacity .empty q { q with requested := none }
  | measured (q : Fifo T) (n atCall : ℕ) (hrequest : q.requested = some atCall)
      (hlow : atCall ≤ n) (hhigh : n ≤ q.items.length + if q.offered.isSome then 1 else 0) :
    Next capacity (.measured (u64 n)) q { q with requested := none }

/-- The events in order, each allowed by the queue where it happens. -/
def Run (capacity : ℕ) : Fifo T → List (Event T) → Fifo T → Prop
  | p, [], q => p = q
  | p, e :: events, q => ∃ m, Next capacity e p m ∧ Run capacity m events q

/-- A history that the queue allows, from the empty queue to `q`. -/
def History (capacity : ℕ) (events : List (Event T)) (q : Fifo T) : Prop :=
  Run capacity start events q

theorem run_append {xs ys : List (Event T)} {p q : Fifo T} :
    Run capacity p (xs ++ ys) q ↔ ∃ m, Run capacity p xs m ∧ Run capacity m ys q := by
  induction xs generalizing p with
  | nil => simp [Run]
  | cons e xs ih =>
    simp only [List.cons_append, Run, ih]
    constructor
    · rintro ⟨m, hnext, k, hxs, hys⟩
      exact ⟨k, ⟨m, hnext, hxs⟩, hys⟩
    · rintro ⟨k, ⟨m, hnext, hxs⟩, hys⟩
      exact ⟨m, hnext, k, hxs, hys⟩

theorem run_singleton {e : Event T} {p q : Fifo T} :
    Run capacity p [e] q ↔ Next capacity e p q := by
  simp [Run]

theorem History.snoc {events : List (Event T)} {e : Event T} {p q : Fifo T}
    (h : History capacity events p) (hnext : Next capacity e p q) :
    History capacity (events ++ [e]) q := by
  exact run_append.mpr ⟨p, h, run_singleton.mpr hnext⟩

/-- The elements that were accepted, in that order. -/
def entered (events : List (Event T)) : List T :=
  events.filterMap (fun e => match e with | .accepted x => some x | _ => none)

/-- The elements that were taken, in that order. -/
def left (events : List (Event T)) : List T :=
  events.filterMap (fun e => match e with | .taken x => some x | _ => none)

private theorem run_entered {events : List (Event T)} {p q : Fifo T}
    (h : Run capacity p events q) : p.items ++ entered events = left events ++ q.items := by
  induction events generalizing p with
  | nil =>
    obtain rfl : p = q := h
    simp [entered, left]
  | cons e events ih =>
    obtain ⟨m, hnext, hrun⟩ := h
    have hm := ih hrun
    unfold entered left at hm ⊢
    cases hnext with
    | accepted _ x full hoffer => simpa using hm
    | taken _ x rest atCall hrequest hitems => simpa [hitems] using hm
    | _ => simpa using hm

/-- First in, first out, with nothing lost and nothing made up. -/
theorem History.entered_eq {events : List (Event T)} {q : Fifo T}
    (h : History capacity events q) : entered events = left events ++ q.items := by
  exact run_entered h

/-- Only the consumer asks, and only it is answered so. -/
def Event.ofConsumer : Event T → Bool
  | .request | .taken _ | .seen _ | .empty | .measured _ => true
  | _ => false

/-- What the consumer knows of its call does not change while the producer acts. -/
private theorem run_requested {events : List (Event T)} {p q : Fifo T}
    (h : Run capacity p events q) (hevents : ∀ e ∈ events, e.ofConsumer = false) :
    q.requested = p.requested := by
  induction events generalizing p with
  | nil =>
    obtain rfl : p = q := h
    rfl
  | cons e events ih =>
    obtain ⟨m, hnext, hrun⟩ := h
    rw [ih hrun (fun e he => hevents e (List.mem_cons_of_mem _ he))]
    have he := hevents e List.mem_cons_self
    cases hnext with
    | request => simp [Event.ofConsumer] at he
    | taken => simp [Event.ofConsumer] at he
    | seen => simp [Event.ofConsumer] at he
    | empty => simp [Event.ofConsumer] at he
    | measured => simp [Event.ofConsumer] at he
    | _ => rfl

private theorem run_offered {events : List (Event T)} {p q : Fifo T}
    (h : Run capacity p events q)
    (hevents : ∀ e ∈ events, e.ofConsumer = true) : q.offered = p.offered := by
  induction events generalizing p with
  | nil =>
    obtain rfl : p = q := h
    rfl
  | cons e events ih =>
    obtain ⟨m, hnext, hrun⟩ := h
    rw [ih hrun (fun e he => hevents e (List.mem_cons_of_mem _ he))]
    have he := hevents e List.mem_cons_self
    cases hnext with
    | offer => simp [Event.ofConsumer] at he
    | accepted => simp [Event.ofConsumer] at he
    | refused => simp [Event.ofConsumer] at he
    | _ => rfl

/-- Whether an element is offered that has not been answered for. -/
def offering (events : List (Event T)) : Bool :=
  events.foldl (fun pending e =>
    match e with | .offer _ => true | .accepted _ => false | .refused => false | _ => pending) false

private theorem run_offering {events : List (Event T)} {p q : Fifo T}
    (h : Run capacity p events q) : q.offered.isSome = events.foldl (fun pending e =>
      match e with | .offer _ => true | .accepted _ => false | .refused => false | _ => pending)
      p.offered.isSome := by
  induction events generalizing p with
  | nil =>
    obtain rfl : p = q := h
    rfl
  | cons e events ih =>
    obtain ⟨m, hnext, hrun⟩ := h
    rw [ih hrun, List.foldl_cons]
    cases hnext <;> rfl

theorem History.offering_eq {events : List (Event T)} {q : Fifo T}
    (h : History capacity events q) : q.offered.isSome = offering events := by
  exact run_offering h

/-- Where the consumer's call is answered: the queue at the call and at the answer. -/
private theorem answer_split {before during after : List (Event T)} {e : Event T} {q : Fifo T}
    (h : History capacity (before ++ .request :: during ++ e :: after) q)
    (hduring : ∀ e ∈ during, e.ofConsumer = false) :
    ∃ p m m', History capacity before p ∧ History capacity (before ++ .request :: during) m ∧
      m.requested = some p.items.length ∧ Next capacity e m m' := by
  obtain ⟨m, hm, m', hanswer, _⟩ := run_append.mp h
  obtain ⟨p, hp, k, hask, hafter⟩ := run_append.mp hm
  refine ⟨p, m, m', hp, hm, ?_, hanswer⟩
  rw [run_requested hafter hduring]
  cases hask
  rfl

/-- Nothing leaves during a call of the consumer. -/
private theorem left_during {before during : List (Event T)}
    (hduring : ∀ e ∈ during, e.ofConsumer = false) :
    left (before ++ .request :: during) = left before := by
  have hnone : during.filterMap (fun e => match e with | .taken x => some x | _ => none) = [] := by
    refine List.filterMap_eq_nil_iff.mpr ?_
    intro e he
    cases e with
    | taken x => simpa [Event.ofConsumer] using hduring _ he
    | _ => rfl
  simp only [left, List.filterMap_append, List.filterMap_cons, hnone, List.append_nil]

private theorem entered_during (before during : List (Event T)) :
    entered (before ++ .request :: during) = entered (before ++ during) := by
  simp only [entered, List.filterMap_append, List.filterMap_cons]

/-- A call that finds nothing was made when all that had entered had left. -/
theorem History.empty_answer {before during after : List (Event T)} {q : Fifo T}
    (h : History capacity (before ++ .request :: during ++ .empty :: after) q)
    (hduring : ∀ e ∈ during, e.ofConsumer = false) : entered before = left before := by
  obtain ⟨p, m, m', hp, _, hrequest, hanswer⟩ := answer_split h hduring
  cases hanswer with
  | empty _ hzero =>
    rw [hzero] at hrequest
    have hitems : p.items = [] := List.length_eq_zero_iff.mp (Option.some.inj hrequest).symm
    rw [hp.entered_eq, hitems, List.append_nil]

/-- A size lies between what was there at the call and what is there at the
answer, with the element that is being offered then. -/
theorem History.measured_answer {before during after : List (Event T)} {q : Fifo T} {n : ℕ}
    (h : History capacity (before ++ .request :: during ++ .measured n :: after) q)
    (hduring : ∀ e ∈ during, e.ofConsumer = false) :
    ∃ m, n = u64 m ∧ (entered before).length ≤ (left before).length + m ∧
      (left before).length + m ≤ (entered (before ++ during)).length +
        if offering (before ++ .request :: during) then 1 else 0 := by
  obtain ⟨p, m, m', hp, hm, hrequest, hanswer⟩ := answer_split h hduring
  have heq := hm.entered_eq
  have hpq := hp.entered_eq
  rw [entered_during, left_during hduring] at heq
  cases hanswer with
  | measured _ k atCall hcall hlow hhigh =>
    rw [hcall] at hrequest
    obtain rfl := Option.some.inj hrequest
    rw [hm.offering_eq] at hhigh
    refine ⟨k, rfl, ?_, ?_⟩
    · rw [hpq, List.length_append]
      omega
    · rw [heq, List.length_append]
      omega

/-- A call that is refused, or for which the queue grows, was made when `capacity`
elements that had entered had not left. -/
theorem History.full_answer {before during after : List (Event T)} {q : Fifo T} {x : T}
    {e : Event T} (h : History capacity (before ++ .offer x :: during ++ e :: after) q)
    (hduring : ∀ e ∈ during, e.ofConsumer = true) (he : e = .refused ∨ e = .grown) :
    capacity + (left before).length ≤ (entered before).length := by
  obtain ⟨m, hm, m', hend, _⟩ := run_append.mp h
  obtain ⟨p, hp, k, hask, hafter⟩ := run_append.mp hm
  have hsame := run_offered hafter hduring
  have hflag : ∃ y, m.offered = some (y, true) := by
    rcases he with rfl | rfl
    · cases hend with
      | refused _ y hy => exact ⟨y, hy⟩
    · cases hend with
      | grown _ y hy => exact ⟨y, hy⟩
  obtain ⟨y, hy⟩ := hflag
  cases hask with
  | offer _ _ hidle =>
    rw [hy] at hsame
    have hfull : capacity ≤ p.items.length := by
      have hpair := Option.some.inj hsame
      have hsnd := congrArg Prod.snd hpair
      simpa using hsnd.symm
    rw [History.entered_eq hp, List.length_append]
    omega

end EsSensor.AtomicFifo
