/-! # The queue threads share

`SafeQueue` under its mutex: each member function is one step. A `pop_wait` that
may not wait, or whose wait is over, is `popNow`.
-/

namespace Handy

/-- `items_`, `exit_`, `capacity_`; a capacity of zero is none. -/
structure SafeQueue (T : Type) where
  items : List T
  exit : Bool
  capacity : Nat
deriving DecidableEq, Repr

namespace SafeQueue

variable {T : Type}

def new (capacity : Nat) : SafeQueue T := ⟨[], false, capacity⟩

def Open (q : SafeQueue T) : Prop := q.exit = false ∧ q.capacity = 0

def push (q : SafeQueue T) (v : T) : Bool × SafeQueue T :=
  if q.exit = true ∨ q.capacity ≠ 0 ∧ q.capacity ≤ q.items.length then (false, q)
  else (true, { q with items := q.items ++ [v] })

/-- `pop_wait(&v, 0)`: `wait_ready` returns at once. -/
def popNow (q : SafeQueue T) : Option T × SafeQueue T :=
  match q.items with
  | [] => (none, q)
  | v :: rest => (some v, { q with items := rest })

theorem push_open {q : SafeQueue T} (h : q.Open) (v : T) :
    q.push v = (true, { q with items := q.items ++ [v] }) := by
  apply if_neg
  rintro (hexit | ⟨hcap, _⟩)
  · exact absurd (h.1.symm.trans hexit) Bool.false_ne_true
  · exact hcap h.2

/-- A pop fails on the empty queue, and otherwise takes the front. -/
theorem popNow_cases (q : SafeQueue T) :
    (q.items = [] ∧ q.popNow = (none, q)) ∨
      ∃ v rest, q.items = v :: rest ∧ q.popNow = (some v, { q with items := rest }) := by
  cases hitems : q.items with
  | nil =>
      left
      refine ⟨rfl, ?_⟩
      rw [popNow, hitems]
  | cons v rest =>
      right
      refine ⟨v, rest, rfl, ?_⟩
      rw [popNow, hitems]

end SafeQueue

end Handy
