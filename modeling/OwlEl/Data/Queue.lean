/-!
# First in, first out

A queue answers in the order of arrival, which `toList` lists.
-/

namespace OwlEl

/-- What has arrived and not been taken. The recent arrivals are kept in reverse. -/
structure Queue (α : Type) where
  front : List α
  recent : List α

namespace Queue

variable {α : Type}

/-- Nothing is waiting. -/
def empty : Queue α := ⟨[], []⟩

/-- The waiting elements, the oldest first. -/
def toList (q : Queue α) : List α := q.front ++ q.recent.reverse

/-- The number of waiting elements. -/
def size (q : Queue α) : Nat := q.front.length + q.recent.length

/-- Add an element behind all that are waiting. -/
def push (q : Queue α) (a : α) : Queue α := { q with recent := a :: q.recent }

/-- Take the oldest element. -/
def pop? (q : Queue α) : Option (α × Queue α) :=
  match q.front with
  | a :: front => some (a, ⟨front, q.recent⟩)
  | [] =>
      match q.recent.reverse with
      | a :: front => some (a, ⟨front, []⟩)
      | [] => none

@[simp] theorem toList_empty : (empty : Queue α).toList = [] := rfl

@[simp] theorem toList_push (q : Queue α) (a : α) : (q.push a).toList = q.toList ++ [a] := by
  simp [toList, push]

theorem size_eq_length (q : Queue α) : q.size = q.toList.length := by
  simp [size, toList]

theorem pop?_eq_none_iff {q : Queue α} : q.pop? = none ↔ q.toList = [] := by
  obtain ⟨front, recent⟩ := q
  cases front with
  | cons => simp [pop?, toList]
  | nil => cases h : recent.reverse <;> simp [pop?, toList, h]

theorem pop?_eq_some {q q' : Queue α} {a : α} (h : q.pop? = some (a, q')) :
    q.toList = a :: q'.toList := by
  obtain ⟨front, recent⟩ := q
  cases front with
  | cons b front =>
      simp only [pop?, Option.some.injEq, Prod.mk.injEq] at h
      obtain ⟨rfl, rfl⟩ := h
      simp [toList]
  | nil =>
      cases hr : recent.reverse with
      | nil => simp [pop?, hr] at h
      | cons b front =>
          simp only [pop?, hr, Option.some.injEq, Prod.mk.injEq] at h
          obtain ⟨rfl, rfl⟩ := h
          simp [toList, hr]

end Queue

end OwlEl
