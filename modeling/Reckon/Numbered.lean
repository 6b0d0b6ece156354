/-!
# Values under small numbers

Registers, slots and facts about values are kept under consecutive numbers, of
which some may be unused.  Every fact about such a collection is about `get?`.
-/

namespace Reckon

/-- Values kept under small numbers. -/
structure Numbered (α : Type) where
  /-- The value of each number, where there is one. -/
  values : Array (Option α)
deriving Repr, DecidableEq

namespace Numbered

variable {α : Type}

/-- No values at all. -/
def empty : Numbered α := ⟨#[]⟩

/-- The value of a number. -/
def get? (t : Numbered α) (n : Nat) : Option α := t.values[n]?.join

/-- Give a number a value. -/
def set (t : Numbered α) (n : Nat) (a : α) : Numbered α :=
  if n < t.values.size then ⟨t.values.setIfInBounds n (some a)⟩
  else ⟨(t.values ++ Array.replicate (n - t.values.size) none).push (some a)⟩

@[simp] theorem get?_empty (n : Nat) : (empty : Numbered α).get? n = none := by
  simp [empty, get?]

/-- Giving a number a value decides that number and no other. -/
theorem get?_set (t : Numbered α) (n m : Nat) (a : α) :
    (t.set n a).get? m = if n = m then some a else t.get? m := by
  unfold set get?
  split
  · next h =>
    rw [Array.getElem?_setIfInBounds]
    split
    · next heq => subst heq; simp
    · rfl
  · next h =>
    simp only [Array.getElem?_push, Array.getElem?_append, Array.getElem?_replicate,
      Array.size_append, Array.size_replicate]
    grind

end Numbered

end Reckon
