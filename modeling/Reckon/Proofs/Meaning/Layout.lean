import Reckon.Proofs.Meaning.Position

/-!
# Where the cells of names are kept

Lowering gives every binder a slot of its own.  A layout lists the names in
scope with their slots, innermost first.  It is to the slots of a frame what the
cells are to a memory: the scope finds the slot of the innermost binding of a
name (`Placed`), and that slot holds what the innermost cell of the name holds
(`Kept`).  Slots are never shared, so a change of one cell is a change of one
slot, and slots that are not in the layout can be written freely: that is why
the slots of a loop's body can be used again in the next round.
-/

namespace Reckon

/-- The names in scope with their slots, innermost first. -/
abbrev Layout := List (String × Code.SlotId)

/-- The slots of a layout hold the contents of cells. -/
inductive Kept (slots : Numbered Float) : Layout → List (String × Float) → Prop
  | nil : Kept slots [] []
  | cons {name slot value layout cells} (hvalue : slots.get? slot = some value)
      (h : Kept slots layout cells) : Kept slots ((name, slot) :: layout) ((name, value) :: cells)

namespace Kept

variable {slots : Numbered Float} {layout : Layout} {cells : List (String × Float)}
  {name : String} {slot : Code.SlotId}

theorem mem_of_lookup (h : layout.lookup name = some slot) : slot ∈ layout.map Prod.snd := by
  obtain ⟨before, after, hlayout, -⟩ := List.lookup_eq_some_iff.mp h
  simp [hlayout]

/-- A name has a cell, and the slot holds what is in it. -/
theorem lookup (h : Kept slots layout cells) (hslot : layout.lookup name = some slot) :
    ∃ value, cells.lookup name = some value ∧ slots.get? slot = some value := by
  induction h with
  | nil => cases hslot
  | @cons other slot' value layout cells hvalue h ih =>
      rw [List.lookup_cons] at hslot ⊢
      by_cases heq : name = other
      · simp only [heq, beq_self_eq_true] at hslot ⊢
        obtain rfl := Option.some.inj hslot
        exact ⟨value, rfl, hvalue⟩
      · have hne : (name == other) = false := by simpa using heq
        simp only [hne] at hslot ⊢
        exact ih hslot

/-- A slot that is not in the layout can be written. -/
theorem set_other (h : Kept slots layout cells) (hfresh : slot ∉ layout.map Prod.snd)
    (x : Float) : Kept (slots.set slot x) layout cells := by
  induction h with
  | nil => exact .nil
  | @cons other slot' value layout cells hvalue h ih =>
      obtain ⟨hne, hrest⟩ : slot ≠ slot' ∧ slot ∉ layout.map Prod.snd := by
        simpa [not_or] using hfresh
      refine .cons ?_ (ih hrest)
      rw [Numbered.get?_set, if_neg hne]
      exact hvalue

/-- Writing the slot of a name is assigning to its cell. -/
theorem assign (h : Kept slots layout cells) (hnodup : (layout.map Prod.snd).Nodup)
    (hslot : layout.lookup name = some slot) (x : Float) :
    ∃ cells', Evaluation.assign name x cells = some cells' ∧
      Kept (slots.set slot x) layout cells' := by
  induction h with
  | nil => cases hslot
  | @cons other slot' value layout cells hvalue h ih =>
      obtain ⟨hnotMem, hrest⟩ := List.nodup_cons.mp hnodup
      rw [List.lookup_cons] at hslot
      by_cases heq : name = other
      · simp only [heq, beq_self_eq_true] at hslot
        obtain rfl := Option.some.inj hslot
        refine ⟨(other, x) :: cells, by simp [Evaluation.assign, heq], .cons ?_ ?_⟩
        · rw [Numbered.get?_set, if_pos rfl]
        · exact h.set_other hnotMem x
      · have hne : (name == other) = false := by simpa using heq
        simp only [hne] at hslot
        obtain ⟨cells', hassign, hkept⟩ := ih hrest hslot
        refine ⟨(other, value) :: cells', by simp [Evaluation.assign, heq, hassign], .cons ?_ hkept⟩
        have hother : slot ≠ slot' := by
          intro hsame
          exact hnotMem (hsame ▸ mem_of_lookup hslot)
        rw [Numbered.get?_set, if_neg hother]
        exact hvalue

/-- A new cell is kept in a slot of its own. -/
theorem bind (h : Kept slots layout cells) (hfresh : slot ∉ layout.map Prod.snd) (name : String)
    (x : Float) : Kept (slots.set slot x) ((name, slot) :: layout) ((name, x) :: cells) := by
  refine .cons ?_ (h.set_other hfresh x)
  rw [Numbered.get?_set, if_pos rfl]

theorem tail (h : Kept slots ((name, slot) :: layout) cells) : Kept slots layout cells.tail := by
  cases h with
  | cons hvalue h => exact h

end Kept

namespace LowerState

/-- A scope finds the innermost slot of every name, and slots are not shared. -/
structure Placed (s : LowerState) (layout : Layout) : Prop where
  scope : ∀ name, s.scope.lookup name = layout.lookup name
  below : ∀ slot : Nat, slot ∈ layout.map Prod.snd → slot < s.builder.slots
  nodup : (layout.map Prod.snd).Nodup

namespace Placed

variable {s s' : LowerState} {layout : Layout}

theorem mono (h : s.Placed layout) (hscope : s'.scope = s.scope)
    (hslots : s.builder.slots ≤ s'.builder.slots) : s'.Placed layout := by
  refine ⟨?_, ?_, h.nodup⟩
  · rw [hscope]
    exact h.scope
  · intro slot hslot
    exact Nat.lt_of_lt_of_le (h.below slot hslot) hslots

theorem grows (h : s.Placed layout) (hgrows : s.Grows s') : s'.Placed layout :=
  h.mono hgrows.scope hgrows.builder.slots

/-- The next slot is not in the layout. -/
theorem fresh {slot : Nat} (h : s.Placed layout) (hslot : s.builder.slots ≤ slot) :
    slot ∉ layout.map Prod.snd := by
  intro hmem
  have hlt := h.below slot hmem
  omega

/-- A name is bound to a slot that was not in use. -/
theorem bind {slot : Nat} (h : s.Placed layout) (name : String)
    (hfresh : slot ∉ layout.map Prod.snd) (hslot : slot < s.builder.slots) :
    (s.scoped (s.scope.bind name slot).1).Placed ((name, slot) :: layout) := by
  refine ⟨?_, ?_, ?_⟩
  · intro other
    show (s.scope.bind name slot).1.lookup other = _
    rw [Scope.lookup_bind, List.lookup_cons, h.scope]
    by_cases heq : name = other
    · simp [heq]
    · have hne : (other == name) = false := by simpa using Ne.symm heq
      simp [heq, hne]
  · intro other hother
    rcases List.mem_cons.mp hother with rfl | hother
    · exact hslot
    · exact h.below other hother
  · exact List.nodup_cons.mpr ⟨hfresh, h.nodup⟩

end Placed

end LowerState

end Reckon
