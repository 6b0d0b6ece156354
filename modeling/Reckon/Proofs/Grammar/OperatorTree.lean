import Reckon.Syntax.Expr

/-!
# Trees of infix operators

A chain of operands and infix operators can be read as many trees.  One of them
groups by precedence: what stands left of an operator binds at least as tightly
as it, and what stands right of it binds tighter (`OperatorTree.Grouped`).  In
such a tree the root is the last of the loosest operators, so the chain
determines the tree (`OperatorTree.Grouped.unique`).
-/

namespace Reckon

/-- Infix operators over operands.  An operand can be any expression, so the
tree tells which infix operators of an expression belong to one chain. -/
inductive OperatorTree where
  | leaf (operand : Expr)
  | node (op : Char) (precedence : Int) (left right : OperatorTree)

namespace OperatorTree

/-- The expression that a tree stands for. -/
def toExpr : OperatorTree → Expr
  | leaf operand => operand
  | node op _ left right => .binary op left.toExpr right.toExpr

/-- The operands, from left to right. -/
def operands : OperatorTree → List Expr
  | leaf operand => [operand]
  | node _ _ left right => left.operands ++ right.operands

/-- The operators with their precedences, from left to right. -/
def operators : OperatorTree → List (Char × Int)
  | leaf _ => []
  | node op precedence left right =>
    left.operators ++ (op, precedence) :: right.operators

/-- The precedence of the operator at the root. -/
def root? : OperatorTree → Option Int
  | leaf _ => none
  | node _ precedence _ _ => some precedence

/-- An operator has no looser operator as its left child, and none as loose as
itself as its right child. -/
def Grouped : OperatorTree → Prop
  | leaf _ => True
  | node _ precedence left right =>
    (∀ p ∈ left.root?, precedence ≤ p) ∧ (∀ p ∈ right.root?, precedence < p) ∧
      left.Grouped ∧ right.Grouped

theorem length_operands (tree : OperatorTree) :
    tree.operands.length = tree.operators.length + 1 := by
  induction tree with
  | leaf operand => rfl
  | node op precedence left right hleft hright =>
      simp only [operands, operators, List.length_append, List.length_cons, hleft, hright]
      omega

/-- The root is one of the operators. -/
theorem mem_operators_of_root? {tree : OperatorTree} {precedence : Int}
    (h : precedence ∈ tree.root?) : ∃ op, (op, precedence) ∈ tree.operators := by
  cases tree with
  | leaf operand => cases h
  | node op found left right =>
      cases h
      exact ⟨op, by simp [operators]⟩

/-- What the root reaches, every operator reaches. -/
theorem Grouped.floor {tree : OperatorTree} (h : tree.Grouped) {least : Int}
    (hroot : ∀ p ∈ tree.root?, least ≤ p) : ∀ found ∈ tree.operators, least ≤ found.2 := by
  induction tree generalizing least with
  | leaf operand =>
      intro found hfound
      cases hfound
  | node op p left right hleft hright =>
      obtain ⟨hloose, htight, hgl, hgr⟩ := h
      have hp : least ≤ p := hroot p rfl
      intro found hfound
      rcases List.mem_append.mp hfound with hmem | hmem
      · exact Int.le_trans hp (hleft hgl hloose found hmem)
      · rcases List.mem_cons.mp hmem with rfl | hmem
        · exact hp
        · exact Int.le_trans hp
            (hright hgr (fun q hq => Int.le_of_lt (htight q hq)) found hmem)

/-- Everything left of the root binds at least as tightly, and everything right
of it tighter. -/
theorem Grouped.sides {op : Char} {precedence : Int} {left right : OperatorTree}
    (h : (node op precedence left right).Grouped) :
    (∀ found ∈ left.operators, precedence ≤ found.2) ∧
      ∀ found ∈ right.operators, precedence < found.2 := by
  obtain ⟨hloose, htight, hgl, hgr⟩ := h
  exact ⟨hgl.floor hloose, hgr.floor htight⟩

/-- The last of the loosest operators stands at one place only. -/
theorem last_loosest_unique {l l' r r' : List (Char × Int)} {o o' : Char × Int}
    (hl : ∀ found ∈ l, o.2 ≤ found.2) (hr : ∀ found ∈ r, o.2 < found.2)
    (hl' : ∀ found ∈ l', o'.2 ≤ found.2) (hr' : ∀ found ∈ r', o'.2 < found.2)
    (h : l ++ o :: r = l' ++ o' :: r') : l = l' ∧ o = o' ∧ r = r' := by
  rcases List.append_eq_append_iff.mp h with ⟨between, hleft, hright⟩ | ⟨between, hleft, hright⟩
  · cases between with
    | nil =>
        obtain ⟨rfl, rfl⟩ := List.cons.inj hright
        exact ⟨by simpa using hleft.symm, rfl, rfl⟩
    | cons first others =>
        obtain ⟨rfl, rfl⟩ := List.cons.inj hright
        have hlt : o.2 < o'.2 := hr o' (by simp)
        have hle : o'.2 ≤ o.2 := hl' o (by simp [hleft])
        omega
  · cases between with
    | nil =>
        obtain ⟨rfl, rfl⟩ := List.cons.inj hright
        exact ⟨by simpa using hleft, rfl, rfl⟩
    | cons first others =>
        obtain ⟨rfl, rfl⟩ := List.cons.inj hright
        have hlt : o'.2 < o.2 := hr' o (by simp)
        have hle : o.2 ≤ o'.2 := hl o' (by simp [hleft])
        omega

/-- A chain is grouped by precedence in one way only. -/
theorem Grouped.unique {tree other : OperatorTree} (h : tree.Grouped) (h' : other.Grouped)
    (hoperands : tree.operands = other.operands)
    (hoperators : tree.operators = other.operators) : tree = other := by
  induction tree generalizing other with
  | leaf operand =>
      cases other with
      | leaf operand' =>
          obtain ⟨rfl, -⟩ := List.cons.inj hoperands
          rfl
      | node op' p' left' right' => simp [operators] at hoperators
  | node op p left right hleft hright =>
      cases other with
      | leaf operand' => simp [operators] at hoperators
      | node op' p' left' right' =>
          obtain ⟨hloose, htight⟩ := h.sides
          obtain ⟨hloose', htight'⟩ := h'.sides
          obtain ⟨hl, ho, hr⟩ := last_loosest_unique hloose htight hloose' htight' hoperators
          obtain ⟨rfl, rfl⟩ := Prod.mk.inj ho
          -- one operand more than operators on each side, so the operands split alike
          have hlength : left.operands.length = left'.operands.length := by
            rw [length_operands, length_operands, hl]
          obtain ⟨hfirst, hsecond⟩ := List.append_inj hoperands hlength
          obtain ⟨-, -, hgl, hgr⟩ := h
          obtain ⟨-, -, hgl', hgr'⟩ := h'
          rw [hleft hgl hgl' hfirst hl, hright hgr hgr' hsecond hr]

end OperatorTree

end Reckon
