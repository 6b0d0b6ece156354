import Reckon.Proofs.Grammar.Items
import Reckon.Proofs.Syntax.Everywhere

/-!
# What is read is as good as its words

What is true of every node that can be made of fitting words is true everywhere in the
expressions that they spell (`Grammar.Spells.everywhere`), by induction over the grammar.  In
particular every infix operator of an expression that is read is declared by the table it is
read against (`Grammar.Spells.declared`).  The prototype of an operator has as many parameters
as the operator has operands.
-/

namespace Reckon

/-- An infix operator at the root of an expression satisfies a condition. -/
def Expr.Infix (known : Char → Prop) : Expr → Prop
  | binary op _ _ => known op
  | _ => True

namespace OperatorTable

/-- An operator has a precedence. -/
def Declares (ops : OperatorTable) (op : Char) : Prop :=
  ∃ precedence, ops.precedence? op = some precedence

end OperatorTable

namespace OperatorTree

/-- The expression of a tree has at its operators what they give it, and what its operands
have. -/
theorem everywhere_toExpr {P : Expr → Prop} (known : Char → Prop) {tree : OperatorTree}
    (hnode : ∀ op left right, known op → P (.binary op left right))
    (hoperands : ∀ operand ∈ tree.operands, operand.Everywhere P)
    (hoperators : ∀ operator ∈ tree.operators, known operator.1) :
    tree.toExpr.Everywhere P := by
  induction tree with
  | leaf operand => exact hoperands operand (by simp [operands])
  | node op precedence left right hleft hright =>
      simp only [operands, operators, List.mem_append, List.mem_cons] at hoperands hoperators
      refine ⟨hnode op _ _ (hoperators (op, precedence) (by simp)), hleft ?_ ?_, hright ?_ ?_⟩
      · exact fun operand h => hoperands operand (Or.inl h)
      · exact fun operator h => hoperators operator (Or.inl h)
      · exact fun operand h => hoperands operand (Or.inr h)
      · exact fun operator h => hoperators operator (Or.inr (Or.inr h))

end OperatorTree

namespace Grammar

/-- A property that a node has if the words that it is made of fit, whatever its parts are. -/
structure Warrants (ops : OperatorTable) (fits : Lexeme → Prop) (P : Expr → Prop) : Prop where
  number : ∀ value, fits (.number value) → P (.number value)
  var : ∀ name, fits (.identifier name) → P (.var name)
  unary : ∀ op operand, fits (.symbol op) → op ≠ '(' → op ≠ ',' → P (.unary op operand)
  binary : ∀ op left right, fits (.symbol op) → ops.Declares op → P (.binary op left right)
  call : ∀ name args, fits (.identifier name) → P (.call name args)
  cond : ∀ condition thenBranch elseBranch, P (.cond condition thenBranch elseBranch)
  loop : ∀ name start finish step body, fits (.identifier name) →
    P (.loop name start finish step body)
  locals : ∀ bindings body, bindings ≠ [] →
    (∀ binding ∈ bindings, fits (.identifier binding.1)) → P (.locals bindings body)

variable {ops : OperatorTable} {fits : Lexeme → Prop} {P : Expr → Prop}

theorem SpellsBindings.ne_nil {words : List Lexeme} {bindings : List (String × Option Expr)}
    {next : Option Lexeme} (h : SpellsBindings ops words bindings next) : bindings ≠ [] := by
  cases h <;> simp

mutual

/-- **What fitting words warrant holds everywhere in what they spell.** -/
theorem Spells.everywhere (hP : Warrants ops fits P) {words : List Lexeme} {e : Expr}
    {next : Option Lexeme} :
    Spells ops words e next → (∀ word ∈ words, fits word) → e.Everywhere P
  | .grouped chain _, hwords =>
    have hchain := chain.everywhere hP hwords
    OperatorTree.everywhere_toExpr (fun op => fits (.symbol op) ∧ ops.Declares op)
      (fun op left right hop => hP.binary op left right hop.1 hop.2) hchain.1 hchain.2

theorem SpellsChain.everywhere (hP : Warrants ops fits P) {words : List Lexeme}
    {operands : List Expr} {operators : List (Char × Int)} {next : Option Lexeme} :
    SpellsChain ops words operands operators next → (∀ word ∈ words, fits word) →
      (∀ operand ∈ operands, operand.Everywhere P) ∧
        ∀ operator ∈ operators, fits (.symbol operator.1) ∧ ops.Declares operator.1
  | .last operand _, hwords =>
    ⟨List.forall_mem_singleton.mpr (operand.everywhere hP hwords), by simp⟩
  | .link operand declared others, hwords => by
    obtain ⟨hwords, hop, hwords'⟩ := List.forall_mem_append.mp hwords |>.imp_right
      List.forall_mem_cons.mp
    have hothers := others.everywhere hP hwords'
    exact ⟨List.forall_mem_cons.mpr ⟨operand.everywhere hP hwords, hothers.1⟩,
      List.forall_mem_cons.mpr ⟨⟨hop, _, declared⟩, hothers.2⟩⟩

theorem SpellsOperand.everywhere (hP : Warrants ops fits P) {words : List Lexeme} {e : Expr}
    {next : Option Lexeme} :
    SpellsOperand ops words e next → (∀ word ∈ words, fits word) → e.Everywhere P
  | .primary primary, hwords => primary.everywhere hP hwords
  | .unary opens separates operand, hwords => by
    obtain ⟨hop, hwords⟩ := List.forall_mem_cons.mp hwords
    exact ⟨hP.unary _ _ hop opens separates, operand.everywhere hP hwords⟩

theorem SpellsPrimary.everywhere (hP : Warrants ops fits P) {words : List Lexeme} {e : Expr}
    {next : Option Lexeme} :
    SpellsPrimary ops words e next → (∀ word ∈ words, fits word) → e.Everywhere P
  | .number, hwords => hP.number _ (hwords _ List.mem_cons_self)
  | .var _, hwords => hP.var _ (hwords _ List.mem_cons_self)
  | .callNothing, hwords => ⟨hP.call _ _ (hwords _ List.mem_cons_self), trivial⟩
  | .call _ arguments, hwords => by
    simp only [List.forall_mem_cons, List.forall_mem_append] at hwords
    obtain ⟨hname, -, hwords, -⟩ := hwords
    exact ⟨hP.call _ _ hname, arguments.everywhere hP hwords⟩
  | .paren inner, hwords => by
    simp only [List.forall_mem_cons, List.forall_mem_append] at hwords
    exact inner.everywhere hP hwords.2.1
  | .cond tests holds fails, hwords => by
    simp only [List.forall_mem_cons, List.forall_mem_append] at hwords
    obtain ⟨-, hif, -, hthen, -, helse⟩ := hwords
    exact ⟨hP.cond _ _ _, tests.everywhere hP hif, holds.everywhere hP hthen,
      fails.everywhere hP helse⟩
  | .loop starts finishes steps repeats, hwords => by
    simp only [List.forall_mem_cons, List.forall_mem_append] at hwords
    obtain ⟨-, hname, -, hstart, -, hfinish, hstep, -, hbody⟩ := hwords
    exact ⟨hP.loop _ _ _ _ _ hname, starts.everywhere hP hstart, finishes.everywhere hP hfinish,
      steps.everywhere hP hstep, repeats.everywhere hP hbody⟩
  | .locals binds follows, hwords => by
    simp only [List.forall_mem_cons, List.forall_mem_append] at hwords
    obtain ⟨-, hbindings, -, hbody⟩ := hwords
    have hbinds := binds.everywhere hP hbindings
    exact ⟨hP.locals _ _ binds.ne_nil hbinds.1, hbinds.2, follows.everywhere hP hbody⟩

theorem SpellsArguments.everywhere (hP : Warrants ops fits P) {words : List Lexeme}
    {args : List Expr} {next : Option Lexeme} :
    SpellsArguments ops words args next → (∀ word ∈ words, fits word) →
      Expr.EverywhereIn P args
  | .last arg, hwords => ⟨arg.everywhere hP hwords, trivial⟩
  | .more arg others, hwords => by
    simp only [List.forall_mem_cons, List.forall_mem_append] at hwords
    exact ⟨arg.everywhere hP hwords.1, others.everywhere hP hwords.2.2⟩

theorem SpellsOptional.everywhere (hP : Warrants ops fits P) {c : Char} {words : List Lexeme}
    {value? : Option Expr} {next : Option Lexeme} :
    SpellsOptional ops c words value? next → (∀ word ∈ words, fits word) →
      Expr.EverywhereIf P value?
  | .missing _, _ => trivial
  | .present value, hwords => value.everywhere hP (List.forall_mem_cons.mp hwords).2

theorem SpellsBindings.everywhere (hP : Warrants ops fits P) {words : List Lexeme}
    {bindings : List (String × Option Expr)} {next : Option Lexeme} :
    SpellsBindings ops words bindings next → (∀ word ∈ words, fits word) →
      (∀ binding ∈ bindings, fits (.identifier binding.1)) ∧ Expr.EverywhereBound P bindings
  | .last initially _, hwords => by
    obtain ⟨hname, hwords⟩ := List.forall_mem_cons.mp hwords
    exact ⟨List.forall_mem_singleton.mpr hname, initially.everywhere hP hwords, trivial⟩
  | .more initially others, hwords => by
    simp only [List.forall_mem_cons, List.forall_mem_append] at hwords
    obtain ⟨hname, hvalue, -, hwords⟩ := hwords
    have hothers := others.everywhere hP hwords
    exact ⟨List.forall_mem_cons.mpr ⟨hname, hothers.1⟩, initially.everywhere hP hvalue,
      hothers.2⟩

end

/-- The operators of an expression are declared, whatever the words are. -/
theorem Spells.declared {words : List Lexeme} {e : Expr} {next : Option Lexeme}
    (h : Spells ops words e next) : e.Everywhere (Expr.Infix ops.Declares) := by
  -- nothing is asked of other nodes, and the grammar has declared operators only
  have hP : Warrants ops (fun _ => True) (Expr.Infix ops.Declares) := by
    constructor <;> intros <;> trivial
  exact h.everywhere hP fun _ _ => trivial

/-- A prototype of an operator has a parameter for each operand. -/
theorem SpellsPrototype.length_params {words : List Lexeme} {head : Prototype}
    {next : Option Lexeme} (h : SpellsPrototype words head next) :
    ∀ n ∈ head.kind.operands?, head.params.length = n := by
  cases h <;> simp [PrototypeKind.operands?]

end Grammar

end Reckon
