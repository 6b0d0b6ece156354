import Mathlib.Data.List.Basic
import Reckon.Proofs.Grammar.OperatorTree
import Reckon.Proofs.Grammar.Readers
import Reckon.Token.Cursor

/-!
# Precedence climbing

A chain of operands and infix operators is read by `Grammar.chain`, which calls
itself with a raised bound where an operator yields its right operand to a
tighter one.  `Climbs` spells such a run out, with the fact that every raised
bound is still an entry that a table can hold.  By induction over the run, the
tree it builds is grouped by precedence and the operands and operators are those
of the tokens in their order (`Climbs.grows`).  Since a chain is grouped in one
way only, this says which tree an expression is (`Grammar.expression_grouped`).
-/

namespace Reckon

namespace OperatorTable

/-- The tables that installing and restoring operators leads to.  An entry put
back is one that a table can hold. -/
inductive Attained : OperatorTable → Prop where
  | empty : Attained .empty
  | builtins : Attained .builtins
  | install {ops : OperatorTable} (op : Char) (precedence : Nat) (attained : ops.Attained) :
      Attained (ops.install op precedence).1
  | restore {ops : OperatorTable} (op : Char) (previous : Option Int)
      (fits : ∀ p ∈ previous, p ≤ greatestEntry) (attained : ops.Attained) :
      Attained (ops.restore op previous)

theorem Attained.find?_le {ops : OperatorTable} (h : ops.Attained) {op : Char} {p : Int}
    (hfind : ops.table.find? op = some p) : p ≤ greatestEntry := by
  induction h with
  | empty => simp [OperatorTable.empty] at hfind
  | builtins =>
      have hentries : ∀ entry ∈ OperatorTable.builtins.table.entries,
          entry.2 ≤ (greatestEntry : Int) := by decide
      exact hentries _ (Table.mem_entries_of_find? hfind)
  | install op' precedence attained ih =>
      rw [OperatorTable.install, Table.find?_insert] at hfind
      split at hfind
      · cases hfind
        exact Int.min_le_right _ _
      · exact ih hfind
  | restore op' previous fits attained ih =>
      rw [OperatorTable.restore, Table.find?_restore] at hfind
      split at hfind
      · exact fits p hfind
      · exact ih hfind

/-- A declared operator has a positive precedence that fits an entry. -/
theorem Attained.precedence?_bounds {ops : OperatorTable} (h : ops.Attained) {op : Char} {p : Int}
    (hop : ops.precedence? op = some p) : 0 < p ∧ p ≤ greatestEntry := by
  obtain ⟨hfind, hpos⟩ := Option.filter_eq_some_iff.mp hop
  exact ⟨of_decide_eq_true hpos, h.find?_le hfind⟩

end OperatorTable

namespace Tokens

variable {ts : Tokens} {ops : OperatorTable}

/-- The current token is an infix operator if it is a symbol that the table
declares. -/
theorem operator?_eq_some {op : Char} {precedence : Int} :
    ts.operator? ops = some (op, precedence) ↔
      ts.lexeme? = some (.symbol op) ∧ ops.precedence? op = some precedence := by
  unfold operator?
  split
  · next c hc =>
      rw [hc]
      constructor
      · intro h
        obtain ⟨p, hp, heq⟩ := Option.map_eq_some_iff.mp h
        cases heq
        exact ⟨rfl, hp⟩
      · intro h
        obtain ⟨heq, hp⟩ := h
        cases heq
        simp [hp]
  · next hother =>
      constructor
      · intro h
        cases h
      · intro h
        exact absurd h.1 (hother op)

/-- No infix operator at the current token binds tighter than this. -/
def LooserThan (ts : Tokens) (ops : OperatorTable) (precedence : Int) : Prop :=
  ∀ found, ts.operator? ops = some found → found.2 ≤ precedence

theorem yieldsTighter_eq_true {precedence : Int} :
    ts.yieldsTighter ops precedence = true ↔
      ∃ found, ts.operator? ops = some found ∧ precedence < found.2 := by
  unfold yieldsTighter
  cases ts.operator? ops with
  | none => simp
  | some found => simp

theorem yieldsTighter_eq_false {precedence : Int} :
    ts.yieldsTighter ops precedence = false ↔ ts.LooserThan ops precedence := by
  unfold yieldsTighter LooserThan
  cases ts.operator? ops with
  | none => simp
  | some found => simp

/-- An operator that yields to a tighter one is not as tight as an entry can
be, so the bound above it is one that an entry can reach. -/
theorem succ_le_greatestEntry (hops : ops.Attained) {precedence : Int}
    (h : ts.yieldsTighter ops precedence = true) :
    precedence + 1 ≤ OperatorTable.greatestEntry := by
  obtain ⟨found, hfound, hlt⟩ := yieldsTighter_eq_true.mp h
  obtain ⟨-, hle⟩ := hops.precedence?_bounds (operator?_eq_some.mp hfound).2
  omega

end Tokens

namespace Grammar

open Parsed

/-- A run of `chain`, from the expression on the left to the one it yields. -/
inductive Climbs (ops : OperatorTable) : Int → Expr → Tokens → Expr → Tokens → Prop where
  /-- The current token is no operator, or a looser one than the bound. -/
  | stop {least : Int} {left : Expr} {ts : Tokens}
      (below : ∀ found, ts.operator? ops = some found → found.2 < least) :
      Climbs ops least left ts left ts
  /-- An operator takes the operand after it. -/
  | fold {least precedence : Int} {op : Char} {left right e : Expr} {ts mid rest : Tokens}
      (operator : ts.operator? ops = some (op, precedence)) (reaches : least ≤ precedence)
      (reads : (operand ops ts.tail).Yields right mid) (looser : mid.LooserThan ops precedence)
      (continues : Climbs ops least (.binary op left right) mid e rest) :
      Climbs ops least left ts e rest
  /-- An operator takes what tighter operators make of the operand after it. -/
  | climb {least precedence : Int} {op : Char} {left right inner e : Expr}
      {ts mid last rest : Tokens}
      (operator : ts.operator? ops = some (op, precedence)) (reaches : least ≤ precedence)
      (reads : (operand ops ts.tail).Yields right mid)
      (tighter : mid.yieldsTighter ops precedence = true)
      (fits : precedence + 1 ≤ OperatorTable.greatestEntry)
      (climbs : Climbs ops (precedence + 1) right mid inner last)
      (continues : Climbs ops least (.binary op left inner) last e rest) :
      Climbs ops least left ts e rest

variable {ops : OperatorTable} {least : Int} {left e : Expr} {ts rest : Tokens}

/-- A chain that is read is a run.  The recursion is the one of `chain`. -/
theorem chain_climbs (hops : ops.Attained) {least : Int} {left e : Expr} {ts rest : Tokens}
    (h : (chain ops least left ts).Yields e rest) : Climbs ops least left ts e rest := by
  unfold chain at h
  split at h
  · next hnone =>
      obtain ⟨rfl, rfl⟩ := here_yields.mp h
      refine .stop fun found hfound => ?_
      rw [hnone] at hfound
      cases hfound
  · next op precedence hop =>
      have htail := Tokens.size_tail_of_operator? hop
      split at h
      · next hbelow =>
          obtain ⟨rfl, rfl⟩ := here_yields.mp h
          refine .stop fun found hfound => ?_
          rw [hop] at hfound
          cases hfound
          exact hbelow
      · next hreaches =>
          rw [behind_yields, relax_yields] at h
          obtain ⟨right, mid, _, hright, h⟩ := andThen_yields h
          obtain ⟨inner, last, _, hinner, h⟩ := andThen_yields h
          have hcontinues := chain_climbs hops h
          split at hinner
          · next htighter =>
              have hclimbs := chain_climbs hops hinner
              exact .climb hop (Int.not_lt.mp hreaches) hright htighter
                (Tokens.succ_le_greatestEntry hops htighter) hclimbs hcontinues
          · next hlooser =>
              obtain ⟨rfl, rfl⟩ := here_yields.mp hinner
              exact .fold hop (Int.not_lt.mp hreaches) hright
                (Tokens.yieldsTighter_eq_false.mp (by simpa using hlooser)) hcontinues
termination_by ts.size

/-- An infix operator and the operand after it. -/
structure Link where
  /-- The token of the operator. -/
  sign : Token
  op : Char
  precedence : Int
  /-- The tokens of the operand. -/
  tokens : List Token
  operand : Expr

/-- The tokens of an operator and of the operand after it. -/
def Link.consumed (link : Link) : List Token := link.sign :: link.tokens

/-- From these tokens on, links are read one after the other. -/
inductive Links (ops : OperatorTable) : Tokens → List Link → Tokens → Prop where
  | done (ts : Tokens) : Links ops ts [] ts
  | link {ts mid rest : Tokens} {link : Link} {links : List Link}
      (pending : ts.pending = link.consumed ++ mid.pending)
      (sign : link.sign.lexeme = .symbol link.op)
      (declared : ops.precedence? link.op = some link.precedence)
      (reads : (operand ops ts.tail).Yields link.operand mid) (others : Links ops mid links rest) :
      Links ops ts (link :: links) rest

theorem Links.trans {mid : Tokens} {links links' : List Link} (h : Links ops ts links mid)
    (h' : Links ops mid links' rest) : Links ops ts (links ++ links') rest := by
  induction h with
  | done ts => exact h'
  | link pending sign declared reads others ih =>
      exact .link pending sign declared reads (ih h')

/-- The tokens of the links are the ones that were read. -/
theorem Links.pending_eq {links : List Link} (h : Links ops ts links rest) :
    ts.pending = links.flatMap Link.consumed ++ rest.pending := by
  induction h with
  | done ts => rfl
  | link pending sign declared reads others ih =>
      rw [pending, ih, List.flatMap_cons, List.append_assoc]

/-- An operator and the operand after it are a link. -/
theorem Links.of_operator {op : Char} {precedence : Int} {right : Expr} {mid : Tokens}
    (hop : ts.operator? ops = some (op, precedence))
    (hreads : (operand ops ts.tail).Yields right mid) :
    ∃ link : Link, link.op = op ∧ link.precedence = precedence ∧ link.operand = right ∧
      Links ops ts [link] mid := by
  obtain ⟨hlexeme, hdeclared⟩ := Tokens.operator?_eq_some.mp hop
  obtain ⟨tokens, htokens⟩ := (readers ops ts.tail).operand.of_yields hreads
  obtain ⟨sign, hsign, hsymbol⟩ := Option.map_eq_some_iff.mp hlexeme
  refine ⟨⟨sign, op, precedence, tokens, right⟩, rfl, rfl, rfl, ?_⟩
  refine .link ?_ hsymbol hdeclared hreads (.done mid)
  have hpending : ts.pending = sign :: ts.tail.pending :=
    (List.eq_cons_of_mem_head? hsign)
  rw [hpending, ← htokens]
  rfl

/-- The operator and its precedence. -/
def Link.operator (link : Link) : Char × Int := (link.op, link.precedence)

/-- A tree goes on from another over the tokens in between: it is grouped by
precedence, has the operators and operands of these tokens behind those of the
other tree, all of them within the bound, and ends where an operator below the
bound or none stands. -/
structure Grows (ops : OperatorTable) (least : Int) (before : OperatorTree) (ts : Tokens)
    (after : OperatorTree) (rest : Tokens) : Prop where
  grouped : after.Grouped
  reads : ∃ links, Links ops ts links rest ∧
    after.operands = before.operands ++ links.map Link.operand ∧
    after.operators = before.operators ++ links.map Link.operator ∧
    ∀ link ∈ links, least ≤ link.precedence
  stops : ∀ found, rest.operator? ops = some found → found.2 < least

/-- The tree that an operator makes of a grouped tree and a grouped tree of
tighter operators. -/
theorem Grows.node {op : Char} {precedence : Int} {right : Expr} {before inner after : OperatorTree}
    {mid last : Tokens} (hop : ts.operator? ops = some (op, precedence))
    (hreaches : least ≤ precedence) (hreads : (operand ops ts.tail).Yields right mid)
    (hinner : Grows ops (precedence + 1) (.leaf right) mid inner last)
    (hafter : Grows ops least (.node op precedence before inner) last after rest) :
    Grows ops least before ts after rest := by
  obtain ⟨link, rfl, rfl, rfl, hlink⟩ := Links.of_operator hop hreads
  obtain ⟨links, hlinks, hoperands, hoperators, hbound⟩ := hinner.reads
  obtain ⟨others, hothers, hoperands', hoperators', hbound'⟩ := hafter.reads
  refine ⟨hafter.grouped, ⟨link :: (links ++ others), hlink.trans (hlinks.trans hothers), ?_, ?_,
    ?_⟩, hafter.stops⟩
  · simp [hoperands', OperatorTree.operands, hoperands]
  · simp [hoperators', OperatorTree.operators, hoperators, Link.operator]
  · intro found hfound
    rcases List.mem_cons.mp hfound with rfl | hmem
    · exact hreaches
    · rcases List.mem_append.mp hmem with hmem | hmem
      · have htight := hbound found hmem
        omega
      · exact hbound' found hmem

/-- What tighter operators make of one operand is a tree of tighter operators. -/
theorem Grows.root_le {right : Expr} {inner : OperatorTree}
    (h : Grows ops least (.leaf right) ts inner rest) : ∀ p ∈ inner.root?, least ≤ p := by
  intro p hp
  obtain ⟨links, -, -, hoperators, hbound⟩ := h.reads
  obtain ⟨op, hmem⟩ := OperatorTree.mem_operators_of_root? hp
  rw [hoperators] at hmem
  obtain ⟨link, hlink, heq⟩ := List.mem_map.mp hmem
  cases heq
  exact hbound link hlink

/-- An operand that no tighter operator claims is a tree by itself. -/
theorem Grows.single {right : Expr} {precedence : Int} (h : ts.LooserThan ops precedence) :
    Grows ops (precedence + 1) (.leaf right) ts (.leaf right) ts := by
  refine ⟨trivial, ⟨[], .done _, rfl, rfl, by simp⟩, fun found hfound => ?_⟩
  have hle := h found hfound
  omega

/-- An operator goes on from a grouped tree whose root is not looser, if what
follows goes on from the tree that it makes. -/
theorem Grows.extend {op : Char} {precedence : Int} {right : Expr} {before inner : OperatorTree}
    {mid last : Tokens} (hop : ts.operator? ops = some (op, precedence))
    (hreaches : least ≤ precedence) (hreads : (operand ops ts.tail).Yields right mid)
    (hinner : Grows ops (precedence + 1) (.leaf right) mid inner last)
    (hgrouped : before.Grouped) (hroot : ∀ p ∈ before.root?, ts.LooserThan ops p)
    (hcontinues : ∀ node : OperatorTree, node.toExpr = .binary op before.toExpr inner.toExpr →
      node.Grouped → (∀ p ∈ node.root?, last.LooserThan ops p) →
      ∃ after : OperatorTree, after.toExpr = e ∧ Grows ops least node last after rest) :
    ∃ after : OperatorTree, after.toExpr = e ∧ Grows ops least before ts after rest := by
  have hnode : (OperatorTree.node op precedence before inner).Grouped :=
    ⟨fun p hp => hroot p hp _ hop, fun p hp => hinner.root_le p hp, hgrouped, hinner.grouped⟩
  obtain ⟨after, hexpr, hafter⟩ := hcontinues (.node op precedence before inner) rfl hnode
    (fun p hp found hfound => by
      cases hp
      have hlt := hinner.stops found hfound
      omega)
  exact ⟨after, hexpr, .node hop hreaches hreads hinner hafter⟩

/-- A run goes on from any grouped tree whose root is not looser than the
operator after it.  The induction is over the run; the tree is general because
each operator makes a larger one of it. -/
theorem Climbs.grows (h : Climbs ops least left ts e rest) (before : OperatorTree)
    (hleft : before.toExpr = left) (hgrouped : before.Grouped)
    (hroot : ∀ p ∈ before.root?, ts.LooserThan ops p) :
    ∃ after, after.toExpr = e ∧ Grows ops least before ts after rest := by
  induction h generalizing before with
  | stop below =>
      exact ⟨before, hleft, hgrouped, ⟨[], .done _, by simp, by simp, by simp⟩, below⟩
  | fold operator reaches reads looser continues ih =>
      subst hleft
      exact Grows.extend operator reaches reads (.single looser) hgrouped hroot ih
  | climb operator reaches reads tighter fits climbs continues ihInner ih =>
      subst hleft
      obtain ⟨tree, rfl, hinner⟩ := ihInner (.leaf _) rfl trivial (fun p hp => by cases hp)
      exact Grows.extend operator reaches reads hinner hgrouped hroot ih

/-- A tree stands over an operand and the links after it. -/
structure Spans (tree : OperatorTree) (first : Expr) (links : List Link) : Prop where
  operands : tree.operands = first :: links.map Link.operand
  operators : tree.operators = links.map Link.operator

/-- How an expression is read.  The tokens it takes are an operand and links of
operators and operands, no operator follows them, the expression is the one tree
that groups this chain by precedence, and the run that reads the chain raises
its bound within what an entry can hold. -/
structure Chained (ops : OperatorTable) (ts : Tokens) (e : Expr) (rest : Tokens)
    (tokens : List Token) (first : Expr) (mid : Tokens) (links : List Link)
    (tree : OperatorTree) : Prop where
  reads : (operand ops ts).Yields first mid
  pending : ts.pending = tokens ++ mid.pending
  linked : Links ops mid links rest
  consumed : ts.pending = tokens ++ links.flatMap Link.consumed ++ rest.pending
  ends : rest.operator? ops = none
  expr : tree.toExpr = e
  spans : Spans tree first links
  grouped : tree.Grouped
  unique : ∀ other, Spans other first links → other.Grouped → other = tree
  climbs : Climbs ops 0 first mid e rest

/-- **An expression is the one tree that groups its chain by precedence.**  The
expressions inside its operands are read in the same way. -/
theorem expression_grouped (hops : ops.Attained) (hread : (expression ops ts).Yields e rest) :
    ∃ tokens first mid links tree, Chained ops ts e rest tokens first mid links tree := by
  unfold expression at hread
  obtain ⟨first, mid, -, hfirst, hchain⟩ := andThen_yields hread
  have hclimbs := chain_climbs hops hchain
  obtain ⟨tokens, htokens⟩ := (readers ops ts).operand.of_yields hfirst
  obtain ⟨tree, hexpr, hgrows⟩ := hclimbs.grows (.leaf first) rfl trivial
    (fun p hp => by cases hp)
  obtain ⟨links, hlinks, hoperands, hoperators, -⟩ := hgrows.reads
  have hends : rest.operator? ops = none := by
    cases hnext : rest.operator? ops with
    | none => rfl
    | some found =>
        -- the bound is zero, and every declared operator is above it
        have hbelow := hgrows.stops found hnext
        have hpositive := hops.precedence?_bounds (Tokens.operator?_eq_some.mp hnext).2
        omega
  refine ⟨tokens, first, mid, links, tree, hfirst, htokens.symm, hlinks, ?_, hends, hexpr,
    ⟨hoperands, hoperators⟩, hgrows.grouped, ?_, hclimbs⟩
  · rw [List.append_assoc, ← hlinks.pending_eq, htokens]
  · intro other hspans hgrouped
    exact hgrouped.unique hgrows.grouped (hspans.operands.trans hoperands.symm)
      (hspans.operators.trans hoperators.symm)

/-- Subtraction groups to the left and yields to multiplication. -/
theorem expression_grouped_difference :
    OperatorTable.builtins.Attained ∧ ∃ rest e,
      (expression .builtins (.ofString "a-b*c-d")).Yields e rest ∧
        e = .binary '-' (.binary '-' (.var "a") (.binary '*' (.var "b") (.var "c"))) (.var "d") ∧
        ∃ tokens first mid links tree,
          Chained .builtins (.ofString "a-b*c-d") e rest tokens first mid links tree := by
  have hread : (expression .builtins (.ofString "a-b*c-d")).Yields
      (.binary '-' (.binary '-' (.var "a") (.binary '*' (.var "b") (.var "c"))) (.var "d"))
      ⟨[], ⟨7, 7, 1, 7⟩⟩ :=
    ⟨by decide +kernel, by with_unfolding_all rfl⟩
  exact ⟨.builtins, _, _, hread, rfl, expression_grouped .builtins hread⟩

end Grammar

end Reckon
