import Reckon.Proofs.Grammar.Precedence

/-!
# Chains of operators, read whole

Where an operand is followed by operators and operands and then by no further
operator, `Grammar.chain` reads all of them, and nothing else makes it yield an
expression (`Grammar.expression_yields_iff`).  In one direction the tree that is
built goes on from the one before it (`chain_grows`); this holds for every table
of operators, since the bounds a run raises need not be entries of a table here.
In the other direction a chain cannot stop at a mistake where its operands are
read (`chain_yields`), and the tokens decide the links (`Links.unique`), so the
tree it builds is the only one that groups them.
-/

namespace Reckon

namespace Tokens

variable {ts : Tokens} {ops : OperatorTable}

theorem operator?_eq_none :
    ts.operator? ops = none ↔
      ∀ op, ts.lexeme? = some (.symbol op) → ops.precedence? op = none := by
  constructor
  · intro h op hop
    cases hp : ops.precedence? op with
    | none => rfl
    | some precedence =>
        rw [operator?_eq_some.mpr ⟨hop, hp⟩] at h
        cases h
  · intro h
    cases hfound : ts.operator? ops with
    | none => rfl
    | some found =>
        obtain ⟨hlexeme, hp⟩ := operator?_eq_some.mp hfound
        rw [h _ hlexeme] at hp
        cases hp

end Tokens

namespace Grammar

open Parsed

variable {ops : OperatorTable} {least : Int} {left e : Expr} {ts mid rest : Tokens}

/-- What `chain` yields goes on from any grouped tree of the expression on the
left whose root is not looser than the operator after it. -/
theorem chain_grows {least : Int} {left e : Expr} {ts rest : Tokens}
    (h : (chain ops least left ts).Yields e rest) (before : OperatorTree)
    (hleft : before.toExpr = left) (hgrouped : before.Grouped)
    (hroot : ∀ p ∈ before.root?, ts.LooserThan ops p) :
    ∃ after : OperatorTree, after.toExpr = e ∧ Grows ops least before ts after rest := by
  subst hleft
  have hstop (hbelow : ∀ found, ts.operator? ops = some found → found.2 < least) :
      Grows ops least before ts before ts :=
    ⟨hgrouped, ⟨[], .done _, by simp, by simp, by simp⟩, hbelow⟩
  unfold chain at h
  split at h
  · next hnone =>
      obtain ⟨rfl, rfl⟩ := here_yields.mp h
      exact ⟨before, rfl, hstop fun found hfound => by simp [hnone] at hfound⟩
  · next op precedence hop =>
      have htail := Tokens.size_tail_of_operator? hop
      split at h
      · next hbelow =>
          obtain ⟨rfl, rfl⟩ := here_yields.mp h
          refine ⟨before, rfl, hstop fun found hfound => ?_⟩
          cases hop.symm.trans hfound
          exact hbelow
      · next hreaches =>
          rw [behind_yields, relax_yields] at h
          obtain ⟨right, mid, _, hright, h⟩ := andThen_yields h
          obtain ⟨inner, last, _, hinner, h⟩ := andThen_yields h
          have hclaimed : ∃ tree : OperatorTree, tree.toExpr = inner ∧
              Grows ops (precedence + 1) (.leaf right) mid tree last := by
            split at hinner
            · exact chain_grows hinner (.leaf right) rfl trivial (fun p hp => by cases hp)
            · next hlooser =>
                obtain ⟨rfl, rfl⟩ := here_yields.mp hinner
                exact ⟨.leaf _, rfl, .single
                  (Tokens.yieldsTighter_eq_false.mp (by simpa using hlooser))⟩
          obtain ⟨tree, rfl, htree⟩ := hclaimed
          exact Grows.extend hop (Int.not_lt.mp hreaches) hright htree hgrouped hroot
            fun node hnode => chain_grows h node hnode
termination_by ts.size

/-- The token before a link is its operator. -/
theorem Links.operator {link : Link} {links : List Link}
    (h : Links ops ts (link :: links) rest) :
    ts.operator? ops = some (link.op, link.precedence) := by
  cases h with
  | link pending sign declared reads others =>
      refine Tokens.operator?_eq_some.mpr ⟨?_, declared⟩
      simp [Tokens.lexeme?, Tokens.head?, pending, Link.consumed, sign]

/-- Some tokens are read as links up to a token that is no operator in one way
only. -/
theorem Links.unique {links links' : List Link} {rest rest' : Tokens}
    (h : Links ops ts links rest) (h' : Links ops ts links' rest')
    (hends : rest.operator? ops = none) (hends' : rest'.operator? ops = none) :
    links = links' ∧ rest = rest' := by
  induction h generalizing links' with
  | done ts =>
      cases links' with
      | nil =>
          cases h'
          exact ⟨rfl, rfl⟩
      | cons link' others' =>
          rw [h'.operator] at hends
          cases hends
  | @link ts mid rest link links pending sign declared reads others ih =>
      have hoperator := (Links.link pending sign declared reads others).operator
      cases h' with
      | done =>
          rw [hoperator] at hends'
          cases hends'
      | @link _ mid' _ link' links' pending' sign' declared' reads' others' =>
          obtain ⟨hoperand, rfl⟩ := reads.unique reads'
          obtain ⟨rfl, rfl⟩ := ih others' hends
          have hconsumed : link.consumed = link'.consumed :=
            List.append_cancel_right (pending.symm.trans pending')
          obtain ⟨hsign, htokens⟩ := List.cons.inj hconsumed
          have hop : link.op = link'.op :=
            Lexeme.symbol.inj (sign.symm.trans ((congrArg Token.lexeme hsign).trans sign'))
          have hprecedence : link.precedence = link'.precedence := by
            rw [hop] at declared
            exact Option.some.inj (declared.symm.trans declared')
          refine ⟨?_, rfl⟩
          congr 1
          cases link
          cases link'
          simp_all

/-- Where links are read, a chain yields something and leaves links.  The
induction is on the number of links; what a raised bound claims is fewer. -/
theorem chain_yields {links : List Link} (h : Links ops ts links rest)
    (hends : rest.operator? ops = none) (least : Int) (left : Expr) :
    ∃ e mid others, (chain ops least left ts).Yields e mid ∧ Links ops mid others rest ∧
      others.length ≤ links.length := by
  obtain ⟨n, hn⟩ : ∃ n, links.length ≤ n := ⟨_, Nat.le_refl _⟩
  induction n generalizing ts links least left with
  | zero =>
      obtain rfl : links = [] := List.length_eq_zero_iff.mp (by omega)
      cases h with
      | done =>
        refine ⟨left, rest, [], ?_, .done rest, Nat.le_refl _⟩
        unfold chain
        split
        · exact here_yields.mpr ⟨rfl, rfl⟩
        · next hop =>
            rw [hends] at hop
            cases hop
  | succ n ih =>
      cases h with
      | done =>
        exact ih (.done rest) least left (by simp)
      | @link _ mid _ link links pending sign declared reads others =>
        have hoperator := (Links.link pending sign declared reads others).operator
        rw [List.length_cons] at hn
        unfold chain
        split
        · next hnone =>
            rw [hoperator] at hnone
            cases hnone
        · next op precedence hop =>
            obtain ⟨rfl, rfl⟩ := Prod.mk.inj (Option.some.inj (hoperator.symm.trans hop))
            split
            · exact ⟨left, ts, _, here_yields.mpr ⟨rfl, rfl⟩,
                .link pending sign declared reads others, Nat.le_refl _⟩
            · have hclaimed : ∃ inner last claimed,
                  (if mid.yieldsTighter ops link.precedence then
                    chain ops (link.precedence + 1) link.operand mid
                    else .here link.operand mid).Yields inner last ∧
                    Links ops last claimed rest ∧ claimed.length ≤ links.length := by
                split
                · exact ih others _ _ (by omega)
                · exact ⟨link.operand, mid, links, here_yields.mpr ⟨rfl, rfl⟩, others,
                    Nat.le_refl _⟩
              obtain ⟨inner, last, claimed, hinner, hclaimed, hle⟩ := hclaimed
              obtain ⟨e, left', others', he, hothers', hle'⟩ :=
                ih hclaimed least (.binary link.op left inner) (by omega)
              refine ⟨e, left', others', ?_, hothers', by rw [List.length_cons]; omega⟩
              rw [behind_yields, relax_yields]
              exact reads.andThen (hinner.andThen he)

/-- No declared operator is below the bound that an expression starts with. -/
theorem operator?_eq_none_of_below
    (h : ∀ found, rest.operator? ops = some found → found.2 < 0) : rest.operator? ops = none := by
  cases hnext : rest.operator? ops with
  | none => rfl
  | some found =>
      have hbelow := h found hnext
      obtain ⟨-, hpositive⟩ := Option.filter_eq_some_iff.mp (Tokens.operator?_eq_some.mp hnext).2
      have hpos : 0 < found.2 := of_decide_eq_true hpositive
      omega

/-- **An expression is an operand and all the links after it, grouped by
precedence.** -/
theorem expression_yields_iff :
    (expression ops ts).Yields e rest ↔
      ∃ first mid links tree, (operand ops ts).Yields first mid ∧ Links ops mid links rest ∧
        rest.operator? ops = none ∧ Spans tree first links ∧ tree.Grouped ∧ tree.toExpr = e := by
  constructor
  · intro h
    unfold expression at h
    obtain ⟨first, mid, -, hfirst, hchain⟩ := andThen_yields h
    obtain ⟨tree, hexpr, hgrows⟩ := chain_grows hchain (.leaf first) rfl trivial
      (fun p hp => by cases hp)
    obtain ⟨links, hlinks, hoperands, hoperators, -⟩ := hgrows.reads
    exact ⟨first, mid, links, tree, hfirst, hlinks, operator?_eq_none_of_below hgrows.stops,
      ⟨hoperands, hoperators⟩, hgrows.grouped, hexpr⟩
  · intro h
    obtain ⟨first, mid, links, tree, hfirst, hlinks, hends, hspans, hgrouped, rfl⟩ := h
    obtain ⟨e, last, -, he, -, -⟩ := chain_yields hlinks hends 0 first
    obtain ⟨tree', rfl, hgrows⟩ := chain_grows he (.leaf first) rfl trivial
      (fun p hp => by cases hp)
    obtain ⟨links', hlinks', hoperands, hoperators, -⟩ := hgrows.reads
    obtain ⟨rfl, rfl⟩ := hlinks'.unique hlinks (operator?_eq_none_of_below hgrows.stops) hends
    have htree : tree' = tree := hgrows.grouped.unique hgrouped
      (hoperands.trans hspans.operands.symm) (hoperators.trans hspans.operators.symm)
    unfold expression
    exact hfirst.andThen (htree ▸ he)

end Grammar

end Reckon
