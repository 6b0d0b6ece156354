import Reckon.Grammar.Expression

/-!
# What readers consume

A reader takes tokens from the front and leaves the others as they are, whether
it yields a value or stops at a mistake (`Parsed.Advances`).  The readers of the
grammar call each other, so that they do is proved of all of them at once, by
induction on the number of tokens (`Grammar.readers`).
-/

namespace Reckon

namespace Parsed

variable {α β : Type} {gain cost : Nat} {start mid : Tokens}

/-- A value was read, and some tokens are left. -/
def Yields (p : Parsed α gain start) (value : α) (rest : Tokens) : Prop :=
  ∃ bound, p = .ok value rest bound

@[simp] theorem here_yields {value other : α} {ts rest : Tokens} :
    (here value ts).Yields other rest ↔ other = value ∧ rest = ts := by
  constructor
  · intro h
    obtain ⟨bound, h⟩ := h
    cases h
    exact ⟨rfl, rfl⟩
  · intro h
    obtain ⟨rfl, rfl⟩ := h
    exact ⟨_, rfl⟩

@[simp] theorem relax_yields {p : Parsed α gain start} {value : α} {rest : Tokens} :
    p.relax.Yields value rest ↔ p.Yields value rest := by
  constructor
  · intro h
    obtain ⟨bound, h⟩ := h
    cases p with
    | ok found left reached =>
        cases h
        exact ⟨reached, rfl⟩
    | error problem left reached => cases h
  · intro h
    obtain ⟨bound, rfl⟩ := h
    exact ⟨_, rfl⟩

@[simp] theorem behind_yields {p : Parsed α gain mid} {reached : mid.size ≤ start.size}
    {value : α} {rest : Tokens} : (p.behind reached).Yields value rest ↔ p.Yields value rest := by
  constructor
  · intro h
    obtain ⟨bound, h⟩ := h
    cases p with
    | ok found left bound' =>
        cases h
        exact ⟨bound', rfl⟩
    | error problem left bound' => cases h
  · intro h
    obtain ⟨bound, rfl⟩ := h
    exact ⟨_, rfl⟩

/-- A sequence yields what its second part yields after its first one. -/
theorem andThen_yields {p : Parsed α gain start}
    {next : α → (rest : Tokens) → rest.size + gain ≤ start.size → Parsed β cost rest}
    {value : β} {rest : Tokens} (h : (p.andThen next).Yields value rest) :
    ∃ first mid reached, p.Yields first mid ∧ (next first mid reached).Yields value rest := by
  obtain ⟨bound, h⟩ := h
  unfold andThen at h
  split at h
  · next first mid reached =>
      split at h
      · next found left bound' hnext =>
          cases h
          exact ⟨first, mid, reached, ⟨reached, rfl⟩, bound', hnext⟩
      · cases h
  · cases h

theorem Yields.bound {p : Parsed α gain start} {value : α} {rest : Tokens}
    (h : p.Yields value rest) : rest.size + gain ≤ start.size := h.1

/-- A reader yields at most one value. -/
theorem Yields.unique {p : Parsed α gain start} {value other : α} {rest left : Tokens}
    (h : p.Yields value rest) (h' : p.Yields other left) : value = other ∧ rest = left := by
  obtain ⟨bound, rfl⟩ := h
  obtain ⟨bound', heq⟩ := h'
  cases heq
  exact ⟨rfl, rfl⟩

/-- A reader stops at a mistake exactly when it yields nothing. -/
theorem outcome_eq_error_iff {p : Parsed α gain start} :
    (∃ problem, p.outcome = .error problem) ↔ ¬∃ value rest, p.Yields value rest := by
  cases p with
  | ok value rest bound =>
      constructor
      · intro h
        obtain ⟨problem, h⟩ := h
        cases h
      · intro h
        exact absurd ⟨value, rest, bound, rfl⟩ h
  | error problem rest bound =>
      constructor
      · intro _ h
        obtain ⟨value, left, bound', h⟩ := h
        cases h
      · intro _
        exact ⟨problem, rfl⟩

@[simp] theorem taking_yields {lexeme : Lexeme} {value other : α} {ts rest : Tokens}
    {h : ts.lexeme? = some lexeme} :
    (taking value ts h).Yields other rest ↔ other = value ∧ rest = ts.tail := by
  constructor
  · intro hyields
    obtain ⟨bound, hyields⟩ := hyields
    cases hyields
    exact ⟨rfl, rfl⟩
  · intro hyields
    obtain ⟨rfl, rfl⟩ := hyields
    exact ⟨_, rfl⟩

@[simp] theorem not_refuse_yields {fault : SyntaxFault} {value : α} {ts rest : Tokens} :
    ¬(refuse fault ts : Parsed α gain ts).Yields value rest := by
  intro h
  obtain ⟨bound, h⟩ := h
  cases h

@[simp] theorem map_yields {p : Parsed α gain start} {f : α → β} {value : β} {rest : Tokens} :
    (p.map f).Yields value rest ↔ ∃ found, p.Yields found rest ∧ f found = value := by
  constructor
  · intro h
    obtain ⟨bound, h⟩ := h
    cases p with
    | ok found left reached =>
        cases h
        exact ⟨found, ⟨bound, rfl⟩, rfl⟩
    | error problem left reached => cases h
  · intro h
    obtain ⟨found, ⟨bound, rfl⟩, rfl⟩ := h
    exact ⟨bound, rfl⟩

/-- A sequence whose parts yield something yields what its second part does. -/
theorem Yields.andThen {p : Parsed α gain start} {first : α} {mid : Tokens}
    {next : α → (rest : Tokens) → rest.size + gain ≤ start.size → Parsed β cost rest}
    {value : β} {rest : Tokens} (h : p.Yields first mid)
    (hnext : (next first mid h.bound).Yields value rest) : (p.andThen next).Yields value rest := by
  obtain ⟨bound, rfl⟩ := h
  obtain ⟨bound', hfound⟩ := hnext
  refine ⟨by omega, ?_⟩
  simp only [Parsed.andThen, hfound]

/-- The tokens that are left are the last ones of those there were. -/
def Advances (p : Parsed α gain start) : Prop := p.rest.pending <:+ start.pending

theorem Advances.of_yields {p : Parsed α gain start} {value : α} {rest : Tokens}
    (hp : p.Advances) (h : p.Yields value rest) : rest.pending <:+ start.pending := by
  obtain ⟨bound, rfl⟩ := h
  exact hp

theorem advances_here (value : α) (ts : Tokens) : (here value ts).Advances :=
  List.suffix_refl _

theorem advances_taking {lexeme : Lexeme} (value : α) (ts : Tokens)
    (h : ts.lexeme? = some lexeme) : (taking value ts h).Advances :=
  List.tail_suffix _

theorem advances_refuse (fault : SyntaxFault) (ts : Tokens) :
    (refuse fault ts : Parsed α gain ts).Advances :=
  List.suffix_refl _

theorem Advances.behind {p : Parsed α gain mid} (hp : p.Advances)
    (hmid : mid.pending <:+ start.pending) (reached : mid.size ≤ start.size) :
    (p.behind reached).Advances := by
  cases p with
  | ok value rest bound => exact List.IsSuffix.trans hp hmid
  | error problem rest bound => exact List.IsSuffix.trans hp hmid

theorem Advances.andThen {p : Parsed α gain start} (hp : p.Advances)
    {next : α → (rest : Tokens) → rest.size + gain ≤ start.size → Parsed β cost rest}
    (hnext : ∀ value rest reached, (next value rest reached).Advances) :
    (p.andThen next).Advances := by
  cases p with
  | error problem rest bound => exact hp
  | ok value mid reached =>
      have hthen := hnext value mid reached
      unfold Parsed.andThen
      dsimp only
      split
      · next found rest bound hfound =>
          rw [hfound] at hthen
          exact List.IsSuffix.trans hthen hp
      · next problem rest bound hfound =>
          rw [hfound] at hthen
          exact List.IsSuffix.trans hthen hp

theorem Advances.relax {p : Parsed α gain start} (hp : p.Advances) : p.relax.Advances := by
  cases p with
  | ok value rest bound => exact hp
  | error problem rest bound => exact hp

theorem Advances.map {p : Parsed α gain start} (hp : p.Advances) (f : α → β) :
    (p.map f).Advances := by
  cases p with
  | ok value rest bound => exact hp
  | error problem rest bound => exact hp

end Parsed

namespace Grammar

open Parsed

variable {ops : OperatorTable} {ts : Tokens}

theorem advances_symbol (c : Char) (fault : SyntaxFault) (ts : Tokens) :
    (symbol c fault ts).Advances := by
  unfold symbol
  split
  · exact advances_taking _ _ _
  · exact advances_refuse _ _

theorem advances_keyword (word : Keyword) (fault : SyntaxFault) (ts : Tokens) :
    (keyword word fault ts).Advances := by
  unfold keyword
  split
  · exact advances_taking _ _ _
  · exact advances_refuse _ _

theorem advances_identifier (fault : SyntaxFault) (ts : Tokens) :
    (identifier fault ts).Advances := by
  unfold identifier
  split
  · exact advances_taking _ _ _
  · exact advances_refuse _ _

/-- Every reader takes tokens from the front. -/
structure Readers (ops : OperatorTable) (ts : Tokens) : Prop where
  expression : (expression ops ts).Advances
  operand : (operand ops ts).Advances
  chain : ∀ least left, (chain ops least left ts).Advances
  primary : (primary ops ts).Advances
  arguments : (arguments ops ts).Advances
  moreArguments : (moreArguments ops ts).Advances
  conditional : (conditional ops ts).Advances
  loop : (loop ops ts).Advances
  step : (step ops ts).Advances
  locals : (locals ops ts).Advances
  bindings : ∀ missing, (bindings ops missing ts).Advances
  initial : (initial ops ts).Advances

section Smaller

variable (hsmaller : ∀ rest : Tokens, rest.size < ts.size → Readers ops rest)

include hsmaller

theorem advances_chain (least : Int) (left : Expr) : (chain ops least left ts).Advances := by
  unfold chain
  split
  · exact advances_here _ _
  · next op precedence hop =>
      have htail := Tokens.size_tail_of_operator? hop
      split
      · exact advances_here _ _
      · refine Advances.behind (Advances.relax ?_) (List.tail_suffix _) _
        refine (hsmaller _ (by omega)).operand.andThen fun right rest _ => ?_
        refine Advances.andThen ?_ fun right last _ => (hsmaller _ (by omega)).chain _ _
        split
        · exact (hsmaller _ (by omega)).chain _ _
        · exact advances_here _ _

theorem advances_primary : (primary ops ts).Advances := by
  unfold primary
  split
  · exact advances_taking _ _ _
  · refine (advances_taking _ _ _).andThen fun _ rest _ => ?_
    split
    · refine Advances.relax ((advances_taking _ _ _).andThen fun _ last _ => ?_)
      exact (hsmaller _ (by omega)).arguments.map _
    · exact advances_here _ _
  · refine (advances_taking _ _ _).andThen fun _ rest _ => ?_
    exact (hsmaller _ (by omega)).expression.andThen fun value last _ =>
      (advances_symbol _ _ _).map _
  · exact (advances_taking _ _ _).andThen fun _ rest _ => (hsmaller _ (by omega)).conditional
  · exact (advances_taking _ _ _).andThen fun _ rest _ => (hsmaller _ (by omega)).loop
  · exact (advances_taking _ _ _).andThen fun _ rest _ => (hsmaller _ (by omega)).locals
  · exact advances_refuse _ _

theorem advances_operand : (operand ops ts).Advances := by
  unfold operand
  split
  · split
    · exact advances_primary hsmaller
    · exact (advances_taking _ _ _).andThen fun _ rest _ =>
        (hsmaller _ (by omega)).operand.map _
  · exact advances_primary hsmaller

theorem advances_expression : (expression ops ts).Advances := by
  unfold expression
  exact (advances_operand hsmaller).andThen fun left rest _ =>
    (hsmaller _ (by omega)).chain _ _

theorem advances_moreArguments : (moreArguments ops ts).Advances := by
  unfold moreArguments
  refine (advances_expression hsmaller).andThen fun arg rest _ => ?_
  split
  · exact advances_taking _ _ _
  · exact (advances_taking _ _ _).andThen fun _ last _ =>
      (hsmaller _ (by omega)).moreArguments.map _
  · exact advances_refuse _ _

theorem advances_arguments : (arguments ops ts).Advances := by
  unfold arguments
  split
  · exact advances_taking _ _ _
  · exact advances_moreArguments hsmaller

theorem advances_conditional : (conditional ops ts).Advances := by
  unfold conditional
  refine (advances_expression hsmaller).andThen fun condition rest _ => ?_
  refine (advances_keyword _ _ _).andThen fun _ rest _ => ?_
  refine (hsmaller _ (by omega)).expression.andThen fun thenBranch rest _ => ?_
  refine (advances_keyword _ _ _).andThen fun _ rest _ => ?_
  exact (hsmaller _ (by omega)).expression.map _

theorem advances_loop : (loop ops ts).Advances := by
  unfold loop
  refine (advances_identifier _ _).andThen fun name rest _ => ?_
  refine (advances_symbol _ _ _).andThen fun _ rest _ => ?_
  refine (hsmaller _ (by omega)).expression.andThen fun start rest _ => ?_
  refine (advances_symbol _ _ _).andThen fun _ rest _ => ?_
  refine (hsmaller _ (by omega)).expression.andThen fun finish rest _ => ?_
  refine (hsmaller _ (by omega)).step.andThen fun step rest _ => ?_
  refine (advances_keyword _ _ _).andThen fun _ rest _ => ?_
  exact (hsmaller _ (by omega)).expression.map _

theorem advances_step : (step ops ts).Advances := by
  unfold step
  split
  · exact Advances.relax ((advances_taking _ _ _).andThen fun _ rest _ =>
      (hsmaller _ (by omega)).expression.map _)
  · exact advances_here _ _

theorem advances_initial : (initial ops ts).Advances := by
  unfold initial
  split
  · exact Advances.relax ((advances_taking _ _ _).andThen fun _ rest _ =>
      (hsmaller _ (by omega)).expression.map _)
  · exact advances_here _ _

theorem advances_bindings (missing : SyntaxFault) : (bindings ops missing ts).Advances := by
  unfold bindings
  refine (advances_identifier _ _).andThen fun name rest _ => ?_
  refine (hsmaller _ (by omega)).initial.andThen fun value rest _ => ?_
  split
  · exact Advances.relax ((advances_taking _ _ _).andThen fun _ last _ =>
      (hsmaller _ (by omega)).bindings _ |>.map _)
  · exact advances_here _ _

theorem advances_locals : (locals ops ts).Advances := by
  unfold locals
  refine (advances_bindings hsmaller _).andThen fun bindings rest _ => ?_
  refine (advances_keyword _ _ _).andThen fun _ rest _ => ?_
  exact (hsmaller _ (by omega)).expression.map _

end Smaller

theorem readers (ops : OperatorTable) (ts : Tokens) : Readers ops ts :=
  have hsmaller := fun rest (_ : rest.size < ts.size) => readers ops rest
  { expression := advances_expression hsmaller
    operand := advances_operand hsmaller
    chain := advances_chain hsmaller
    primary := advances_primary hsmaller
    arguments := advances_arguments hsmaller
    moreArguments := advances_moreArguments hsmaller
    conditional := advances_conditional hsmaller
    loop := advances_loop hsmaller
    step := advances_step hsmaller
    locals := advances_locals hsmaller
    bindings := advances_bindings hsmaller
    initial := advances_initial hsmaller }
termination_by ts.size

end Grammar

end Reckon
