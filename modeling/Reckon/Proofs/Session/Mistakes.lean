import Reckon.Proofs.Grammar.Mistakes
import Reckon.Proofs.Session.Lookahead

/-!
# Going on after a mistake

A dialogue that cannot read a form reports where it stopped and discards one token.  That token
is the one whose place it has reported, and the dialogue goes on with the token right after it
(`Console.turn_syntaxError`): readers stop before the token that they blame
(`Grammar.StopsAtMistake`), so nothing gets lost between the report and the next form.
-/

namespace Reckon

namespace Console

/-- Where a dialogue goes on after a mistake at some place: behind the token that stands there,
or nowhere if the place is the end of the input. -/
inductive GoesOnAfter (ts : Tokens) (place : Span) : Tokens → Prop where
  | token {consumed others : List Token} {token : Token}
      (found : ts.pending = consumed ++ token :: others) (stands : token.span = place) :
      GoesOnAfter ts place ⟨others, ts.finish⟩
  | finish (stands : ts.finish = place) : GoesOnAfter ts place ⟨[], ts.finish⟩

/-- The tokens that a mistake leaves begin with the one that is discarded. -/
theorem GoesOnAfter.of_rest {ts rest : Tokens} {place : Span} {consumed : List Token}
    (hplace : place = rest.span) (hts : ts = { rest with pending := consumed ++ rest.pending }) :
    GoesOnAfter ts place rest.tail := by
  subst hts hplace
  obtain ⟨pending, finish⟩ := rest
  cases pending with
  | nil => exact .finish rfl
  | cons token others => exact .token rfl rfl

/-- The report of a mistake names the line and the column where it is. -/
theorem errorText_syntaxError (problem : SyntaxError) :
    errorText (.syntaxError problem) = s!"Error: {problem.fault.text}" ++
      s!" at line {problem.span.line}, column {problem.span.column}\n" := by
  simp [errorText, FormError.message, SyntaxError.message, ToString.toString, String.append_assoc]

variable {s : Session} {ts rest : Tokens} {problem : SyntaxError}

/-- A turn at a form that cannot be read. -/
theorem turn_mistake (limit : Nat) (interactive : Bool) (hne : ts.pending ≠ [])
    (hform : ¬ Grammar.atSeparator ts = true) {bound : rest.size ≤ ts.size}
    (hmistake : s.readItem ts = .error problem rest bound) :
    turn s limit interactive ts hne =
      ⟨s, .report (errorText (.syntaxError problem)) :: promptChunks interactive, rest.tail, none,
        size_skip_lt hne bound⟩ := by
  rw [turn, dif_neg hform]
  simp only [respond_syntaxError limit hne hmistake, List.cons_append, List.nil_append]

/-- **A mistake is reported at the token that it stopped on, and that token is discarded.**
Every reader of the grammar leaves the token that it blames, and has consumed those before it.
So a turn at a form that cannot be read changes nothing but the tokens: it reports the line and
the column of one token, or those of the end of the input, and the dialogue goes on behind it. -/
theorem turn_syntaxError :
    (Grammar.StopsAtMistake Grammar.item ∧ Grammar.StopsAtMistake Grammar.definition ∧
      Grammar.StopsAtMistake (fun _ => Grammar.declaration) ∧
      Grammar.StopsAtMistake
        (fun ops ts => (Grammar.expression ops ts).map (Function.mk .anonymous)) ∧
      Grammar.StopsAtMistake Grammar.expression) ∧
    ∀ (s : Session) (limit : Nat) (interactive : Bool) (ts : Tokens) (hne : ts.pending ≠ []),
      ¬ Grammar.atSeparator ts = true → ∀ problem rest bound,
        s.readItem ts = .error problem rest bound →
          let answer := turn s limit interactive ts hne
          answer.session = s ∧ answer.fatal? = none ∧
            answer.chunks = .report (s!"Error: {problem.fault.text}" ++
              s!" at line {problem.span.line}, column {problem.span.column}\n") ::
                promptChunks interactive ∧
            GoesOnAfter ts problem.span answer.rest := by
  refine ⟨⟨Grammar.item_stopsAtMistake, Grammar.definition_stopsAtMistake,
    Grammar.declaration_stopsAtMistake, Grammar.expression_stopsAtMistake.map _,
    Grammar.expression_stopsAtMistake⟩, ?_⟩
  intro s limit interactive ts hne hform problem rest bound hmistake
  obtain ⟨hspan, consumed, hts⟩ :=
    Grammar.item_stopsAtMistake s.operators ts problem rest bound hmistake
  rw [turn_mistake limit interactive hne hform hmistake, errorText_syntaxError]
  exact ⟨rfl, rfl, rfl, .of_rest hspan hts⟩

/-- A semicolon inside the parameters is blamed and discarded, and the number after it is the
next form. -/
theorem turn_syntaxError_openParameters :
    let ts := Tokens.ofString "def f(x; 7"
    ∃ hne : ts.pending ≠ [],
      let answer := turn (.start .standard) 0 false ts hne
      answer.chunks = [.report "Error: Expected ')' in prototype at line 1, column 7\n"] ∧
        answer.rest.lexeme? = some (.number 7) ∧
        GoesOnAfter ts ⟨7, 8, 1, 7⟩ answer.rest := by
  intro ts
  have hne : ts.pending ≠ [] := by decide +kernel
  have hmistake : (Session.start .standard).readItem ts =
      .error ⟨.parametersEndExpected, ⟨7, 8, 1, 7⟩⟩ (ts.drop 4) (by simp) := by
    with_unfolding_all rfl
  have hrest : (turn (.start .standard) 0 false ts hne).rest = ts.drop 5 := by
    rw [turn_mistake 0 false hne (by decide +kernel) hmistake]
    exact ts.tail_drop 4
  obtain ⟨-, -, hchunks, hbehind⟩ :=
    turn_syntaxError.2 (.start .standard) 0 false ts hne (by decide +kernel) _ _ _ hmistake
  exact ⟨hne, hchunks.trans (by decide), by rw [hrest]; decide +kernel, hbehind⟩

end Console

end Reckon
