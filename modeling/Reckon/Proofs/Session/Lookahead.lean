import Reckon.Proofs.Grammar.Lookahead
import Reckon.Proofs.Session.Drivers

/-!
# What a turn depends on

A turn of a dialogue depends on its form and on the token after the form, since reading looks
no further (`Console.reads_oneAhead`).  In particular a turn that leaves a token unread is not
changed by what arrives later (`Console.turn_of_isSettled`), so it can be dealt with at once.
-/

namespace Reckon

namespace Console

variable {s : Session} {ts ts' : Tokens} (limit : Nat) (interactive : Bool)

/-- What a turn comes to, apart from the tokens that it leaves. -/
def Turn.report (turn : Turn ts) : Session × List Chunk × Option FormError :=
  (turn.session, turn.chunks, turn.fatal?)

/-- The answer to a form depends on what reading the form comes to. -/
theorem respond_report_congr (hne : ts.pending ≠ []) (hne' : ts'.pending ≠ [])
    (h : (s.readItem ts').outcome = (s.readItem ts).outcome) :
    (respond s limit ts' hne').report = (respond s limit ts hne).report := by
  cases hread : s.readItem ts with
  | error problem rest bound =>
      rw [hread] at h
      cases hread' : s.readItem ts' with
      | ok item rest' bound' =>
          rw [hread'] at h
          cases h
      | error problem' rest' bound' =>
          rw [hread'] at h
          cases h
          simp only [respond, hread, hread', Turn.report]
  | ok item rest bound =>
      rw [hread] at h
      cases hread' : s.readItem ts' with
      | error problem' rest' bound' =>
          rw [hread'] at h
          cases h
      | ok item' rest' bound' =>
          rw [hread'] at h
          cases h
          cases hhandle : s.handle limit item with
          | mk s' response =>
              simp only [respond, hread, hread', hhandle]
              cases response.outcome with
              | ok outcome => rfl
              | error e =>
                  dsimp only
                  split <;> rfl

/-- The answer to a form leaves the tokens that reading it leaves, but for the one that is
skipped after a mistake. -/
theorem respond_rest (hne : ts.pending ≠ []) :
    (respond s limit ts hne).rest =
      match (s.readItem ts).outcome with
      | .ok _ => (s.readItem ts).rest
      | .error _ => (s.readItem ts).rest.tail := by
  cases hread : s.readItem ts with
  | error problem rest bound => simp only [respond, hread, Parsed.outcome, Parsed.rest]
  | ok item rest bound =>
      cases hhandle : s.handle limit item with
      | mk s' response =>
          simp only [respond, hread, hhandle, Parsed.outcome, Parsed.rest]
          cases response.outcome with
          | ok outcome => rfl
          | error e =>
              dsimp only
              split <;> rfl

/-- A turn at a form is the answer to the form, with a prompt unless it is the last one. -/
theorem turn_report_congr (hne : ts.pending ≠ []) (hne' : ts'.pending ≠ [])
    (hform : ¬ Grammar.atSeparator ts = true) (hform' : ¬ Grammar.atSeparator ts' = true)
    (h : (respond s limit ts' hne').report = (respond s limit ts hne).report) :
    (turn s limit interactive ts' hne').report = (turn s limit interactive ts hne).report := by
  obtain ⟨hsession, hwritten⟩ := Prod.mk.inj h
  obtain ⟨hchunks, hfatal⟩ := Prod.mk.inj hwritten
  rw [turn, turn, dif_neg hform, dif_neg hform']
  dsimp only
  rw [hfatal]
  cases hfound : (respond s limit ts hne).fatal? with
  | some e => simp only [Turn.report, hsession, hchunks, hfatal]
  | none => simp only [Turn.report, hsession, hchunks]

theorem turn_rest (hne : ts.pending ≠ [])
    (hform : ¬ Grammar.atSeparator ts = true) :
    (turn s limit interactive ts hne).rest = (respond s limit ts hne).rest := by
  rw [turn, dif_neg hform]
  dsimp only
  split <;> rfl

/-- Turns come to the same where the inputs agree on one token more than the form takes, and
they leave the same number of tokens behind. -/
theorem turn_sameView (hne : ts.pending ≠ []) (hne' : ts'.pending ≠ [])
    (h : SameView (ts.size - (s.readItem ts).rest.size + 1) s.operators s.operators ts ts') :
    (turn s limit interactive ts' hne').report = (turn s limit interactive ts hne).report ∧
      ∃ k, (turn s limit interactive ts hne).rest = ts.drop k ∧
        (turn s limit interactive ts' hne').rest = ts'.drop k := by
  have hseparator : Grammar.atSeparator ts' = Grammar.atSeparator ts := by
    rw [Grammar.atSeparator, Grammar.atSeparator, h.lexeme?]
  by_cases hform : Grammar.atSeparator ts = true
  · rw [turn, turn, dif_pos hform, dif_pos (hseparator.trans hform)]
    exact ⟨rfl, 1, ts.drop_one.symm, ts'.drop_one.symm⟩
  · have hform' : ¬ Grammar.atSeparator ts' = true := fun hat => hform (hseparator.symm.trans hat)
    obtain ⟨hrest, hsame⟩ := Grammar.item_looksOneAhead s.operators ts
    obtain ⟨houtcome, hrest', -⟩ := hsame s.operators ts' h
    change (s.readItem ts').outcome = (s.readItem ts).outcome at houtcome
    have hreport := respond_report_congr limit hne hne' houtcome
    refine ⟨turn_report_congr limit interactive hne hne' hform hform' hreport, ?_⟩
    rw [turn_rest limit interactive hne hform, turn_rest limit interactive hne' hform',
      respond_rest, respond_rest, houtcome]
    cases (s.readItem ts).outcome with
    | ok item => exact ⟨_, hrest, hrest'⟩
    | error problem =>
        exact ⟨_, (congrArg Tokens.tail hrest).trans (ts.tail_drop _),
          (congrArg Tokens.tail hrest').trans (ts'.tail_drop _)⟩

/-- **Reading looks one token ahead and no further.**  What reading a form or an expression
comes to depends on the tokens that it consumes, on the one after them and on what the table
says of these.  So what a dialogue reports on a form does not depend on what comes after the
token that follows it. -/
theorem reads_oneAhead :
    Grammar.LooksOneAhead Grammar.item ∧ Grammar.LooksOneAhead Grammar.expression ∧
      ∀ (s : Session) (limit : Nat) (interactive : Bool) (ts ts' : Tokens)
        (hne : ts.pending ≠ []) (hne' : ts'.pending ≠ []),
        SameView (ts.size - (s.readItem ts).rest.size + 1) s.operators s.operators ts ts' →
          (turn s limit interactive ts' hne').report =
              (turn s limit interactive ts hne).report ∧
            ∃ k, (turn s limit interactive ts hne).rest = ts.drop k ∧
              (turn s limit interactive ts' hne').rest = ts'.drop k :=
  ⟨Grammar.item_looksOneAhead, Grammar.expression_looksOneAhead,
    fun _ limit interactive _ _ hne hne' h => turn_sameView limit interactive hne hne' h⟩

/-- In `x + y ;` the sum takes three tokens, so neither what follows the semicolon nor the
precedence of `*` matters to it. -/
theorem reads_oneAhead_sum :
    let span (i : Nat) : Span := ⟨i, i + 1, 1, i⟩
    let ts : Tokens := ⟨[⟨.identifier "x", span 0⟩, ⟨.symbol '+', span 1⟩,
      ⟨.identifier "y", span 2⟩, ⟨.symbol ';', span 3⟩], span 4⟩
    let ts' : Tokens := ⟨ts.pending ++ [⟨.symbol '*', span 4⟩], span 5⟩
    let ops' := (OperatorTable.builtins.install '*' 1).1
    ts.size - (Grammar.item .builtins ts).rest.size = 3 ∧ SameView 4 .builtins ops' ts ts' ∧
      (Grammar.item ops' ts').outcome = (Grammar.item .builtins ts).outcome ∧
      (turn (.start .standard) 0 true ts' (by simp [ts'])).report =
        (turn (.start .standard) 0 true ts (by simp [ts])).report := by
  intro span ts ts' ops'
  have htaken : ts.size - (Grammar.item .builtins ts).rest.size = 3 := by with_unfolding_all rfl
  have hsame : SameView 4 .builtins .builtins ts ts' :=
    .of_extends .builtins (List.prefix_append _ _) (Nat.le_refl _)
  have hview : SameView 4 .builtins ops' ts ts' := by
    refine ⟨hsame.ahead, fun i hi c hc => ?_⟩
    match i, hi with
    | 0, _ => cases hc
    | 1, _ => cases hc; rfl
    | 2, _ => cases hc
    | 3, _ => cases hc; rfl
  obtain ⟨hitem, -, hturn⟩ := reads_oneAhead
  refine ⟨htaken, hview, ((hitem .builtins ts).2 ops' ts' ?_).1, (hturn _ _ _ _ _ _ _ ?_).1⟩
  · rw [htaken]
    exact hview
  · change SameView (ts.size - (Grammar.item .builtins ts).rest.size + 1) _ _ _ _
    rw [htaken]
    exact hsame

/-- A turn that leaves a token unread is the same whatever arrives later. -/
theorem turn_of_isSettled (hne : ts.pending ≠ []) (hne' : ts'.pending ≠ [])
    (h : isSettled s ts = true) (hbegins : ts.pending <+: ts'.pending) :
    (turn s limit interactive ts' hne').report = (turn s limit interactive ts hne).report := by
  by_cases hform : Grammar.atSeparator ts = true
  · have hview := SameView.of_extends (n := 1) s.operators hbegins (List.length_pos_iff.mpr hne)
    have hform' : Grammar.atSeparator ts' = true := by
      rwa [Grammar.atSeparator, hview.lexeme?]
    rw [turn, turn, dif_pos hform, dif_pos hform']
    rfl
  · rw [isSettled, if_neg hform, Bool.not_eq_true', List.isEmpty_eq_false_iff] at h
    have hleft : 0 < (s.readItem ts).rest.size := List.length_pos_iff.mpr h
    have hbound := (s.readItem ts).rest_size_le
    refine (turn_sameView limit interactive hne hne' (.of_extends s.operators hbegins ?_)).1
    omega

end Console

end Reckon
