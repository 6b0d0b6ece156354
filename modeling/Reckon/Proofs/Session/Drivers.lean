import Reckon.Proofs.Session.Operators

/-!
# Three ways to deal with a text

The forms of a text can be dealt with in three ways: one after the other up to
the first error (`Session.runSource`), in a dialogue that reports on every form
and goes on after an error (`Console.run`), or as a list that was read in advance
(`Session.handleAll`).  The three come to the same (`Console.run_retells_runSource`).

A dialogue is cut into turns here (`Console.Turns`), so that the session in the
middle of one can be spoken of: it is the session that the run up to the first
error has left.  Forms that were read in advance were read against the operators
of the first session, which stay the same as long as no form defines an infix
operator.
-/

namespace Reckon

namespace Session

variable {s : Session}

/-- Deal with a list of forms up to the first error. -/
def handleAll (s : Session) (limit : Nat) : List Item → SourceRun
  | [] => ⟨s, [], none⟩
  | item :: items =>
    let (s, response) := s.handle limit item
    match response.outcome with
    | .error e => ⟨s, [], some e⟩
    | .ok outcome =>
      let others := s.handleAll limit items
      { others with outcomes := (outcome, response.output) :: others.outcomes }

/-- Forms leave the options alone. -/
theorem handle_options (s : Session) (limit : Nat) (item : Item) :
    (s.handle limit item).1.options = s.options := by
  have hannounce (p : Prototype) : (s.announce p).1.options = s.options := by
    have hname : (s.announceName p).1.options = s.options := by
      unfold announceName
      split <;> rfl
    refine Eq.trans ?_ hname
    change ((s.announceName p).1.announceOperator p).1.options = _
    unfold announceOperator
    cases p.infixOperator? <;> rfl
  rcases s.handle_cases limit item with hsame | ⟨f, c, -, -, hlinked⟩ | ⟨p, -, hdeclared⟩
  · rw [hsame]
  · rw [hlinked]
    exact hannounce f.prototype
  · rw [hdeclared]
    rfl

/-- A form that defines no infix operator leaves the operators alone. -/
theorem handle_operators {limit : Nat} {item : Item}
    (h : ∀ f, item = .definition f → f.prototype.infixOperator? = none) :
    (s.handle limit item).1.operators = s.operators := by
  rcases s.handle_cases limit item with hsame | ⟨f, c, rfl, -, hlinked⟩ | ⟨p, -, hdeclared⟩
  · rw [hsame]
  · rw [hlinked]
    change (s.announce f.prototype).1.operators = _
    rw [announce_operators, h f rfl]
  · rw [hdeclared]
    rfl

/-- A form that is rejected writes nothing. -/
theorem handle_output (limit : Nat) (item : Item) {e : FormError}
    (h : (s.handle limit item).2.outcome = .error e) : (s.handle limit item).2.output = "" := by
  cases item with
  | definition f =>
      rcases s.define_cases f with ⟨e', hrejected⟩ | ⟨c, -, hdefined⟩
      · exact congrArg (fun r => r.2.output) hrejected
      · exact congrArg (fun r => r.2.output) hdefined
  | declaration p => rfl
  | expression body =>
      rcases s.evaluate_cases limit body with ⟨e', hrejected⟩ | ⟨c, -, -, hran⟩
      · exact congrArg (fun r => r.2.output) hrejected
      · have houtcome : (s.runOnce limit c).outcome = .error e :=
          (congrArg (fun r => r.2.outcome) hran).symm.trans h
        exact absurd houtcome (s.runOnce_outcome limit c e)

/-- Forms that were read in advance against the operators of a session are those
that the session reads itself, as long as none of them defines an infix operator. -/
theorem runTokens_program {ts : Tokens} {limit : Nat} {items : List Item}
    (hread : Grammar.program s.operators ts = .ok items)
    (hplain : ∀ f, .definition f ∈ items → f.prototype.infixOperator? = none) :
    s.runTokens limit ts = s.handleAll limit items := by
  fun_induction s.runTokens limit ts generalizing items with
  | case1 s ts hend =>
      rw [Grammar.program, if_pos hend] at hread
      obtain rfl := Except.ok.inj hread
      rfl
  | case2 s ts hne hseparator _ ih =>
      rw [Grammar.program, if_neg hne, dif_pos hseparator] at hread
      exact ih hread hplain
  | case3 s ts hne hseparator problem rest bound hitem =>
      rw [Grammar.program, if_neg hne, dif_neg hseparator] at hread
      have hitem' : Grammar.item s.operators ts = .error problem rest bound := hitem
      simp only [hitem'] at hread
      cases hread
  | case4 s ts hne hseparator item rest bound hitem s' response hhandle e herror =>
      rw [Grammar.program, if_neg hne, dif_neg hseparator] at hread
      have hitem' : Grammar.item s.operators ts = .ok item rest bound := hitem
      simp only [hitem'] at hread
      cases hothers : Grammar.program s.operators rest with
      | error problem => simp [hothers, Except.map] at hread
      | ok others =>
          simp only [hothers, Except.map] at hread
          obtain rfl := Except.ok.inj hread
          simp only [handleAll, hhandle, herror]
  | case5 s ts hne hseparator item rest bound hitem s' response hhandle outcome houtcome others =>
      rename_i ih
      rw [Grammar.program, if_neg hne, dif_neg hseparator] at hread
      have hitem' : Grammar.item s.operators ts = .ok item rest bound := hitem
      simp only [hitem'] at hread
      cases hothers : Grammar.program s.operators rest with
      | error problem => simp [hothers, Except.map] at hread
      | ok found =>
          simp only [hothers, Except.map] at hread
          obtain rfl := Except.ok.inj hread
          have hoperators : s'.operators = s.operators := by
            have hkept : (s.handle limit item).1.operators = s.operators :=
              s.handle_operators fun f hf => hplain f (hf ▸ List.mem_cons_self)
            rwa [hhandle] at hkept
          have hrest := ih (hoperators ▸ hothers) fun f hf =>
            hplain f (List.mem_cons_of_mem _ hf)
          simp only [handleAll, hhandle, houtcome, others, hrest]

end Session

namespace Console

/-- What is written for some forms: for each of them what it wrote itself, and then
its report. -/
def transcript (showCode : Bool) (outcomes : List (Outcome × String)) : String :=
  String.join (outcomes.map fun (outcome, output) => output ++ outcomeText showCode outcome)

/-- Some turns of a dialogue without prompts, with what they write. -/
inductive Turns (limit : Nat) : Session → Tokens → List Chunk → Session → Tokens → Prop where
  | none (s : Session) (ts : Tokens) : Turns limit s ts [] s ts
  | more {s s' : Session} {ts ts' : Tokens} {chunks : List Chunk} (hne : ts.pending ≠ [])
      (goesOn : (turn s limit false ts hne).fatal? = Option.none)
      (others : Turns limit (turn s limit false ts hne).session
        (turn s limit false ts hne).rest chunks s' ts') :
      Turns limit s ts ((turn s limit false ts hne).chunks ++ chunks) s' ts'

namespace Turns

variable {limit : Nat} {s s' s'' : Session} {ts ts' ts'' : Tokens} {chunks chunks' : List Chunk}

/-- A turn that goes on comes before the turns from where it leads. -/
theorem cons {written : List Chunk} {hne : ts.pending ≠ []} {shorter : ts'.size < ts.size}
    (hturn : turn s limit false ts hne = ⟨s', written, ts', Option.none, shorter⟩)
    (others : Turns limit s' ts' chunks s'' ts'') :
    Turns limit s ts (written ++ chunks) s'' ts'' := by
  have hmore : Turns limit s ts ((turn s limit false ts hne).chunks ++ chunks) s'' ts'' := by
    refine .more hne ?_ ?_
    · rw [hturn]
    · rwa [hturn]
  rwa [hturn] at hmore

/-- What follows some turns follows them in the dialogue. -/
theorem converse (h : Turns limit s ts chunks s' ts') :
    Console.converse s limit false ts =
      { Console.converse s' limit false ts' with
        chunks := chunks ++ (Console.converse s' limit false ts').chunks } := by
  induction h with
  | none s ts => rfl
  | more hne goesOn others ih =>
      rw [Console.converse, dif_neg hne]
      simp only [goesOn, ih, List.append_assoc]

end Turns

theorem everything_append (chunks chunks' : List Chunk) :
    Chunk.everything (chunks ++ chunks') = Chunk.everything chunks ++ Chunk.everything chunks' := by
  simp [Chunk.everything]

theorem transcript_cons (showCode : Bool) (outcome : Outcome) (output : String)
    (outcomes : List (Outcome × String)) :
    transcript showCode ((outcome, output) :: outcomes) =
      output ++ outcomeText showCode outcome ++ transcript showCode outcomes := by
  simp [transcript]

/-- Without prompts, a turn at a semicolon passes over it. -/
theorem turn_separator (s : Session) (limit : Nat) {ts : Tokens} (hne : ts.pending ≠ [])
    (h : Grammar.atSeparator ts = true) :
    ∃ shorter, turn s limit false ts hne = ⟨s, [], ts.tail, none, shorter⟩ := by
  rw [turn, dif_pos h]
  exact ⟨_, rfl⟩

/-- Without prompts, a turn at a form is the answer to the form. -/
theorem turn_eq_respond {s : Session} {limit : Nat} {ts : Tokens} (hne : ts.pending ≠ [])
    (h : ¬ Grammar.atSeparator ts = true) :
    turn s limit false ts hne = respond s limit ts hne := by
  rw [turn, dif_neg h]
  cases hanswer : respond s limit ts hne with
  | mk session chunks rest fatal? shorter => cases fatal? <;> simp [promptChunks]

/-- A form that cannot be read is reported. -/
theorem respond_syntaxError {s : Session} (limit : Nat) {ts rest : Tokens}
    {problem : SyntaxError}
    {bound : rest.size ≤ ts.size} (hne : ts.pending ≠ [])
    (hitem : s.readItem ts = .error problem rest bound) :
    respond s limit ts hne = ⟨s, [.report (errorText (.syntaxError problem))], rest.tail, none,
      size_skip_lt hne bound⟩ := by
  simp only [respond, hitem]

/-- What came of a form is reported after what the form wrote. -/
theorem respond_form {s s' : Session} {limit : Nat} {ts rest : Tokens} {item : Item}
    {response : Response} {bound : rest.size + 1 ≤ ts.size} (hne : ts.pending ≠ [])
    (hitem : s.readItem ts = .ok item rest bound)
    (hhandle : s.handle limit item = (s', response))
    (hfatal : ∀ e, response.outcome = .error e → e.isFatal = false) :
    respond s limit ts hne = ⟨s', [.program response.output,
      .report (response.outcome.casesOn errorText (outcomeText s'.options.showCode))],
      rest, none, bound⟩ := by
  obtain ⟨outcome, output⟩ := response
  cases outcome with
  | ok outcome => simp only [respond, hitem, hhandle]
  | error e =>
      have hnotFatal := hfatal e rfl
      simp only [respond, hitem, hhandle, hnotFatal, Bool.false_eq_true, if_false]

/-- The turns of a dialogue follow the run of a text up to its first error. -/
theorem turns_of_runTokens (s : Session) (limit : Nat) (ts : Tokens)
    (hfatal : ∀ e ∈ (s.runTokens limit ts).error?, e.isFatal = false) :
    ∃ chunks rest, Turns limit s ts chunks (s.runTokens limit ts).session rest ∧
      Chunk.everything chunks =
        transcript s.options.showCode (s.runTokens limit ts).outcomes ++
          (s.runTokens limit ts).error?.elim "" errorText ∧
      ((s.runTokens limit ts).error? = none → rest.pending = []) := by
  fun_induction s.runTokens limit ts with
  | case1 s ts hend =>
      exact ⟨[], ts, .none s ts, by simp [transcript, Chunk.everything], fun _ => hend⟩
  | case2 s ts hne hseparator _ ih =>
      obtain ⟨chunks, rest, hturns, htext, hrest⟩ := ih hfatal
      obtain ⟨_, hturn⟩ := turn_separator s limit hne hseparator
      exact ⟨_, rest, hturns.cons hturn, htext, hrest⟩
  | case3 s ts hne hseparator problem rest bound hitem =>
      have hturn := (turn_eq_respond hne hseparator).trans
        (respond_syntaxError limit hne hitem)
      refine ⟨_, rest.tail, (Turns.none s rest.tail).cons hturn, ?_, fun h => by cases h⟩
      simp [transcript, Chunk.everything, Chunk.text]
  | case4 s ts hne hseparator item rest bound hitem s' response hhandle e herror =>
      have hnotFatal : e.isFatal = false := hfatal e rfl
      have hturn := (turn_eq_respond hne hseparator).trans
        (respond_form hne hitem hhandle fun e' he => by
          rw [← Except.error.inj (herror.symm.trans he), hnotFatal])
      have hsilent : response.output = "" := by
        have hwritten : (s.handle limit item).2.output = "" :=
          s.handle_output limit item (by rw [hhandle]; exact herror)
        rwa [hhandle] at hwritten
      refine ⟨_, rest, (Turns.none s' rest).cons hturn, ?_, fun h => by cases h⟩
      simp [herror, hsilent, transcript, Chunk.everything, Chunk.text]
  | case5 s ts hne hseparator item rest bound hitem s' response hhandle outcome houtcome others =>
      rename_i ih
      have hturn := (turn_eq_respond hne hseparator).trans
        (respond_form hne hitem hhandle fun e he => by cases houtcome.symm.trans he)
      have hoptions : s'.options = s.options := by
        have hkept := s.handle_options limit item
        rwa [hhandle] at hkept
      obtain ⟨chunks, rest', hturns, htext, hrest⟩ := ih hfatal
      refine ⟨_, rest', hturns.cons hturn, ?_, hrest⟩
      rw [everything_append, htext, transcript_cons, hoptions]
      simp [houtcome, Chunk.everything, Chunk.text, String.append_assoc, others]

/-- The run of a text up to its first error, the dialogue about it and the list of
its forms agree.

If the run meets no error, the dialogue writes what each form wrote followed by its
report, nothing else, and leaves the same session.  If the run stops at an error that
is not fatal, the dialogue begins with the same pieces and the report of the error,
is then in the session that the run left, and goes on from there with the tokens that
are left.  If the forms can be read in advance and none defines an infix operator,
the run deals with that list. -/
theorem run_retells_runSource (s : Session) (limit : Nat) (source : String) :
    ((s.runSource limit source).error? = none →
      Chunk.everything (run s limit false source.toList).chunks =
          transcript s.options.showCode (s.runSource limit source).outcomes ∧
        (run s limit false source.toList).session = (s.runSource limit source).session ∧
        (run s limit false source.toList).fatal? = none) ∧
    (∀ e, (s.runSource limit source).error? = some e → e.isFatal = false →
      ∃ chunks rest,
        Turns limit s (.ofString source) chunks (s.runSource limit source).session rest ∧
        Chunk.everything chunks =
          transcript s.options.showCode (s.runSource limit source).outcomes ++ errorText e ∧
        run s limit false source.toList =
          { converse (s.runSource limit source).session limit false rest with
            chunks := chunks ++
              (converse (s.runSource limit source).session limit false rest).chunks }) ∧
    ∀ items, Grammar.program s.operators (.ofString source) = .ok items →
      (∀ f, .definition f ∈ items → f.prototype.infixOperator? = none) →
      s.runSource limit source = s.handleAll limit items := by
  have hrun : run s limit false source.toList = converse s limit false (.ofString source) := rfl
  simp only [hrun, Session.runSource]
  refine ⟨fun hnone => ?_, fun e he hnotFatal => ?_, fun items => s.runTokens_program⟩
  · obtain ⟨chunks, rest, hturns, htext, hrest⟩ :=
      turns_of_runTokens s limit (.ofString source) fun e he => by cases hnone.symm.trans he
    have hend : converse (s.runTokens limit (.ofString source)).session limit false rest =
        ⟨(s.runTokens limit (.ofString source)).session, [], none⟩ := by
      rw [converse, dif_pos (hrest hnone)]
    rw [hturns.converse, hend]
    refine ⟨?_, rfl, rfl⟩
    rw [List.append_nil, htext, hnone]
    exact String.append_empty
  · obtain ⟨chunks, rest, hturns, htext, -⟩ :=
      turns_of_runTokens s limit (.ofString source) fun e' he' => by
        rwa [← Option.some.inj (he.symm.trans he')]
    refine ⟨chunks, rest, hturns, ?_, hturns.converse⟩
    rw [htext, he]
    rfl

/-- A dialogue goes on after an error, in the session that the run has left. -/
theorem run_retells_runSource_unknownName :
    (∃ chunks rest, Turns 30 (.start .standard) (.ofString "extern f(x); y; f") chunks
        ((Session.start .standard).declare ⟨"f", ["x"], .function⟩).1 rest ∧
      Chunk.everything chunks =
        "Read extern: f(x)\nError: Unknown variable name 'y'\n" ∧
      run (.start .standard) 30 false "extern f(x); y; f".toList =
        { converse ((Session.start .standard).declare ⟨"f", ["x"], .function⟩).1 30 false rest with
          chunks := chunks ++ (converse ((Session.start .standard).declare
            ⟨"f", ["x"], .function⟩).1 30 false rest).chunks }) ∧
    Chunk.everything (run (.start .standard) 30 false "extern f(x); 1".toList).chunks =
      "Read extern: f(x)\nEvaluated to 1.000000\n" ∧
    (Session.start .standard).runSource 30 "extern f(x); y; f" =
      (Session.start .standard).handleAll 30
        [.declaration ⟨"f", ["x"], .function⟩, .expression (.var "y"), .expression (.var "f")] := by
  have hread : Grammar.program (Session.start .standard).operators (.ofString "extern f(x); y; f") =
      .ok [.declaration ⟨"f", ["x"], .function⟩, .expression (.var "y"),
        .expression (.var "f")] := by with_unfolding_all rfl
  have hstopped : ((Session.start .standard).runSource 30 "extern f(x); y; f").error? =
      some (.lowerError (.unknownVariable "y")) := by decide +kernel
  have hpassed : ((Session.start .standard).runSource 30 "extern f(x); 1").error? = none := by
    decide +kernel
  have hsession : ((Session.start .standard).runSource 30 "extern f(x); y; f").session =
    ((Session.start .standard).declare ⟨"f", ["x"], .function⟩).1 := by decide +kernel
  obtain ⟨-, hstops, hreads⟩ := run_retells_runSource (.start .standard) 30 "extern f(x); y; f"
  obtain ⟨hpasses, -, -⟩ := run_retells_runSource (.start .standard) 30 "extern f(x); 1"
  obtain ⟨chunks, rest, hturns, htext, hrun⟩ := hstops _ hstopped rfl
  rw [hsession] at hturns hrun
  refine ⟨⟨chunks, rest, hturns, htext.trans (by decide +kernel), hrun⟩,
    (hpasses hpassed).1.trans (by decide +kernel), hreads _ hread ?_⟩
  simp

end Console

end Reckon
