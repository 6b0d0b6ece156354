import Mathlib.Data.List.Forall2
import Reckon.Proofs.Grammar.Places
import Reckon.Proofs.Session.Mistakes

/-!
# A file and its lines are the same program

A dialogue over a text and a prompted dialogue over the lines that encode it write the same,
prompts apart, and leave the same session (`Console.run_lineChars`).  Line ends are all that
reading line by line changes (`Text.sheds_lineChars`), tokens do not depend on them
(`Text.Sheds.alike`), and readers do not depend on more (`Grammar.Procedure.read_alike`).  Only
the end of the input may be elsewhere, since a line feed may have been added, and it shows where
a mistake is reported there.
-/

namespace Reckon

namespace Console

/-- The report of a mistake shows the line and the column of its place, but no offset. -/
theorem errorText_syntaxError_congr {fault : SyntaxFault} {span span' : Span}
    (hline : span'.line = span.line) (hcolumn : span'.column = span.column) :
    errorText (.syntaxError ⟨fault, span'⟩) = errorText (.syntaxError ⟨fault, span⟩) := by
  rw [errorText_syntaxError, errorText_syntaxError, hline, hcolumn]

end Console

open Console

namespace Chunk

/-- Two pieces are the same, or they report the same mistake, each at the end of its input. -/
inductive Retells (finish finish' : Span) : Chunk → Chunk → Prop where
  | same (chunk : Chunk) : Retells finish finish' chunk chunk
  | atEnd (fault : SyntaxFault) :
      Retells finish finish' (.report (errorText (.syntaxError ⟨fault, finish⟩)))
        (.report (errorText (.syntaxError ⟨fault, finish'⟩)))

theorem Retells.mistake {finish finish' span span' : Span} (fault : SyntaxFault)
    (h : Span.Alike finish finish' span span') :
    Retells finish finish' (.report (errorText (.syntaxError ⟨fault, span⟩)))
      (.report (errorText (.syntaxError ⟨fault, span'⟩))) := by
  rcases h with ⟨hline, hcolumn⟩ | ⟨rfl, rfl⟩
  · rw [errorText_syntaxError_congr hline hcolumn]
    exact .same _
  · exact .atEnd fault

theorem retells_refl (finish finish' : Span) (chunks : List Chunk) :
    List.Forall₂ (Retells finish finish') chunks chunks :=
  List.forall₂_same.mpr fun chunk _ => .same chunk

/-- What was written apart from prompts. -/
def withoutPrompts (chunks : List Chunk) : List Chunk :=
  chunks.filter fun chunk => chunk != .report prompt

@[simp] theorem withoutPrompts_append (chunks others : List Chunk) :
    withoutPrompts (chunks ++ others) = withoutPrompts chunks ++ withoutPrompts others :=
  List.filter_append ..

@[simp] theorem withoutPrompts_promptChunks (interactive : Bool) :
    withoutPrompts (promptChunks interactive) = [] := by
  cases interactive <;> decide

end Chunk

open Chunk (withoutPrompts)

namespace Console

theorem errorText_ne_prompt (e : FormError) : errorText e ≠ prompt := by
  intro h
  have hchars := congrArg (fun text => text.toList.head?) h
  simp [errorText, prompt, ToString.toString] at hchars

theorem outcomeText_ne_prompt (showCode : Bool) (outcome : Outcome) :
    outcomeText showCode outcome ≠ prompt := by
  intro h
  have hchars := congrArg (fun text => text.toList.head?) h
  cases outcome with
  | defined prototype listing =>
      cases showCode <;> simp [outcomeText, prompt, ToString.toString] at hchars
  | _ => simp [outcomeText, prompt, ToString.toString] at hchars

variable {s : Session} {ts ts' : Tokens} (limit : Nat)

/-- The answer to a form is no prompt. -/
theorem withoutPrompts_respond (hne : ts.pending ≠ []) :
    withoutPrompts (respond s limit ts hne).chunks = (respond s limit ts hne).chunks := by
  have hfilter : ∀ chunk ∈ (respond s limit ts hne).chunks, chunk ≠ .report prompt := by
    cases hitem : s.readItem ts with
    | error problem rest bound => simp [respond, hitem, errorText_ne_prompt]
    | ok item rest bound =>
        cases hhandle : s.handle limit item with
        | mk s' response =>
            simp only [respond, hitem, hhandle]
            cases response.outcome with
            | ok outcome => simp [outcomeText_ne_prompt]
            | error e =>
                dsimp only
                split
                · simp
                · simp [errorText_ne_prompt]
  exact List.filter_eq_self.mpr fun chunk hchunk => bne_iff_ne.mpr (hfilter chunk hchunk)

/-- A turn with prompts retells a turn without them. -/
structure Turn.Retold (turn : Turn ts) (turn' : Turn ts') : Prop where
  session : turn'.session = turn.session
  fatal? : turn'.fatal? = turn.fatal?
  chunks : List.Forall₂ (Chunk.Retells ts.finish ts'.finish) turn.chunks
    (withoutPrompts turn'.chunks)
  rest : turn.rest.Alike turn'.rest
  finish : turn.rest.finish = ts.finish
  finish' : turn'.rest.finish = ts'.finish

/-- A mistake is reported, and nothing else. -/
theorem respond_report_mistake {problem : SyntaxError} (hne : ts.pending ≠ [])
    (h : (s.readItem ts).outcome = .error problem) :
    (respond s limit ts hne).report = (s, [.report (errorText (.syntaxError problem))], none) := by
  cases hread : s.readItem ts with
  | ok item rest bound =>
      rw [hread] at h
      cases h
  | error found rest bound =>
      rw [hread] at h
      cases h
      rw [respond_syntaxError limit hne hread]
      rfl

/-- Forms that are read alike are answered alike. -/
theorem respond_retold (h : ts.Alike ts') (hne : ts.pending ≠ []) (hne' : ts'.pending ≠ []) :
    (respond s limit ts hne).Retold (respond s limit ts' hne') := by
  have hprompts := withoutPrompts_respond (s := s) limit hne'
  have hleft := respond_rest (s := s) limit hne
  have hleft' := respond_rest (s := s) limit hne'
  have hread := Grammar.Procedure.item.read_alike s.operators h
  change Grammar.SameResult ts ts' (s.readItem ts).result (s.readItem ts').result at hread
  obtain ⟨houtcome, hrest, hfinish, hfinish'⟩ := hread
  change Grammar.SameOutcome ts.finish ts'.finish (s.readItem ts).outcome (s.readItem ts').outcome
    at houtcome
  generalize hitem : (s.readItem ts).outcome = outcome at houtcome hleft
  generalize hitem' : (s.readItem ts').outcome = outcome' at houtcome hleft'
  cases houtcome with
  | ok item =>
      have hreport := respond_report_congr limit hne hne' (hitem'.trans hitem.symm)
      obtain ⟨hsession, hwritten⟩ := Prod.mk.inj hreport
      obtain ⟨hchunks, hfatal⟩ := Prod.mk.inj hwritten
      refine ⟨hsession, hfatal, ?_, ?_, ?_, ?_⟩
      · rw [hprompts, hchunks]
        exact Chunk.retells_refl _ _ _
      · rwa [hleft, hleft']
      · rwa [hleft]
      · rwa [hleft']
  | error places =>
      obtain ⟨hsession, hwritten⟩ := Prod.mk.inj (respond_report_mistake limit hne hitem)
      obtain ⟨hchunks, hfatal⟩ := Prod.mk.inj hwritten
      obtain ⟨hsession', hwritten'⟩ := Prod.mk.inj (respond_report_mistake limit hne' hitem')
      obtain ⟨hchunks', hfatal'⟩ := Prod.mk.inj hwritten'
      refine ⟨hsession'.trans hsession.symm, hfatal'.trans hfatal.symm, ?_, ?_, ?_, ?_⟩
      · rw [hprompts, hchunks, hchunks']
        exact .cons (.mistake _ places) .nil
      · rw [hleft, hleft']
        exact Tokens.Alike.tail hrest
      · rwa [hleft]
      · rwa [hleft']

/-- Prompts are all that a turn with prompts has in addition. -/
theorem turn_retold (h : ts.Alike ts') (hne : ts.pending ≠ []) (hne' : ts'.pending ≠ []) :
    (turn s limit false ts hne).Retold (turn s limit true ts' hne') := by
  have hseparator : Grammar.atSeparator ts' = Grammar.atSeparator ts := by
    rw [Grammar.atSeparator, Grammar.atSeparator, h.lexeme?]
  by_cases hform : Grammar.atSeparator ts = true
  · rw [turn, turn, dif_pos hform, dif_pos (hseparator.trans hform)]
    exact ⟨rfl, rfl, .nil, h.tail, rfl, rfl⟩
  · obtain ⟨hsession, hfatal, hchunks, hrest, hfinish, hfinish'⟩ :=
      respond_retold (s := s) limit h hne hne'
    rw [turn_eq_respond hne hform, turn, dif_neg (hseparator ▸ hform)]
    dsimp only
    cases hfound : (respond s limit ts' hne').fatal? with
    | some e => exact ⟨hsession, hfatal, hchunks, hrest, hfinish, hfinish'⟩
    | none =>
        dsimp only
        refine ⟨hsession, hfound.symm.trans hfatal, ?_, hrest, hfinish, hfinish'⟩
        simpa using hchunks

/-- A dialogue with prompts over tokens that are alike retells a dialogue without them. -/
structure Dialogue.Retold (finish finish' : Span) (dialogue dialogue' : Dialogue) : Prop where
  session : dialogue'.session = dialogue.session
  fatal? : dialogue'.fatal? = dialogue.fatal?
  chunks : List.Forall₂ (Chunk.Retells finish finish') dialogue.chunks
    (withoutPrompts dialogue'.chunks)

theorem converse_retold (s : Session) {ts ts' : Tokens} (h : ts.Alike ts') :
    (converse s limit false ts).Retold ts.finish ts'.finish (converse s limit true ts') := by
  by_cases hne : ts.pending = []
  · have hne' : ts'.pending = [] := by simpa [Tokens.Alike, hne] using h
    rw [converse, converse, dif_pos hne, dif_pos hne']
    exact ⟨rfl, rfl, .nil⟩
  · have hne' : ts'.pending ≠ [] := fun hend => hne (by simpa [Tokens.Alike, hend] using h.symm)
    obtain ⟨hsession, hfatal, hchunks, hrest, hfinish, hfinish'⟩ :=
      turn_retold (s := s) limit h hne hne'
    have hothers := converse_retold (turn s limit false ts hne).session hrest
    rw [hfinish, hfinish'] at hothers
    rw [converse, converse, dif_neg hne, dif_neg hne']
    dsimp only
    rw [hfatal]
    cases (turn s limit false ts hne).fatal? with
    | some e => exact ⟨hsession, rfl, hchunks⟩
    | none =>
        dsimp only
        rw [hsession]
        exact ⟨hothers.session, hothers.fatal?, by
          simpa using List.rel_append hchunks hothers.chunks⟩
termination_by ts.size
decreasing_by exact (turn s limit false ts hne).shorter

/-- **A file and its lines are the same program.**  Whatever the bytes are, what reading them
line by line hands on is the text of the lines before the first one that is no UTF-8, each with
one line feed for its line end.  If the bytes are a text, that text and what is handed on have
the same tokens at the same lines and columns, so a dialogue about the text and a prompted
dialogue about its lines write the same, apart from prompts and from the places of mistakes at
the end of the input, and come to the same session. -/
theorem run_lineChars :
    (∀ bytes, ∃ good bad texts, Text.CutsInto bytes (good ++ bad) ∧
      List.Forall₂ Text.Line.Says good texts ∧
      (∀ line ∈ bad.head?, ∀ text, ¬line.Says text) ∧
      Text.lineChars bytes = texts.flatMap (· ++ ['\n'])) ∧
    ∀ bytes text, Text.decode bytes = some text →
      (Tokens.ofChars text).Alike (Tokens.ofChars (Text.lineChars bytes)) ∧
        ∀ (s : Session) (limit : Nat),
          (run s limit false text).Retold (Tokens.ofChars text).finish
            (Tokens.ofChars (Text.lineChars bytes)).finish
            (run s limit true (Text.lineChars bytes)) := by
  refine ⟨Text.lineChars_eq, fun bytes text hdecode => ?_⟩
  obtain rfl := Text.decode_eq_some_iff.mp hdecode
  have halike := (Text.sheds_lineChars text).alike
  refine ⟨halike, fun s limit => ?_⟩
  obtain ⟨hsession, hfatal, hchunks⟩ := converse_retold limit s halike
  exact ⟨hsession, hfatal, by simpa [run, promptChunks, withoutPrompts] using hchunks⟩

/-- An open parenthesis at the end of the input: the lines hand on a line feed more and a carriage
return less, so the end is on another line. -/
theorem run_lineChars_openParenthesis :
    let text := "4 +\r\n(".toList
    let fed := Text.lineChars (Text.encode text)
    (Tokens.ofChars text).finish = ⟨6, 6, 2, 1⟩ ∧ (Tokens.ofChars fed).finish = ⟨6, 6, 3, 0⟩ ∧
      (Tokens.ofChars text).Alike (Tokens.ofChars fed) ∧
      (run (.start .standard) 0 false text).Retold ⟨6, 6, 2, 1⟩ ⟨6, 6, 3, 0⟩
        (run (.start .standard) 0 true fed) := by
  intro text fed
  have hfinish : (Tokens.ofChars text).finish = ⟨6, 6, 2, 1⟩ := by decide +kernel
  have hfinish' : (Tokens.ofChars fed).finish = ⟨6, 6, 3, 0⟩ := by decide +kernel
  obtain ⟨halike, hrun⟩ := run_lineChars.2 _ text (Text.decode_encode text)
  have hretold := hrun (.start .standard) 0
  rw [hfinish, hfinish'] at hretold
  exact ⟨hfinish, hfinish', halike, hretold⟩

end Console

end Reckon
