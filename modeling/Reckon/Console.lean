import Reckon.Session.Basic
import Reckon.Text.Lines
import Reckon.Token.Cursor

/-!
# The console

The console deals with one form after the other and reports what came of each.
A form that cannot be read is reported and one token is skipped; any other
error is reported and nothing is skipped.  Only a fatal error ends the dialogue
early.

Every turn consumes a token, so a dialogue over finitely many tokens ends if
the expressions in it do.
-/

namespace Reckon

/-- A piece of what a dialogue writes. -/
inductive Chunk where
  /-- Text of the console itself. -/
  | report (text : String)
  /-- Text that a running program wrote. -/
  | program (text : String)
deriving Repr, DecidableEq

namespace Chunk

/-- The text of a piece. -/
def text : Chunk → String
  | report text => text
  | program text => text

/-- Everything that was written, in order. -/
def everything (chunks : List Chunk) : String := String.join (chunks.map text)

/-- What the console itself wrote. -/
def reports (chunks : List Chunk) : String :=
  String.join <| chunks.map fun
    | report text => text
    | program _ => ""

/-- What running programs wrote. -/
def programs (chunks : List Chunk) : String :=
  String.join <| chunks.map fun
    | report _ => ""
    | program text => text

end Chunk

namespace Console

/-- What invites the next form. -/
def prompt : String := "ready> "

/-- The prompt of a dialogue that has one. -/
def promptChunks (interactive : Bool) : List Chunk :=
  if interactive then [.report prompt] else []

/-- The report of an ending without a value. -/
def endingText : Ending → String
  | .value value => Binary64.fixed value
  | .emptyCell symbol => s!"call of '{symbol}', which has no code"
  | .wrongArity _ found => s!"call with {found} arguments"
  | .stuck => "instruction that cannot be executed"
  | .exhausted => "no steps left"

/-- The report of what came of a form. -/
def outcomeText (showCode : Bool) : Outcome → String
  | .defined prototype listing =>
    if showCode then s!"Read function definition:\n{listing}"
    else s!"Read function definition: {prototype.display}\n"
  | .declared prototype => s!"Read extern: {prototype.display}\n"
  | .evaluated value => s!"Evaluated to {Binary64.fixed value}\n"
  | .stopped ending => s!"Stopped: {endingText ending}\n"

/-- The report of an error. -/
def errorText (e : FormError) : String := s!"Error: {e.message}\n"

/-- What a turn comes to. -/
structure Turn (ts : Tokens) where
  /-- The session afterwards. -/
  session : Session
  /-- What was written. -/
  chunks : List Chunk
  /-- The tokens after the turn. -/
  rest : Tokens
  /-- The error that ends the dialogue, if one does. -/
  fatal? : Option FormError
  /-- A turn consumes a token. -/
  shorter : rest.size < ts.size

/-- What an error leaves when one token is skipped. -/
theorem size_skip_lt {ts rest : Tokens} (hne : ts.pending ≠ []) (h : rest.size ≤ ts.size) :
    rest.tail.size < ts.size := by
  have hpos : 0 < ts.size := List.length_pos_iff.mpr hne
  have htail : rest.tail.size = rest.size - 1 := by simp [Tokens.size, Tokens.tail]
  omega

/-- Deal with the form at the current token and report. -/
def respond (s : Session) (limit : Nat) (ts : Tokens) (hne : ts.pending ≠ []) : Turn ts :=
  match s.readItem ts with
  | .error problem rest h =>
    ⟨s, [.report (errorText (.syntaxError problem))], rest.tail, none, size_skip_lt hne h⟩
  | .ok item rest h =>
    let (s, response) := s.handle limit item
    let written := Chunk.program response.output
    match response.outcome with
    | .ok outcome =>
      ⟨s, [written, .report (outcomeText s.options.showCode outcome)], rest, none, h⟩
    | .error e =>
      if e.isFatal then ⟨s, [written], rest, some e, h⟩
      else ⟨s, [written, .report (errorText e)], rest, none, h⟩

/-- One turn: pass over a semicolon, or deal with a form.  A prompt follows
unless the dialogue ends. -/
def turn (s : Session) (limit : Nat) (interactive : Bool) (ts : Tokens)
    (hne : ts.pending ≠ []) : Turn ts :=
  if h : Grammar.atSeparator ts = true then
    ⟨s, promptChunks interactive, ts.tail, none,
      Nat.lt_of_succ_le (Nat.le_of_eq (Grammar.size_tail_of_atSeparator h))⟩
  else
    let answer := respond s limit ts hne
    match answer.fatal? with
    | some _ => answer
    | none => { answer with chunks := answer.chunks ++ promptChunks interactive }

/-- Whether a turn is settled by the tokens that have arrived: it leaves at
least one of them unread, and reading never looks further than that. -/
def isSettled (s : Session) (ts : Tokens) : Bool :=
  if Grammar.atSeparator ts then !ts.tail.pending.isEmpty
  else !(s.readItem ts).rest.pending.isEmpty

/-- What a dialogue comes to. -/
structure Dialogue where
  /-- The session afterwards. -/
  session : Session
  /-- What was written. -/
  chunks : List Chunk
  /-- The error that ended the dialogue early, if one did. -/
  fatal? : Option FormError

/-- Turn after turn up to the end of the tokens or a fatal error. -/
def converse (s : Session) (limit : Nat) (interactive : Bool) (ts : Tokens) : Dialogue :=
  if hne : ts.pending = [] then ⟨s, [], none⟩
  else
    let answer := turn s limit interactive ts hne
    match answer.fatal? with
    | some e => ⟨answer.session, answer.chunks, some e⟩
    | none =>
      let others := converse answer.session limit interactive answer.rest
      { others with chunks := answer.chunks ++ others.chunks }
termination_by ts.size
decreasing_by exact answer.shorter

/-- A whole dialogue, from the first prompt on. -/
def run (s : Session) (limit : Nat) (interactive : Bool) (text : List Char) : Dialogue :=
  let dialogue := converse s limit interactive (.ofChars text)
  { dialogue with chunks := promptChunks interactive ++ dialogue.chunks }

/-- The message of an error that ends a dialogue. -/
def fatalText : String := "internal compiler error"

end Console

end Reckon
