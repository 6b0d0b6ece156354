import Reckon.Proofs.Grammar.Congruence
import Reckon.Proofs.Token.LineEnds

/-!
# Reading does not depend on offsets

Readers look at what tokens say and hand on where they stand, but they never compare places.  So
inputs with the same lexemes at the same lines and columns are read alike
(`Grammar.Procedure.read_alike`): the same values, or the same mistakes at the same lines and
columns.  Only a mistake at the end of the input may be placed differently, since the ends may
be.
-/

namespace Reckon

namespace Tokens.Alike

variable {ts ts' : Tokens}

theorem size_eq (h : ts.Alike ts') : ts'.size = ts.size := by
  have hlength := congrArg List.length h
  rwa [List.length_map, List.length_map] at hlength

theorem tail (h : ts.Alike ts') : ts.tail.Alike ts'.tail := by
  simpa [Tokens.Alike, Tokens.tail] using congrArg List.tail h

/-- The current tokens of two inputs say the same at the same place, or both inputs have ended. -/
theorem head (h : ts.Alike ts') :
    (∃ token token', ts.head? = some token ∧ ts'.head? = some token' ∧
      token'.place = token.place) ∨ ts.head? = none ∧ ts'.head? = none := by
  obtain ⟨pending, finish⟩ := ts
  obtain ⟨pending', finish'⟩ := ts'
  cases pending with
  | nil =>
      obtain rfl := List.map_eq_nil_iff.mp h
      exact Or.inr ⟨rfl, rfl⟩
  | cons token others =>
      obtain ⟨token', others', rfl, hplace, -⟩ := List.map_eq_cons_iff.mp h
      exact Or.inl ⟨token, token', rfl, rfl, hplace⟩

theorem lexeme? (h : ts.Alike ts') : ts'.lexeme? = ts.lexeme? := by
  unfold Tokens.lexeme?
  rcases h.head with ⟨token, token', htoken, htoken', hplace⟩ | ⟨hend, hend'⟩
  · rw [htoken, htoken']
    exact congrArg (fun place => some place.1) hplace
  · rw [hend, hend']

theorem operator? (h : ts.Alike ts') (ops : OperatorTable) :
    ts'.operator? ops = ts.operator? ops := by
  rw [Tokens.operator?, Tokens.operator?, h.lexeme?]

end Tokens.Alike

/-- Two places have the same line and column, or each is the end of its input. -/
def Span.Alike (finish finish' span span' : Span) : Prop :=
  span'.line = span.line ∧ span'.column = span.column ∨ span = finish ∧ span' = finish'

theorem Tokens.Alike.span {ts ts' : Tokens} (h : ts.Alike ts') :
    Span.Alike ts.finish ts'.finish ts.span ts'.span := by
  unfold Tokens.span
  rcases h.head with ⟨token, token', htoken, htoken', hplace⟩ | ⟨hend, hend'⟩
  · rw [htoken, htoken']
    obtain ⟨-, hplace⟩ := Prod.mk.inj hplace
    obtain ⟨hline, hcolumn⟩ := Prod.mk.inj hplace
    exact Or.inl ⟨hline, hcolumn⟩
  · rw [hend, hend']
    exact Or.inr ⟨rfl, rfl⟩

namespace Grammar

/-- The same value, or the same mistake at places that are alike. -/
inductive SameOutcome {α : Type} (finish finish' : Span) :
    Except SyntaxError α → Except SyntaxError α → Prop where
  | ok (a : α) : SameOutcome finish finish' (.ok a) (.ok a)
  | error {fault : SyntaxFault} {span span' : Span}
      (places : Span.Alike finish finish' span span') :
      SameOutcome finish finish' (.error ⟨fault, span⟩) (.error ⟨fault, span'⟩)

/-- Two results are the same but for offsets and for the ends of their inputs. -/
structure SameResult {α : Type} (ts ts' : Tokens) (result result' : Except SyntaxError α × Tokens) :
    Prop where
  outcome : SameOutcome ts.finish ts'.finish result.1 result'.1
  rest : result.2.Alike result'.2
  finish : result.2.finish = ts.finish
  finish' : result'.2.finish = ts'.finish

namespace Attempt

variable {α β : Type}

/-- Two attempts come to the same on inputs that are alike. -/
def Blind (m m' : Attempt α) : Prop :=
  ∀ ts ts', ts.Alike ts' → ∀ result, m.run ts = some result →
    ∃ result', m'.run ts' = some result' ∧ SameResult ts ts' result result'

namespace Blind

/-- A look at the current token. -/
theorem look {m : Attempt α} (found : Tokens → Except SyntaxError α)
    (hm : ∀ ts, m.run ts = some (found ts, ts))
    (hfound : ∀ ts ts', ts.Alike ts' → SameOutcome ts.finish ts'.finish (found ts) (found ts')) :
    Blind m m := by
  intro ts ts' h result hrun
  cases (hm ts).symm.trans hrun
  exact ⟨_, hm ts', hfound ts ts' h, h, rfl, rfl⟩

theorem bind {m m' : Attempt α} {k k' : α → Attempt β} (hm : Blind m m')
    (hk : ∀ a, Blind (k a) (k' a)) : Blind (m >>= k) (m' >>= k') := by
  intro ts ts' h result hrun
  simp only [Bind.bind] at hrun ⊢
  cases hfirst : m.run ts with
  | none =>
      rw [hfirst] at hrun
      cases hrun
  | some found =>
      obtain ⟨found', hfirst', hsame⟩ := hm ts ts' h found hfirst
      rw [hfirst] at hrun
      rw [hfirst']
      obtain ⟨outcome, mid⟩ := found
      obtain ⟨outcome', mid'⟩ := found'
      obtain ⟨houtcome, hmid, hfinish, hfinish'⟩ := hsame
      dsimp only at houtcome hmid hfinish hfinish'
      cases houtcome with
      | error places =>
          cases hrun
          exact ⟨_, rfl, .error places, hmid, hfinish, hfinish'⟩
      | ok a =>
          obtain ⟨result', hrun', hresult⟩ := hk a mid mid' hmid result hrun
          have houtcome := hresult.outcome
          rw [hfinish, hfinish'] at houtcome
          exact ⟨result', hrun', houtcome, hresult.rest, hresult.finish.trans hfinish,
            hresult.finish'.trans hfinish'⟩

theorem congruence (ops : OperatorTable) : Congruence ops ops Blind where
  never := fun _ _ _ _ h => by cases h
  pure a := look (fun _ => .ok a) (fun _ => rfl) fun _ _ _ => .ok a
  lexeme? := look (fun ts => .ok ts.lexeme?) (fun _ => rfl) fun ts ts' h => by
    rw [h.lexeme?]
    exact .ok _
  operator? := look (fun ts => .ok (ts.operator? ops)) (fun _ => rfl) fun ts ts' h => by
    rw [h.operator?]
    exact .ok _
  advance := fun ts ts' h result hrun => by
    cases hrun
    exact ⟨_, rfl, .ok (), h.tail, rfl, rfl⟩
  refuse fault := look (fun ts => .error ⟨fault, ts.span⟩) (fun _ => rfl) fun ts ts' h =>
    .error h.span
  bind := bind

end Blind

end Attempt

/-- **Inputs with the same lexemes at the same lines and columns are read alike.** -/
theorem Procedure.read_alike (ops : OperatorTable) {α : Type} (p : Procedure α) {ts ts' : Tokens}
    (h : ts.Alike ts') : SameResult ts ts' (p.read ops ts) (p.read ops ts') := by
  have hdepth := Nat.lt_succ_self (6 * ts.size + p.weight)
  obtain ⟨result', hrun', hsame⟩ := (Attempt.Blind.congruence ops).attempt _ p ts ts' h _
    (p.attempt_eq_read ops ts hdepth)
  rw [← h.size_eq] at hdepth
  rw [← h.size_eq, p.attempt_eq_read ops ts' hdepth] at hrun'
  rwa [Option.some.inj hrun']

end Grammar

end Reckon
