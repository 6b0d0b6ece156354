import Reckon.Proofs.Session.Lookahead

/-!
# Loops over tokens

Forms are read in advance, run or answered one after the other, in a loop that ends where the
tokens do.  Each loop is written here as a driver, whose rounds may be counted
(`Driver.run`).  A round may consume many tokens or few, and a round that reports a mistake may
have consumed none.  But a round after which the loop goes on has consumed a token, because a
form that was read has at least one and because a dialogue skips one after a mistake
(`Driver.Progresses`).  So a loop ends after at most as many rounds as there are tokens, and
comes to what the recursive function comes to (`Driver.Progresses.run_eq`).

`loops_end` puts this together for the three loops and for the procedures that they call.  A
dialogue consumes a token in every round.  The other two loops need not do so in their last
round, where they stop at a mistake (`loops_stopUnmoved`).
-/

namespace Reckon

/-- A loop that goes on until the tokens run out or a round of it stops. -/
structure Driver (σ ρ : Type) where
  /-- What the loop comes to when the tokens have run out. -/
  finish : σ → ρ
  /-- One round: the tokens that it leaves, and the state from which the loop goes on or what
  the loop comes to. -/
  round : σ → (ts : Tokens) → ts.pending ≠ [] → Tokens × (σ ⊕ ρ)

namespace Driver

variable {σ ρ : Type} {d : Driver σ ρ} {mistake : ρ → Prop} {result : σ → Tokens → ρ}

/-- The tokens at which the rounds of a loop begin, and what the loop comes to, if it ends within
a number of rounds. -/
def run (d : Driver σ ρ) : Nat → σ → Tokens → Option (List Tokens × ρ)
  | 0, s, ts => if ts.pending = [] then some ([], d.finish s) else none
  | rounds + 1, s, ts =>
    if hne : ts.pending = [] then some ([], d.finish s)
    else
      match d.round s ts hne with
      | (_, .inr r) => some ([ts], r)
      | (rest, .inl next) => (d.run rounds next rest).map fun (starts, r) => (ts :: starts, r)

/-- Every round takes tokens from the front: at least one, unless it ends the loop with a
mistake. -/
def Progresses (d : Driver σ ρ) (mistake : ρ → Prop) : Prop :=
  ∀ s ts hne, ∃ k ≤ ts.size, (d.round s ts hne).1 = ts.drop k ∧
    (0 < k ∨ ∃ r, (d.round s ts hne).2 = .inr r ∧ mistake r)

/-- A function says what the loop comes to from every state. -/
structure Computes (d : Driver σ ρ) (result : σ → Tokens → ρ) : Prop where
  atEnd : ∀ s ts, ts.pending = [] → result s ts = d.finish s
  goesOn : ∀ s ts hne next, (d.round s ts hne).2 = .inl next →
    result s ts = result next (d.round s ts hne).1
  stops : ∀ s ts hne r, (d.round s ts hne).2 = .inr r → result s ts = r

/-- Each round is counted against a token that it consumes, or at which it ends the loop. -/
theorem Progresses.run_eq (hprogresses : d.Progresses mistake) (hcomputes : d.Computes result)
    (s : σ) (ts : Tokens) {rounds : Nat} (hrounds : ts.size ≤ rounds) :
    ∃ starts, d.run rounds s ts = some (starts, result s ts) ∧ starts.length ≤ ts.size := by
  induction rounds generalizing s ts with
  | zero =>
      have hend : ts.pending = [] := List.length_eq_zero_iff.mp (Nat.le_zero.mp hrounds)
      refine ⟨[], ?_, Nat.zero_le _⟩
      rw [run, if_pos hend, hcomputes.atEnd s ts hend]
  | succ rounds ih =>
      by_cases hend : ts.pending = []
      · refine ⟨[], ?_, Nat.zero_le _⟩
        rw [run, dif_pos hend, hcomputes.atEnd s ts hend]
      · have hsize : 0 < ts.size := List.length_pos_iff.mpr hend
        obtain ⟨k, hk, hrest, hprogress⟩ := hprogresses s ts hend
        have hgoes := hcomputes.goesOn s ts hend
        have hstops := hcomputes.stops s ts hend
        rw [run, dif_neg hend]
        cases hround : d.round s ts hend with
        | mk rest goal =>
            rw [hround] at hrest hprogress hgoes hstops
            cases goal with
            | inr r => exact ⟨[ts], by rw [hstops r rfl], hsize⟩
            | inl next =>
                have hpos : 0 < k := by
                  rcases hprogress with hpos | ⟨r, hr, -⟩
                  · exact hpos
                  · cases hr
                have hless : rest.size = ts.size - k := by
                  rw [show rest = ts.drop k from hrest, Tokens.size_drop]
                obtain ⟨starts, hrun, hcount⟩ := ih next rest (by omega)
                refine ⟨ts :: starts, ?_, ?_⟩
                · simp only [hrun, Option.map_some, hgoes next rfl]
                · rw [List.length_cons]
                  omega

/-- A loop makes progress, and from a state it comes to what a function says, after at most as
many rounds as there are tokens. -/
structure EndsInTime (d : Driver σ ρ) (mistake : ρ → Prop) (s : σ) (f : Tokens → ρ) : Prop where
  progresses : d.Progresses mistake
  rounds : ∀ ts, ∃ starts, d.run ts.size s ts = some (starts, f ts) ∧ starts.length ≤ ts.size

theorem Progresses.endsInTime {f : Tokens → ρ} (hprogresses : d.Progresses mistake)
    (hcomputes : d.Computes result) (s : σ) (hresult : ∀ ts, result s ts = f ts) :
    d.EndsInTime mistake s f where
  progresses := hprogresses
  rounds ts := hresult ts ▸ hprogresses.run_eq hcomputes s ts (Nat.le_refl _)

theorem Progresses.mono {mistake' : ρ → Prop} (h : d.Progresses mistake)
    (himp : ∀ r, mistake r → mistake' r) : d.Progresses mistake' := by
  intro s ts hne
  obtain ⟨k, hk, hrest, hpos | ⟨r, hr, hmistake⟩⟩ := h s ts hne
  · exact ⟨k, hk, hrest, .inl hpos⟩
  · exact ⟨k, hk, hrest, .inr ⟨r, hr, himp r hmistake⟩⟩

end Driver

/-- Reading a form takes tokens from the front: at least one, unless it meets a mistake. -/
theorem Grammar.item_takes (ops : OperatorTable) (ts : Tokens) :
    ∃ k ≤ ts.size, (Grammar.item ops ts).rest = ts.drop k ∧
      (0 < k ∨ ∃ problem, (Grammar.item ops ts).outcome = .error problem) := by
  refine ⟨_, Nat.sub_le _ _, (Grammar.item_looksOneAhead ops ts).1, ?_⟩
  cases Grammar.item ops ts with
  | ok item rest bound =>
      left
      change 0 < ts.size - rest.size
      omega
  | error problem rest bound => exact .inr ⟨problem, rfl⟩

section Forms

variable {σ ρ : Type} (operators : σ → OperatorTable) (finish : σ → ρ)
  (refuse : σ → SyntaxError → ρ) (accept : σ → Item → σ ⊕ ρ)

/-- The loop that passes over semicolons, reads form after form and stops at the first one that
cannot be read. -/
def formLoop : Driver σ ρ where
  finish := finish
  round s ts _ :=
    if Grammar.atSeparator ts then (ts.tail, .inl s)
    else
      match Grammar.item (operators s) ts with
      | .ok item rest _ => (rest, accept s item)
      | .error problem rest _ => (rest, .inr (refuse s problem))

variable {operators finish refuse accept} {s : σ} {ts : Tokens}

theorem formLoop_round_separator (hne : ts.pending ≠ []) (hat : Grammar.atSeparator ts = true) :
    (formLoop operators finish refuse accept).round s ts hne = (ts.tail, .inl s) :=
  if_pos hat

theorem formLoop_round_form (hne : ts.pending ≠ []) (hat : ¬ Grammar.atSeparator ts = true) :
    (formLoop operators finish refuse accept).round s ts hne =
      match Grammar.item (operators s) ts with
      | .ok item rest _ => (rest, accept s item)
      | .error problem rest _ => (rest, .inr (refuse s problem)) :=
  if_neg hat

variable (operators finish refuse accept)

theorem formLoop_progresses :
    (formLoop operators finish refuse accept).Progresses
      fun r => ∃ s problem, r = refuse s problem := by
  intro s ts hne
  by_cases hat : Grammar.atSeparator ts = true
  · refine ⟨1, List.length_pos_iff.mpr hne, ?_, .inl Nat.one_pos⟩
    rw [formLoop_round_separator hne hat, Tokens.drop_one]
  · obtain ⟨k, hk, hrest, hprogress⟩ := Grammar.item_takes (operators s) ts
    refine ⟨k, hk, ?_⟩
    rw [formLoop_round_form hne hat]
    cases hitem : Grammar.item (operators s) ts with
    | ok item rest bound =>
        rw [hitem] at hrest hprogress
        refine ⟨hrest, hprogress.imp_right ?_⟩
        rintro ⟨problem, hproblem⟩
        cases hproblem
    | error problem rest bound =>
        rw [hitem] at hrest
        exact ⟨hrest, .inr ⟨_, rfl, s, problem, rfl⟩⟩

/-- What a loop over forms comes to is said by a function with the same three cases. -/
theorem formLoop_computes {result : σ → Tokens → ρ}
    (hend : ∀ s ts, ts.pending = [] → result s ts = finish s)
    (hseparator : ∀ s ts, ts.pending ≠ [] → Grammar.atSeparator ts = true →
      result s ts = result s ts.tail)
    (hform : ∀ s ts, ts.pending ≠ [] → ¬ Grammar.atSeparator ts = true →
      result s ts =
        match Grammar.item (operators s) ts with
        | .ok item rest _ => (accept s item).elim (result · rest) id
        | .error problem _ _ => refuse s problem) :
    (formLoop operators finish refuse accept).Computes result where
  atEnd := hend
  goesOn s ts hne next hnext := by
    by_cases hat : Grammar.atSeparator ts = true
    · rw [formLoop_round_separator hne hat] at hnext ⊢
      cases hnext
      exact hseparator s ts hne hat
    · rw [formLoop_round_form hne hat] at hnext ⊢
      rw [hform s ts hne hat]
      cases hitem : Grammar.item (operators s) ts with
      | ok item rest bound =>
          rw [hitem] at hnext
          change accept s item = .inl next at hnext
          simp only [hnext, Sum.elim_inl]
      | error problem rest bound =>
          rw [hitem] at hnext
          cases hnext
  stops s ts hne r hr := by
    by_cases hat : Grammar.atSeparator ts = true
    · rw [formLoop_round_separator hne hat] at hr
      cases hr
    · rw [formLoop_round_form hne hat] at hr
      rw [hform s ts hne hat]
      cases hitem : Grammar.item (operators s) ts with
      | ok item rest bound =>
          rw [hitem] at hr
          change accept s item = .inr r at hr
          simp only [hr, Sum.elim_inr, id]
      | error problem rest bound =>
          rw [hitem] at hr
          cases hr
          rfl

end Forms

/-- The loop of `Grammar.program`. -/
def programLoop (ops : OperatorTable) : Driver (List Item) (Except SyntaxError (List Item)) :=
  formLoop (fun _ => ops) .ok (fun _ problem => .error problem)
    fun items item => .inl (items ++ [item])

theorem programLoop_computes (ops : OperatorTable) :
    (programLoop ops).Computes fun items ts => (Grammar.program ops ts).map (items ++ ·) := by
  refine formLoop_computes _ _ _ _ (fun items ts hend => ?_)
    (fun items ts hne hat => ?_) (fun items ts hne hat => ?_)
  · rw [Grammar.program, if_pos hend]
    exact congrArg Except.ok (List.append_nil items)
  · conv_lhs => rw [Grammar.program, if_neg hne, dif_pos hat]
  · rw [Grammar.program, if_neg hne, dif_neg hat]
    cases Grammar.item ops ts with
    | error problem rest bound => rfl
    | ok item rest bound =>
        simp only [Sum.elim_inl]
        cases Grammar.program ops rest with
        | error problem => rfl
        | ok found => simp [Except.map]

/-- The loop of `Session.runTokens`. -/
def sourceLoop (limit : Nat) : Driver (Session × List (Outcome × String)) SourceRun :=
  formLoop (fun (s, _) => s.operators) (fun (s, outcomes) => ⟨s, outcomes, none⟩)
    (fun (s, outcomes) problem => ⟨s, outcomes, some (.syntaxError problem)⟩)
    fun (s, outcomes) item =>
      let (s', response) := s.handle limit item
      match response.outcome with
      | .error e => .inr ⟨s', outcomes, some e⟩
      | .ok outcome => .inl (s', outcomes ++ [(outcome, response.output)])

theorem sourceLoop_computes (limit : Nat) :
    (sourceLoop limit).Computes fun (s, outcomes) ts =>
      { s.runTokens limit ts with outcomes := outcomes ++ (s.runTokens limit ts).outcomes } := by
  refine formLoop_computes _ _ _ _ (fun (s, outcomes) ts hend => ?_)
    (fun (s, outcomes) ts hne hat => ?_) (fun (s, outcomes) ts hne hat => ?_)
  · have hrun : s.runTokens limit ts = ⟨s, [], none⟩ := by
      rw [Session.runTokens, if_pos hend]
    simp only [hrun, List.append_nil]
  · have hrun : s.runTokens limit ts = s.runTokens limit ts.tail := by
      rw [Session.runTokens, if_neg hne, dif_pos hat]
    simp only [hrun]
  · have hread : s.readItem ts = Grammar.item s.operators ts := rfl
    dsimp only
    rw [Session.runTokens, if_neg hne, dif_neg hat, hread]
    cases Grammar.item s.operators ts with
    | error problem rest bound => simp only [List.append_nil]
    | ok item rest bound =>
        cases houtcome : (s.handle limit item).2.outcome with
        | error e => simp [houtcome]
        | ok outcome => simp [houtcome]

/-- The loop of `Console.converse`. -/
def dialogueLoop (limit : Nat) (interactive : Bool) :
    Driver (Session × List Chunk) Console.Dialogue where
  finish := fun (s, chunks) => ⟨s, chunks, none⟩
  round := fun (s, chunks) ts hne =>
    let answer := Console.turn s limit interactive ts hne
    (answer.rest,
      match answer.fatal? with
      | some e => .inr ⟨answer.session, chunks ++ answer.chunks, some e⟩
      | none => .inl (answer.session, chunks ++ answer.chunks))

/-- A turn consumes a token, also where reading a form has consumed none. -/
theorem dialogueLoop_progresses (limit : Nat) (interactive : Bool) :
    (dialogueLoop limit interactive).Progresses fun _ => False := by
  rintro ⟨s, chunks⟩ ts hne
  obtain ⟨-, n, hrest, -⟩ :=
    Console.turn_sameView (s := s) limit interactive hne hne (.refl _ _ _)
  have hless := (Console.turn s limit interactive ts hne).shorter
  rw [← ts.drop_min] at hrest
  refine ⟨min n ts.size, Nat.min_le_right _ _, hrest, .inl ?_⟩
  rw [hrest, Tokens.size_drop] at hless
  omega

theorem dialogueLoop_computes (limit : Nat) (interactive : Bool) :
    (dialogueLoop limit interactive).Computes fun (s, chunks) ts =>
      { Console.converse s limit interactive ts with
        chunks := chunks ++ (Console.converse s limit interactive ts).chunks } where
  atEnd := fun (s, chunks) ts hend => by
    dsimp only
    rw [Console.converse, dif_pos hend, List.append_nil]
    rfl
  goesOn := fun (s, chunks) ts hne next hnext => by
    dsimp only [dialogueLoop] at hnext ⊢
    rw [Console.converse, dif_neg hne]
    dsimp only
    cases hfatal : (Console.turn s limit interactive ts hne).fatal? with
    | some e =>
        rw [hfatal] at hnext
        cases hnext
    | none =>
        rw [hfatal] at hnext
        cases hnext
        simp only [List.append_assoc]
  stops := fun (s, chunks) ts hne r hr => by
    dsimp only [dialogueLoop] at hr ⊢
    rw [Console.converse, dif_neg hne]
    dsimp only
    cases hfatal : (Console.turn s limit interactive ts hne).fatal? with
    | some e =>
        rw [hfatal] at hr
        cases hr
        rfl
    | none =>
        rw [hfatal] at hr
        cases hr

/-- **Every loop over tokens makes progress and ends.**  A procedure of the grammar ends whatever
the input is, although nothing is consumed at the end of it: the depth of its calls is bounded
by the number of tokens.  A form that was read has taken a token.  The loops that read forms in
advance, run them or answer them have at most one round for each token.  A dialogue consumes
one in every round, after a mistake too.  The others consume one in every round as well, except
that they stop at a form that cannot be read and leave the rest as reading it has left it. -/
theorem loops_end :
    (∀ (ops : OperatorTable) (α : Type) (p : Grammar.Procedure α) (ts : Tokens) (more : Nat),
      (p.attempt ops (6 * ts.size + p.weight + 1 + more)).run ts = some (p.read ops ts)) ∧
    (∀ (ops : OperatorTable) (ts : Tokens), ∃ k ≤ ts.size,
      (Grammar.item ops ts).rest = ts.drop k ∧
        (0 < k ∨ ∃ problem, (Grammar.item ops ts).outcome = .error problem)) ∧
    (∀ ops : OperatorTable, (programLoop ops).EndsInTime
      (fun r => ∃ problem, r = .error problem) [] (Grammar.program ops)) ∧
    (∀ (s : Session) (limit : Nat), (sourceLoop limit).EndsInTime
      (fun r => ∃ problem, r.error? = some (.syntaxError problem)) (s, [])
      (s.runTokens limit)) ∧
    ∀ (s : Session) (limit : Nat) (interactive : Bool),
      (dialogueLoop limit interactive).EndsInTime (fun _ => False) (s, [])
        (Console.converse s limit interactive) := by
  refine ⟨fun ops α p ts more => p.attempt_eq_read ops ts (by omega), Grammar.item_takes,
    fun ops => ?_, fun s limit => ?_, fun s limit interactive => ?_⟩
  · refine Driver.Progresses.endsInTime ?_ (programLoop_computes ops) [] fun ts => ?_
    · refine (formLoop_progresses _ _ _ _).mono ?_
      rintro r ⟨-, problem, rfl⟩
      exact ⟨problem, rfl⟩
    · cases Grammar.program ops ts <;> rfl
  · refine Driver.Progresses.endsInTime ?_ (sourceLoop_computes limit) (s, []) fun ts => rfl
    refine (formLoop_progresses _ _ _ _).mono ?_
    rintro r ⟨-, problem, rfl⟩
    exact ⟨problem, rfl⟩
  · exact (dialogueLoop_progresses limit interactive).endsInTime
      (dialogueLoop_computes limit interactive) (s, []) fun ts => rfl

/-- At a word that begins no form, the loops that do not skip a token stop without having
consumed any. -/
theorem loops_stopUnmoved :
    let ts := Tokens.ofString "else"
    let problem : SyntaxError := ⟨.expressionExpected, ts.span⟩
    ∃ hne : ts.pending ≠ [],
      (programLoop .builtins).round [] ts hne = (ts, .inr (.error problem)) ∧
      (sourceLoop 0).round (.start .standard, []) ts hne =
        (ts, .inr ⟨.start .standard, [], some (.syntaxError problem)⟩) ∧
      ¬ (programLoop .builtins).Progresses (fun _ => False) ∧
      ¬ (sourceLoop 0).Progresses fun _ => False := by
  intro ts problem
  have hsize : ts.size = 1 := by with_unfolding_all rfl
  have hne : ts.pending ≠ [] := List.length_pos_iff.mp (Nat.lt_of_lt_of_eq Nat.one_pos hsize.symm)
  have hprogram : (programLoop .builtins).round [] ts hne = (ts, .inr (.error problem)) := by
    with_unfolding_all rfl
  have hsource : (sourceLoop 0).round (.start .standard, []) ts hne =
      (ts, .inr ⟨.start .standard, [], some (.syntaxError problem)⟩) := by
    with_unfolding_all rfl
  have hmoves {k : Nat} (hpos : 0 < k) : ts ≠ ts.drop k := by
    intro heq
    have hless := congrArg Tokens.size heq
    rw [Tokens.size_drop] at hless
    omega
  refine ⟨hne, hprogram, hsource, fun hprogresses => ?_, fun hprogresses => ?_⟩
  · obtain ⟨k, -, hrest, hpos | ⟨r, -, himpossible⟩⟩ := hprogresses [] ts hne
    · exact hmoves hpos ((congrArg Prod.fst hprogram).symm.trans hrest)
    · exact himpossible
  · obtain ⟨k, -, hrest, hpos | ⟨r, -, himpossible⟩⟩ :=
      hprogresses (.start .standard, []) ts hne
    · exact hmoves hpos ((congrArg Prod.fst hsource).symm.trans hrest)
    · exact himpossible

end Reckon
