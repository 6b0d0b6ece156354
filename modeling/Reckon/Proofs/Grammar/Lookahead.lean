import Reckon.Proofs.Grammar.Congruence

/-!
# One token ahead

Reading a form depends on the tokens that it consumes and on the one after them, and on what
the table of operators says of these, but on nothing else (`Grammar.item_looksOneAhead`,
`Grammar.expression_looksOneAhead`).

An attempt is local if it comes to the same on any two inputs, as long as they agree on one
token more than it consumes (`Attempt.Local`).  Looking at the current token needs one token
and consumes none; a sequence of local attempts is local, since the second one starts at the
token that the first one may have looked at last.
-/

namespace Reckon

namespace Tokens

/-- The tokens after the first few. -/
def drop (ts : Tokens) (n : Nat) : Tokens := { ts with pending := ts.pending.drop n }

/-- The token at some distance and where it stands.  Once the tokens have run out, there is the
end of the input. -/
def ahead (ts : Tokens) (i : Nat) : Option Lexeme × Span := ((ts.drop i).lexeme?, (ts.drop i).span)

@[simp] theorem size_drop (ts : Tokens) (n : Nat) : (ts.drop n).size = ts.size - n :=
  List.length_drop

theorem drop_drop (ts : Tokens) (m n : Nat) : (ts.drop m).drop n = ts.drop (m + n) := by
  simp [drop, List.drop_drop]

theorem drop_one (ts : Tokens) : ts.drop 1 = ts.tail := by
  simp [drop, tail]

theorem tail_drop (ts : Tokens) (k : Nat) : (ts.drop k).tail = ts.drop (k + 1) := by
  rw [← drop_one, drop_drop]

/-- No more tokens can be dropped than there are. -/
theorem drop_min (ts : Tokens) (n : Nat) : ts.drop (min n ts.size) = ts.drop n := by
  rcases Nat.le_total n ts.size with hle | hge
  · rw [Nat.min_eq_left hle]
  · have hsize : ts.pending.length ≤ n := hge
    rw [Nat.min_eq_right hge]
    simp [drop, size, List.drop_eq_nil_of_le hsize]

theorem ahead_drop (ts : Tokens) (k i : Nat) : (ts.drop k).ahead i = ts.ahead (k + i) := by
  rw [ahead, ahead, drop_drop]

theorem ahead_fst_eq_none_iff {ts : Tokens} {i : Nat} :
    (ts.ahead i).1 = none ↔ ts.size ≤ i := by
  rw [ahead, lexeme?_eq_none_iff]
  exact List.drop_eq_nil_iff

end Tokens

/-- Two inputs begin with the same tokens, and two tables say the same of them. -/
structure SameView (n : Nat) (ops ops' : OperatorTable) (ts ts' : Tokens) : Prop where
  ahead : ∀ i < n, ts'.ahead i = ts.ahead i
  precedence : ∀ i < n, ∀ c, (ts.ahead i).1 = some (.symbol c) →
    ops'.precedence? c = ops.precedence? c

namespace SameView

variable {n m k : Nat} {ops ops' : OperatorTable} {ts ts' : Tokens}

theorem refl (n : Nat) (ops : OperatorTable) (ts : Tokens) : SameView n ops ops ts ts where
  ahead _ _ := rfl
  precedence _ _ _ _ := rfl

theorem mono (h : SameView n ops ops' ts ts') (hle : m ≤ n) : SameView m ops ops' ts ts' where
  ahead i hi := h.ahead i (by omega)
  precedence i hi := h.precedence i (by omega)

/-- After the same number of tokens, the inputs begin with the same other ones. -/
theorem drop (h : SameView (k + n) ops ops' ts ts') :
    SameView n ops ops' (ts.drop k) (ts'.drop k) where
  ahead i hi := by
    rw [Tokens.ahead_drop, Tokens.ahead_drop]
    exact h.ahead (k + i) (by omega)
  precedence i hi c hc := by
    rw [Tokens.ahead_drop] at hc
    exact h.precedence (k + i) (by omega) c hc

/-- What comes after some tokens does not matter to a view of them. -/
theorem of_extends (ops : OperatorTable) (h : ts.pending <+: ts'.pending) (hn : n ≤ ts.size) :
    SameView n ops ops ts ts' where
  ahead i hi := by
    obtain ⟨more, hmore⟩ := h
    have hlt : i < ts.pending.length := Nat.lt_of_lt_of_le hi hn
    have hhead : (ts'.drop i).head? = (ts.drop i).head? := by
      simp only [Tokens.head?, Tokens.drop, ← hmore, List.head?_drop]
      exact List.getElem?_append_left hlt
    have hsome : (ts.drop i).head? = some ts.pending[i] := by
      simp only [Tokens.head?, Tokens.drop, List.head?_drop]
      exact List.getElem?_eq_getElem hlt
    simp only [Tokens.ahead, Tokens.lexeme?, Tokens.span, hhead, hsome, Option.map_some,
      Option.getD_some]
  precedence _ _ _ _ := rfl

theorem lexeme? (h : SameView (n + 1) ops ops' ts ts') : ts'.lexeme? = ts.lexeme? :=
  congrArg Prod.fst (h.ahead 0 (Nat.succ_pos n))

theorem span (h : SameView (n + 1) ops ops' ts ts') : ts'.span = ts.span :=
  congrArg Prod.snd (h.ahead 0 (Nat.succ_pos n))

theorem operator? (h : SameView (n + 1) ops ops' ts ts') :
    ts'.operator? ops' = ts.operator? ops := by
  unfold Tokens.operator?
  rw [h.lexeme?]
  split
  · next op hop => rw [h.precedence 0 (Nat.succ_pos n) op hop]
  · rfl

/-- Tokens that are consumed from one input are there in the other one. -/
theorem le_size (h : SameView (k + 1) ops ops' ts ts') (hk : k ≤ ts.size) : k ≤ ts'.size := by
  rcases Nat.lt_or_ge ts'.size k with hlt | hge
  · have hnone : (ts'.ahead ts'.size).1 = none := Tokens.ahead_fst_eq_none_iff.mpr (Nat.le_refl _)
    rw [h.ahead ts'.size (by omega)] at hnone
    have hle := Tokens.ahead_fst_eq_none_iff.mp hnone
    omega
  · exact hge

end SameView

namespace Grammar

namespace Attempt

variable {α β : Type} {ops ops' : OperatorTable}

/-- An attempt consumes tokens from the front, and another attempt comes to the same and
consumes as many, wherever the inputs agree on one token more than that. -/
def Local (ops ops' : OperatorTable) (m m' : Attempt α) : Prop :=
  ∀ ts r rest, m.run ts = some (r, rest) → ∃ k ≤ ts.size, rest = ts.drop k ∧
    ∀ ts', SameView (k + 1) ops ops' ts ts' → m'.run ts' = some (r, ts'.drop k)

namespace Local

theorem never : Local ops ops' (Attempt.never : Attempt α) Attempt.never := by
  intro ts r rest h
  cases h

theorem pure (a : α) : Local ops ops' (Pure.pure a) (Pure.pure a) := by
  intro ts r rest h
  cases h
  exact ⟨0, Nat.zero_le _, rfl, fun ts' _ => rfl⟩

/-- A look at the current token consumes nothing. -/
theorem look {m m' : Attempt α} (found : Tokens → Except SyntaxError α)
    (found' : Tokens → Except SyntaxError α) (hm : ∀ ts, m.run ts = some (found ts, ts))
    (hm' : ∀ ts, m'.run ts = some (found' ts, ts))
    (hfound : ∀ ts ts', SameView 1 ops ops' ts ts' → found' ts' = found ts) :
    Local ops ops' m m' := by
  intro ts r rest h
  cases (hm ts).symm.trans h
  refine ⟨0, Nat.zero_le _, rfl, fun ts' hview => ?_⟩
  rw [hm', hfound ts ts' hview]
  rfl

theorem lexeme? : Local ops ops' Attempt.lexeme? Attempt.lexeme? :=
  look (fun ts => .ok ts.lexeme?) (fun ts => .ok ts.lexeme?) (fun _ => rfl) (fun _ => rfl)
    fun _ _ hview => congrArg Except.ok hview.lexeme?

theorem operator? : Local ops ops' (Attempt.operator? ops) (Attempt.operator? ops') :=
  look (fun ts => .ok (ts.operator? ops)) (fun ts => .ok (ts.operator? ops')) (fun _ => rfl)
    (fun _ => rfl) fun _ _ hview => congrArg Except.ok hview.operator?

theorem refuse (fault : SyntaxFault) :
    Local ops ops' (Attempt.refuse fault : Attempt α) (Attempt.refuse fault) :=
  look (fun ts => .error ⟨fault, ts.span⟩) (fun ts => .error ⟨fault, ts.span⟩)
    (fun _ => rfl) (fun _ => rfl) fun _ _ hview => by rw [hview.span]

/-- At the end there is nothing to consume, and one token is enough to see that. -/
theorem advance : Local ops ops' Attempt.advance Attempt.advance := by
  intro ts r rest h
  cases h
  cases hlexeme : ts.lexeme? with
  | none =>
      have hend : ts.pending = [] := Tokens.lexeme?_eq_none_iff.mp hlexeme
      refine ⟨0, Nat.zero_le _, by simp [Tokens.drop, Tokens.tail, hend], fun ts' hview => ?_⟩
      have hend' : ts'.pending = [] :=
        Tokens.lexeme?_eq_none_iff.mp (hview.lexeme?.trans hlexeme)
      simp [Attempt.advance, Tokens.drop, Tokens.tail, hend']
  | some lexeme =>
      have htail := Tokens.size_tail hlexeme
      refine ⟨1, by omega, ts.drop_one.symm, fun ts' _ => ?_⟩
      rw [Tokens.drop_one]
      rfl

/-- A sequence of local attempts is local. -/
theorem bind {m m' : Attempt α} {k k' : α → Attempt β} (hm : Local ops ops' m m')
    (hk : ∀ a, Local ops ops' (k a) (k' a)) : Local ops ops' (m >>= k) (m' >>= k') := by
  intro ts r rest h
  simp only [Bind.bind] at h ⊢
  cases hfirst : m.run ts with
  | none =>
      rw [hfirst] at h
      cases h
  | some found =>
      obtain ⟨outcome, mid⟩ := found
      obtain ⟨n, hn, rfl, hsame⟩ := hm ts outcome mid hfirst
      rw [hfirst] at h
      cases outcome with
      | error problem =>
          cases h
          refine ⟨n, hn, rfl, fun ts' hview => ?_⟩
          rw [hsame ts' hview]
      | ok a =>
          obtain ⟨l, hl, rfl, hthen⟩ := hk a (ts.drop n) r rest h
          rw [Tokens.size_drop] at hl
          refine ⟨n + l, by omega, Tokens.drop_drop _ _ _, fun ts' hview => ?_⟩
          rw [hsame ts' (hview.mono (by omega))]
          have hview' : SameView (l + 1) ops ops' (ts.drop n) (ts'.drop n) :=
            SameView.drop (hview.mono (by omega))
          simpa only [Tokens.drop_drop] using hthen _ hview'

theorem congruence (ops ops' : OperatorTable) : Congruence ops ops' (Local ops ops') where
  never := never
  pure := pure
  lexeme? := lexeme?
  operator? := operator?
  advance := advance
  refuse := refuse
  bind := bind

end Local

end Attempt

namespace Procedure

open Attempt

/-- The number of tokens that a reader consumes. -/
def taken (ops : OperatorTable) {α : Type} (p : Procedure α) (ts : Tokens) : Nat :=
  ts.size - (p.read ops ts).2.size

/-- **A reader takes tokens from the front, and looks one token further at most.**  The depth
to which calls are nested depends on the input, but the number of tokens that are consumed is
the same for every depth. -/
theorem read_lookahead (ops : OperatorTable) {α : Type} (p : Procedure α) (ts : Tokens) :
    p.taken ops ts ≤ ts.size ∧ (p.read ops ts).2 = ts.drop (p.taken ops ts) ∧
      ∀ ops' ts', SameView (p.taken ops ts + 1) ops ops' ts ts' →
        p.read ops' ts' = ((p.read ops ts).1, ts'.drop (p.taken ops ts)) := by
  -- the number of tokens is settled by what is left of them
  have htaken (depth : Nat) (hdepth : 6 * ts.size + p.weight < depth) (ops' : OperatorTable) :
      p.taken ops ts ≤ ts.size ∧ (p.read ops ts).2 = ts.drop (p.taken ops ts) ∧
        ∀ ts', SameView (p.taken ops ts + 1) ops ops' ts ts' →
          (p.attempt ops' depth).run ts' =
            some ((p.read ops ts).1, ts'.drop (p.taken ops ts)) := by
    obtain ⟨k, hk, hrest, hsame⟩ :=
      (Local.congruence ops ops').attempt depth p ts (p.read ops ts).1
        (p.read ops ts).2 (p.attempt_eq_read ops ts hdepth)
    have heq : p.taken ops ts = k := by
      rw [taken, hrest, Tokens.size_drop]
      omega
    rw [heq]
    exact ⟨hk, hrest, hsame⟩
  obtain ⟨hle, hrest, -⟩ := htaken _ (Nat.lt_succ_self _) ops
  refine ⟨hle, hrest, fun ops' ts' hview => ?_⟩
  have hdeep := (htaken (6 * ts.size + 6 * ts'.size + p.weight + 1) (by omega) ops').2.2 ts' hview
  have hread := p.attempt_eq_read ops' ts'
    (show 6 * ts'.size + p.weight < 6 * ts.size + 6 * ts'.size + p.weight + 1 by omega)
  exact Option.some.inj (hread.symm.trans hdeep)

end Procedure

/-- What a reader comes to depends on the tokens that it consumes and on the one after them, and
on what the table says of these: where another input begins with the same tokens and another
table says the same of them, it comes to the same and consumes as many tokens.  These are the
first ones of the input. -/
def LooksOneAhead {α : Type} {gain : Nat}
    (reader : OperatorTable → (ts : Tokens) → Parsed α gain ts) : Prop :=
  ∀ ops ts,
    let taken := ts.size - (reader ops ts).rest.size
    (reader ops ts).rest = ts.drop taken ∧
      ∀ ops' ts', SameView (taken + 1) ops ops' ts ts' →
        (reader ops' ts').outcome = (reader ops ts).outcome ∧
          (reader ops' ts').rest = ts'.drop taken ∧
          ts'.size - (reader ops' ts').rest.size = taken

/-- A reader that a procedure stands for looks one token ahead. -/
theorem LooksOneAhead.of_read {α : Type} {gain : Nat}
    {reader : OperatorTable → (ts : Tokens) → Parsed α gain ts} (p : Procedure α)
    (h : ∀ ops ts, p.read ops ts = (reader ops ts).result) : LooksOneAhead reader := by
  intro ops ts taken
  have htaken : p.taken ops ts = taken := by
    rw [Procedure.taken, h]
    rfl
  obtain ⟨hle, hrest, hsame⟩ := p.read_lookahead ops ts
  rw [htaken] at hle hrest hsame
  rw [h] at hrest hsame
  refine ⟨hrest, fun ops' ts' hview => ?_⟩
  have hread := hsame ops' ts' hview
  rw [h] at hread
  obtain ⟨houtcome, hrest'⟩ := Prod.mk.inj hread
  refine ⟨houtcome, hrest', ?_⟩
  have hle' := hview.le_size hle
  rw [hrest', Tokens.size_drop]
  omega

theorem item_looksOneAhead : LooksOneAhead item := .of_read .item fun _ _ => rfl

theorem expression_looksOneAhead : LooksOneAhead expression := .of_read .expression fun _ _ => rfl

end Grammar

end Reckon
