import Mathlib.Data.List.Basic
import Reckon.Proofs.Grammar.Readers

/-!
# Readers and phrases

A phrase relates words to what they spell and to the word after them.  A reader
follows a phrase if it yields exactly what the phrase spells
(`Parsed.Follows`): whatever it yields is spelled by the words it took, and
whatever a front part of the words spells it yields.  The phrase of a sequence
of readers is the sequence of their phrases (`Follows.andThen`), and two phrases
with the current word at their front need to agree only where a reader looks at
it (`Follows.congr`).
-/

namespace Reckon

/-- The words of the tokens from one place up to another. -/
def Tokens.Takes (ts : Tokens) (words : List Lexeme) (rest : Tokens) : Prop :=
  ∃ tokens : List Token, tokens.map Token.lexeme = words ∧
    ts.pending = tokens ++ rest.pending ∧ ts.finish = rest.finish

/-- What can be spelled: words, what they spell, and the word after them unless
the input ends there. -/
abbrev Phrase (α : Type) := List Lexeme → α → Option Lexeme → Prop

/-- The first of some words, or the word after them if there are none. -/
def front (words : List Lexeme) (next : Option Lexeme) : Option Lexeme :=
  words.head?.or next

@[simp] theorem front_nil (next : Option Lexeme) : front [] next = next := rfl

@[simp] theorem front_cons (word : Lexeme) (words : List Lexeme) (next : Option Lexeme) :
    front (word :: words) next = some word := rfl

theorem front_eq_head? {words : List Lexeme} (h : words ≠ []) (next : Option Lexeme) :
    front words next = words.head? := by
  cases words with
  | nil => exact absurd rfl h
  | cons word words => rfl

@[simp] theorem front_append (words words' : List Lexeme) (next : Option Lexeme) :
    front (words ++ words') next = front words (front words' next) := by
  cases words <;> rfl

namespace Tokens

variable {ts mid rest : Tokens} {word : Lexeme} {words words' : List Lexeme}

@[simp] theorem takes_nil : ts.Takes [] rest ↔ rest = ts := by
  constructor
  · intro h
    obtain ⟨tokens, hwords, hpending, hfinish⟩ := h
    obtain rfl := List.map_eq_nil_iff.mp hwords
    cases ts
    cases rest
    simp_all
  · intro h
    subst h
    exact ⟨[], rfl, rfl, rfl⟩

/-- The first word is the current one. -/
theorem takes_cons :
    ts.Takes (word :: words) rest ↔ ts.lexeme? = some word ∧ ts.tail.Takes words rest := by
  constructor
  · intro h
    obtain ⟨tokens, hwords, hpending, hfinish⟩ := h
    obtain ⟨token, others, rfl, hword, hothers⟩ := List.map_eq_cons_iff.mp hwords
    refine ⟨?_, others, hothers, ?_, hfinish⟩
    · simp [lexeme?, head?, hpending, hword]
    · simp [tail, hpending]
  · intro h
    obtain ⟨hword, tokens, hwords, hpending, hfinish⟩ := h
    obtain ⟨token, hhead, hlexeme⟩ := Option.map_eq_some_iff.mp hword
    refine ⟨token :: tokens, by simp [hwords, hlexeme], ?_, hfinish⟩
    have hts : ts.pending = token :: ts.tail.pending := List.eq_cons_of_mem_head? hhead
    rw [hts, hpending, List.cons_append]

theorem Takes.append (h : ts.Takes words mid) (h' : mid.Takes words' rest) :
    ts.Takes (words ++ words') rest := by
  obtain ⟨tokens, hwords, hpending, hfinish⟩ := h
  obtain ⟨tokens', hwords', hpending', hfinish'⟩ := h'
  exact ⟨tokens ++ tokens', by simp [hwords, hwords'], by simp [hpending, hpending'],
    hfinish.trans hfinish'⟩

theorem takes_append :
    ts.Takes (words ++ words') rest ↔ ∃ mid, ts.Takes words mid ∧ mid.Takes words' rest := by
  constructor
  · intro h
    obtain ⟨tokens, hwords, hpending, hfinish⟩ := h
    obtain ⟨tokens, tokens', rfl, rfl, rfl⟩ := List.map_eq_append_iff.mp hwords
    exact ⟨⟨tokens' ++ rest.pending, ts.finish⟩, ⟨tokens, rfl, by simpa using hpending, rfl⟩,
      ⟨tokens', rfl, rfl, hfinish⟩⟩
  · intro h
    obtain ⟨mid, hmid, hrest⟩ := h
    exact hmid.append hrest

/-- The word after some words shows what the current word is. -/
theorem Takes.front_eq (h : ts.Takes words rest) : front words rest.lexeme? = ts.lexeme? := by
  cases words with
  | nil => rw [takes_nil.mp h, front_nil]
  | cons word words => rw [(takes_cons.mp h).1, front_cons]

/-- What is left decides the words before it. -/
theorem Takes.unique (h : ts.Takes words rest) (h' : ts.Takes words' rest) : words = words' := by
  obtain ⟨tokens, rfl, hpending, -⟩ := h
  obtain ⟨tokens', rfl, hpending', -⟩ := h'
  rw [List.append_cancel_right (hpending.symm.trans hpending')]

end Tokens

namespace Phrase

variable {α β : Type}

/-- No words at all. -/
def nothing (x : α) : Phrase α := fun words value _ => words = [] ∧ value = x

/-- One word. -/
def exactly (word : Lexeme) (x : α) : Phrase α := fun words value _ => words = [word] ∧ value = x

/-- A phrase and one after it, which depends on what the first one spells. -/
def andThen (first : Phrase α) (second : α → Phrase β) : Phrase β := fun words value next =>
  ∃ head tail x, words = head ++ tail ∧ first head x (front tail next) ∧ second x tail value next

/-- A word and a phrase after it. -/
def after (word : Lexeme) (phrase : Phrase α) : Phrase α := fun words value next =>
  ∃ tail, words = word :: tail ∧ phrase tail value next

/-- Change what a phrase spells. -/
def map (f : α → β) (phrase : Phrase α) : Phrase β := fun words value next =>
  ∃ x, phrase words x next ∧ f x = value

end Phrase

namespace Parsed

variable {α β : Type} {gain cost : Nat} {start mid : Tokens} {phrase : Phrase α}

/-- A reader follows a phrase: what it yields is what the phrase spells with the
words that it took and the word it left. -/
def Follows (p : Parsed α gain start) (phrase : Phrase α) : Prop :=
  ∀ value rest, p.Yields value rest ↔
    ∃ words, start.Takes words rest ∧ phrase words value rest.lexeme?

/-- Two phrases with the current word at their front need to agree only. -/
theorem Follows.congr {p : Parsed α gain start} {other : Phrase α} (h : p.Follows phrase)
    (hagree : ∀ words value next, front words next = start.lexeme? →
      (phrase words value next ↔ other words value next)) : p.Follows other := by
  intro value rest
  rw [h value rest]
  refine exists_congr fun words => and_congr_right fun htakes => ?_
  exact hagree words value _ htakes.front_eq

theorem follows_here (x : α) (ts : Tokens) : (here x ts).Follows (.nothing x) := by
  intro value rest
  simp only [here_yields, Phrase.nothing]
  constructor
  · intro h
    obtain ⟨rfl, rfl⟩ := h
    exact ⟨[], Tokens.takes_nil.mpr rfl, rfl, rfl⟩
  · intro h
    obtain ⟨words, htakes, rfl, rfl⟩ := h
    exact ⟨rfl, Tokens.takes_nil.mp htakes⟩

theorem follows_taking {word : Lexeme} (x : α) {ts : Tokens} (h : ts.lexeme? = some word) :
    (taking x ts h).Follows (.exactly word x) := by
  intro value rest
  simp only [taking_yields, Phrase.exactly]
  constructor
  · intro hyields
    obtain ⟨rfl, rfl⟩ := hyields
    exact ⟨[word], Tokens.takes_cons.mpr ⟨h, Tokens.takes_nil.mpr rfl⟩, rfl, rfl⟩
  · intro hspells
    obtain ⟨words, htakes, rfl, rfl⟩ := hspells
    exact ⟨rfl, Tokens.takes_nil.mp (Tokens.takes_cons.mp htakes).2⟩

theorem follows_refuse (fault : SyntaxFault) {ts : Tokens}
    (h : ∀ words value next, front words next = ts.lexeme? → ¬phrase words value next) :
    (refuse fault ts : Parsed α gain ts).Follows phrase := by
  intro value rest
  refine ⟨fun hyields => absurd hyields not_refuse_yields, fun hspells => ?_⟩
  obtain ⟨words, htakes, hphrase⟩ := hspells
  exact absurd hphrase (h words value _ htakes.front_eq)

theorem Follows.map {p : Parsed α gain start} (h : p.Follows phrase) (f : α → β) :
    (p.map f).Follows (phrase.map f) := by
  intro value rest
  simp only [map_yields, h _ rest, Phrase.map]
  constructor
  · intro hyields
    obtain ⟨x, ⟨words, htakes, hphrase⟩, rfl⟩ := hyields
    exact ⟨words, htakes, x, hphrase, rfl⟩
  · intro hspells
    obtain ⟨words, htakes, x, hphrase, rfl⟩ := hspells
    exact ⟨x, ⟨words, htakes, hphrase⟩, rfl⟩

theorem Follows.relax {p : Parsed α gain start} (h : p.Follows phrase) :
    p.relax.Follows phrase := by
  intro value rest
  rw [relax_yields, h value rest]

/-- The phrase of a sequence is the sequence of the phrases. -/
theorem Follows.andThen {p : Parsed α gain start} (h : p.Follows phrase)
    {next : α → (rest : Tokens) → rest.size + gain ≤ start.size → Parsed β cost rest}
    {second : α → Phrase β}
    (hnext : ∀ x rest reached, (next x rest reached).Follows (second x)) :
    (p.andThen next).Follows (phrase.andThen second) := by
  intro value rest
  constructor
  · intro hyields
    obtain ⟨x, mid, reached, hx, hvalue⟩ := andThen_yields hyields
    obtain ⟨head, hhead, hphrase⟩ := (h x mid).mp hx
    obtain ⟨tail, htail, hsecond⟩ := (hnext x mid reached value rest).mp hvalue
    refine ⟨head ++ tail, hhead.append htail, head, tail, x, rfl, ?_, hsecond⟩
    rw [htail.front_eq]
    exact hphrase
  · intro hspells
    obtain ⟨words, htakes, head, tail, x, rfl, hphrase, hsecond⟩ := hspells
    obtain ⟨mid, hhead, htail⟩ := Tokens.takes_append.mp htakes
    rw [htail.front_eq] at hphrase
    have hx : p.Yields x mid := (h x mid).mpr ⟨head, hhead, hphrase⟩
    exact hx.andThen ((hnext x mid hx.bound value rest).mpr ⟨tail, htail, hsecond⟩)

theorem Follows.after {word : Lexeme} {x : β} {p : Parsed β gain start}
    (h : p.Follows (.exactly word x))
    {next : β → (rest : Tokens) → rest.size + gain ≤ start.size → Parsed α cost rest}
    (hnext : ∀ rest reached, (next x rest reached).Follows phrase) :
    (p.andThen next).Follows (phrase.after word) := by
  intro value rest
  constructor
  · intro hyields
    obtain ⟨y, mid, reached, hy, hvalue⟩ := andThen_yields hyields
    obtain ⟨head, hhead, rfl, rfl⟩ := (h y mid).mp hy
    obtain ⟨tail, htail, hphrase⟩ := (hnext mid reached value rest).mp hvalue
    exact ⟨[word] ++ tail, hhead.append htail, tail, rfl, hphrase⟩
  · intro hspells
    obtain ⟨words, htakes, tail, rfl, hphrase⟩ := hspells
    obtain ⟨mid, hhead, htail⟩ := Tokens.takes_append.mp (show start.Takes ([word] ++ tail) rest
      from htakes)
    have hx : p.Yields x mid := (h x mid).mpr ⟨[word], hhead, rfl, rfl⟩
    exact hx.andThen ((hnext mid hx.bound value rest).mpr ⟨tail, htail, hphrase⟩)

/-- Reading from behind the current token is reading after its word. -/
theorem Follows.behind_tail {word : Lexeme} {ts : Tokens} {p : Parsed α gain ts.tail}
    (hp : p.Follows phrase) (h : ts.lexeme? = some word) (reached : ts.tail.size ≤ ts.size) :
    (p.behind reached).Follows (phrase.after word) := by
  intro value rest
  rw [behind_yields, hp value rest]
  constructor
  · intro hspells
    obtain ⟨words, htakes, hphrase⟩ := hspells
    exact ⟨word :: words, Tokens.takes_cons.mpr ⟨h, htakes⟩, words, rfl, hphrase⟩
  · intro hspells
    obtain ⟨words, htakes, tail, rfl, hphrase⟩ := hspells
    exact ⟨tail, (Tokens.takes_cons.mp htakes).2, hphrase⟩

/-- A phrase whose first word is the current one goes on after it. -/
theorem follows_after {word : Lexeme} {ts : Tokens} (h : ts.lexeme? = some word)
    {next : Unit → (rest : Tokens) → rest.size + 1 ≤ ts.size → Parsed α cost rest}
    (hnext : ∀ rest reached, (next () rest reached).Follows fun words => phrase (word :: words))
    (hnonempty : ∀ value, ¬phrase [] value ts.lexeme?) :
    ((taking () ts h).andThen next).Follows phrase := by
  refine ((follows_taking () h).after hnext).congr fun words value next hfront => ?_
  constructor
  · intro hspells
    obtain ⟨tail, rfl, hphrase⟩ := hspells
    exact hphrase
  · intro hphrase
    cases words with
    | nil =>
        rw [front_nil] at hfront
        exact absurd (hfront ▸ hphrase) (hnonempty value)
    | cons first words =>
        rw [h, front_cons] at hfront
        cases hfront
        exact ⟨words, rfl, hphrase⟩

end Parsed

end Reckon
