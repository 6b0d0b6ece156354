import Reckon.Proofs.Token.Cutting

/-!
# Bracketed texts

A bracketed text is a word, or a head and at least one bracketed text in parentheses.  A blank
ends the head, so a head may be anything without a blank, even a parenthesis, while a word has
only characters of names and numerals.  That is enough to read such a text in one way only: if
two of them go on to the same characters, they are the same and so is what follows them
(`Bracketed.IsReadable.readsOneWay`).  What the heads mean and how many parts belong to each of
them does not matter for this.
-/

namespace Reckon

/-- A word, or a head with the parts that it applies to. -/
inductive Bracketed where
  /-- A name or a numeral. -/
  | word (text : List Char)
  /-- A head and the parts after it. -/
  | form (head : List Char) (parts : List Bracketed)

namespace Bracketed

mutual

/-- The characters of a bracketed text. -/
def text : Bracketed → List Char
  | word text => text
  | form head parts => '(' :: (head ++ (spaced parts ++ [')']))

/-- The characters of some parts with a blank before each. -/
def spaced : List Bracketed → List Char
  | [] => []
  | part :: parts => ' ' :: (part.text ++ spaced parts)

end

@[simp] theorem spaced_append (parts others : List Bracketed) :
    spaced (parts ++ others) = spaced parts ++ spaced others := by
  induction parts with
  | nil => rfl
  | cons part parts ih => simp [spaced, ih]

/-- A name by itself, or in front of some parts. -/
def headed (name : List Char) : List Bracketed → Bracketed
  | [] => word name
  | part :: parts => form name (part :: parts)

theorem headed_inj {name name' : List Char} {parts parts' : List Bracketed}
    (h : headed name parts = headed name' parts') : name = name' ∧ parts = parts' := by
  cases parts with
  | nil =>
      cases parts' with
      | nil => exact ⟨word.inj h, rfl⟩
      | cons part' parts' => cases h
  | cons part parts =>
      cases parts' with
      | nil => cases h
      | cons part' parts' => exact form.inj h

/-- Whether a character belongs to a word: what does not break a name or a numeral. -/
def isWordChar (c : Char) : Bool := Word.isWordChar c || Numeral.isNumeralChar c

theorem isWordChar_eq_false_iff {c : Char} : isWordChar c = false ↔ Breaks c := by
  simp [isWordChar, Breaks]

/-- Bracketed texts that can be told apart: words are not empty and have only characters of words,
heads have no blank, and some part follows each head. -/
inductive IsReadable : Bracketed → Prop
  | word {text : List Char} (nonempty : text ≠ []) (plain : ∀ c ∈ text, isWordChar c = true) :
      IsReadable (.word text)
  | form {head : List Char} {parts : List Bracketed} (unbroken : ∀ c ∈ head, c ≠ ' ')
      (nonempty : parts ≠ []) (each : ∀ part ∈ parts, IsReadable part) :
      IsReadable (.form head parts)

/-- A name that is readable as a word is readable in front of parts. -/
theorem IsReadable.headed {name : List Char} {parts : List Bracketed}
    (h : (Bracketed.word name).IsReadable) (hunbroken : ∀ c ∈ name, c ≠ ' ')
    (hparts : ∀ part ∈ parts, part.IsReadable) : (Bracketed.headed name parts).IsReadable := by
  cases parts with
  | nil => exact h
  | cons part parts => exact .form hunbroken (by simp) hparts

/-- No other bracketed text goes on to the same characters. -/
def ReadsOneWay (t : Bracketed) : Prop :=
  ∀ ⦃t' : Bracketed⦄ ⦃rest rest' : List Char⦄, t'.IsReadable → Stops rest → Stops rest' →
    t.text ++ rest = t'.text ++ rest' → t = t' ∧ rest = rest'

/-- Two runs of characters of one kind that are not continued are the same if they go on to the
same text. -/
theorem run_append_inj {p : Char → Bool} {run run' rest rest' : List Char}
    (hrun : ∀ c ∈ run, p c = true) (hrun' : ∀ c ∈ run', p c = true)
    (hrest : ∀ c ∈ rest.head?, p c = false) (hrest' : ∀ c ∈ rest'.head?, p c = false)
    (h : run ++ rest = run' ++ rest') : run = run' ∧ rest = rest' := by
  have htake := congrArg (List.takeWhile p) h
  have hdrop := congrArg (List.dropWhile p) h
  rw [takeWhile_append_stop hrun hrest, takeWhile_append_stop hrun' hrest'] at htake
  rw [dropWhile_append_stop hrun hrest, dropWhile_append_stop hrun' hrest'] at hdrop
  exact ⟨htake, hdrop⟩

/-- A word begins with no parenthesis. -/
theorem word_append_ne {text : List Char} (hne : text ≠ [])
    (hplain : ∀ c ∈ text, isWordChar c = true) (rest others : List Char) :
    text ++ rest ≠ '(' :: others := by
  intro heq
  obtain ⟨c, text, rfl⟩ := List.exists_cons_of_ne_nil hne
  obtain rfl : c = '(' := (List.cons.inj heq).1
  have hopening := hplain '(' List.mem_cons_self
  revert hopening
  decide

/-- After the head of a form comes a blank. -/
theorem head?_spaced_append {parts : List Bracketed} (hne : parts ≠ []) (rest : List Char) :
    (spaced parts ++ rest).head? = some ' ' := by
  obtain ⟨part, parts, rfl⟩ := List.exists_cons_of_ne_nil hne
  rfl

theorem stops_spaced_append (parts : List Bracketed) (rest : List Char) :
    Stops (spaced parts ++ ')' :: rest) := by
  cases parts with
  | nil => exact Stops.cons ⟨by decide, by decide⟩ _
  | cons part parts => exact Stops.cons ⟨by decide, by decide⟩ _

/-- Parts up to a closing parenthesis are read in one way if each of them is. -/
theorem spaced_append_inj {parts parts' : List Bracketed} {rest rest' : List Char}
    (hparts : ∀ part ∈ parts, part.ReadsOneWay) (hparts' : ∀ part ∈ parts', part.IsReadable)
    (h : spaced parts ++ ')' :: rest = spaced parts' ++ ')' :: rest') :
    parts = parts' ∧ rest = rest' := by
  induction parts generalizing parts' with
  | nil =>
      cases parts' with
      | nil => exact ⟨rfl, (List.cons.inj h).2⟩
      | cons part' parts' => exact absurd (List.cons.inj h).1 (by decide)
  | cons part parts ih =>
      cases parts' with
      | nil => exact absurd (List.cons.inj h).1 (by decide)
      | cons part' parts' =>
          obtain ⟨hpart, hothers⟩ := List.forall_mem_cons.mp hparts
          obtain ⟨hpart', hothers'⟩ := List.forall_mem_cons.mp hparts'
          have htexts : part.text ++ (spaced parts ++ ')' :: rest) =
              part'.text ++ (spaced parts' ++ ')' :: rest') := by
            simpa [spaced] using h
          obtain ⟨rfl, hremaining⟩ := hpart hpart' (stops_spaced_append parts rest)
            (stops_spaced_append parts' rest') htexts
          obtain ⟨rfl, hrest⟩ := ih hothers hothers' hremaining
          exact ⟨rfl, hrest⟩

/-- **A bracketed text is read in one way only.** -/
theorem IsReadable.readsOneWay {t : Bracketed} (h : t.IsReadable) : t.ReadsOneWay := by
  induction h with
  | @word text hne hplain =>
      intro t' rest rest' h' hstop hstop' heq
      cases h' with
      | @word text' hne' hplain' =>
          have hstops : ∀ c ∈ rest.head?, isWordChar c = false :=
            fun c hc => isWordChar_eq_false_iff.mpr (hstop c hc)
          have hstops' : ∀ c ∈ rest'.head?, isWordChar c = false :=
            fun c hc => isWordChar_eq_false_iff.mpr (hstop' c hc)
          obtain ⟨rfl, hrest⟩ := run_append_inj hplain hplain' hstops hstops' heq
          exact ⟨rfl, hrest⟩
      | form => exact absurd heq (word_append_ne hne hplain _ _)
  | @form head parts hunbroken hne _ ih =>
      intro t' rest rest' h' hstop hstop' heq
      cases h' with
      | @word text' hne' hplain' => exact absurd heq.symm (word_append_ne hne' hplain' _ _)
      | @form head' parts' hunbroken' hne' heach' =>
          have htexts : head ++ (spaced parts ++ ')' :: rest) =
              head' ++ (spaced parts' ++ ')' :: rest') := by
            simpa [text] using heq
          -- the first blank ends the head, so both heads are the same
          obtain ⟨rfl, hremaining⟩ := run_append_inj (p := (· != ' '))
            (by simpa using hunbroken) (by simpa using hunbroken')
            (by simp [head?_spaced_append hne]) (by simp [head?_spaced_append hne']) htexts
          obtain ⟨rfl, hrest⟩ := spaced_append_inj ih heach' hremaining
          exact ⟨rfl, hrest⟩

/-- The characters of a bracketed text determine it. -/
theorem IsReadable.text_inj {t t' : Bracketed} (h : t.IsReadable) (h' : t'.IsReadable)
    (heq : t.text = t'.text) : t = t' := by
  have hstop : Stops [] := fun c hc => by simp at hc
  have htexts : t.text ++ [] = t'.text ++ [] := by rw [heq]
  exact (h.readsOneWay h' hstop hstop htexts).1

end Bracketed

end Reckon
