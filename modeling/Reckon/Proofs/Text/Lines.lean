import Mathlib.Data.List.Forall2
import Reckon.Text.Lines

/-!
# Lines and their text

Input is cut into lines in one way only (`Text.splitLines_eq_iff`), and a line counts up to the
first one that is no UTF-8 (`Text.lineChars_eq`).  So for input that is UTF-8 as a whole, the
characters that the lines hand on are those of its text, except that a carriage return before a
line feed is shed and that a line feed is added where the last line has none
(`Text.sheds_lineChars`).  Line feeds and carriage returns can be looked for in the bytes because
no other character has their bytes in it (`Text.eq_of_mem_utf8EncodeChar`).
-/

namespace Reckon.Text

/-- The bytes of a text. -/
def encode (text : List Char) : List UInt8 := text.flatMap String.utf8EncodeChar

@[simp] theorem encode_nil : encode [] = [] := rfl

@[simp] theorem encode_cons (c : Char) (text : List Char) :
    encode (c :: text) = String.utf8EncodeChar c ++ encode text := rfl

@[simp] theorem encode_append (text more : List Char) :
    encode (text ++ more) = encode text ++ encode more := List.flatMap_append

theorem encode_eq_nil_iff {text : List Char} : encode text = [] ↔ text = [] := by
  cases text with
  | nil => simp
  | cons c text => simp [String.utf8EncodeChar_ne_nil]

theorem toByteArray_encode (text : List Char) :
    ByteArray.mk (encode text).toArray = text.utf8Encode := by
  apply ByteArray.ext
  simp [encode, List.utf8Encode]

/-- **Bytes are decoded exactly if they are those of a text.** -/
theorem decode_eq_some_iff {bytes : List UInt8} {text : List Char} :
    decode bytes = some text ↔ bytes = encode text := by
  constructor
  · intro h
    obtain ⟨found, hfound, htext⟩ := Option.map_eq_some_iff.mp h
    obtain ⟨chars, hchars⟩ :=
      ByteArray.isSome_utf8Decode?_iff.mp (Option.isSome_of_eq_some hfound)
    rw [hchars, List.utf8Decode?_utf8Encode] at hfound
    obtain rfl := Option.some.inj hfound
    obtain rfl : chars = text := by simpa using htext
    rw [← toByteArray_encode] at hchars
    simpa using congrArg (fun found => found.data.toList) hchars
  · intro h
    rw [decode, h, toByteArray_encode, List.utf8Decode?_utf8Encode]
    simp

theorem decode_encode (text : List Char) : decode (encode text) = some text :=
  decode_eq_some_iff.mpr rfl

/-- A byte of the ASCII range is the code of its character. -/
theorem eq_of_mem_utf8EncodeChar {c : Char} {b : UInt8} (h : b ∈ String.utf8EncodeChar c)
    (hb : b.toNat < 128) : c.toNat = b.toNat := by
  unfold String.utf8EncodeChar at h
  dsimp only at h
  split at h
  · next hcode =>
      obtain rfl := List.mem_singleton.mp h
      have hsmall : c.toNat % 256 = c.toNat :=
        Nat.mod_eq_of_lt (Nat.lt_of_le_of_lt hcode (by decide))
      simpa using hsmall.symm
  · -- the bytes of longer encodings are from 128 on
    exfalso
    split at h
    · simp only [List.mem_cons, List.not_mem_nil, or_false] at h
      rcases h with rfl | rfl <;> simp at hb <;> omega
    · split at h
      · simp only [List.mem_cons, List.not_mem_nil, or_false] at h
        rcases h with rfl | rfl | rfl <;> simp at hb <;> omega
      · simp only [List.mem_cons, List.not_mem_nil, or_false] at h
        rcases h with rfl | rfl | rfl | rfl <;> simp at hb <;> omega

theorem not_mem_utf8EncodeChar {c d : Char} (hcode : d.toNat < 128) (hne : c ≠ d) :
    UInt8.ofNat d.toNat ∉ String.utf8EncodeChar c := by
  intro hmem
  have hbyte : (UInt8.ofNat d.toNat).toNat = d.toNat := by
    rw [UInt8.toNat_ofNat']
    exact Nat.mod_eq_of_lt (by omega)
  have heq := eq_of_mem_utf8EncodeChar hmem (by omega)
  exact hne (Char.toNat_inj.mp (heq.trans hbyte))

/-- A character of the ASCII range that is not in a text is not in its bytes. -/
theorem not_mem_encode {text : List Char} {d : Char} (hcode : d.toNat < 128) (h : d ∉ text) :
    UInt8.ofNat d.toNat ∉ encode text := by
  intro hmem
  obtain ⟨c, hc, hbyte⟩ := List.mem_flatMap.mp hmem
  exact not_mem_utf8EncodeChar hcode (fun heq => h (heq ▸ hc)) hbyte

/-- Input as it is cut after every line feed. -/
inductive CutsInto : List UInt8 → List Line → Prop where
  | none : CutsInto [] []
  | last {bytes : List UInt8} (clean : 10 ∉ bytes) (nonempty : bytes ≠ []) :
      CutsInto bytes [⟨bytes, false⟩]
  | line {bytes others : List UInt8} {lines : List Line} (clean : 10 ∉ bytes)
      (behind : CutsInto others lines) :
      CutsInto (bytes ++ 10 :: others) (⟨bytes, true⟩ :: lines)

theorem splitLines_last {bytes : List UInt8} (clean : 10 ∉ bytes) (hne : bytes ≠ []) :
    splitLines bytes = [⟨bytes, false⟩] := by
  induction bytes with
  | nil => exact absurd rfl hne
  | cons b bytes ih =>
      obtain ⟨hb, hclean⟩ := not_or.mp (mt List.mem_cons.mpr clean)
      rw [splitLines, if_neg (Ne.symm hb)]
      cases bytes with
      | nil => rfl
      | cons b' bytes => rw [ih hclean (List.cons_ne_nil _ _)]

theorem splitLines_line {bytes : List UInt8} (clean : 10 ∉ bytes) (others : List UInt8) :
    splitLines (bytes ++ 10 :: others) = ⟨bytes, true⟩ :: splitLines others := by
  induction bytes with
  | nil => rw [List.nil_append, splitLines, if_pos rfl]
  | cons b bytes ih =>
      obtain ⟨hb, hclean⟩ := not_or.mp (mt List.mem_cons.mpr clean)
      rw [List.cons_append, splitLines, if_neg (Ne.symm hb), ih hclean]

theorem splitLines_cutsInto (bytes : List UInt8) : CutsInto bytes (splitLines bytes) := by
  induction bytes with
  | nil => exact .none
  | cons b rest ih =>
      rw [splitLines]
      split
      · next hb =>
          subst hb
          exact .line List.not_mem_nil ih
      · next hb =>
          have hclean {bytes : List UInt8} (h : 10 ∉ bytes) : 10 ∉ b :: bytes :=
            List.not_mem_cons_of_ne_of_not_mem (Ne.symm hb) h
          -- the byte belongs to the first of the lines behind it, if there is one
          cases hlines : splitLines rest with
          | nil =>
              rw [hlines] at ih
              cases ih
              exact .last (hclean List.not_mem_nil) (List.cons_ne_nil _ _)
          | cons line lines =>
              rw [hlines] at ih
              cases ih with
              | last clean nonempty => exact .last (hclean clean) (List.cons_ne_nil _ _)
              | line clean behind => exact .line (hclean clean) behind

/-- **There is one way to cut input into lines.** -/
theorem splitLines_eq_iff {bytes : List UInt8} {lines : List Line} :
    splitLines bytes = lines ↔ CutsInto bytes lines := by
  constructor
  · rintro rfl
    exact splitLines_cutsInto bytes
  · intro h
    induction h with
    | none => rfl
    | last clean nonempty => exact splitLines_last clean nonempty
    | line clean behind ih => rw [splitLines_line clean, ih]

@[simp] theorem utf8EncodeChar_carriageReturn : String.utf8EncodeChar '\r' = [13] := by decide

theorem encode_carriageReturn (text : List Char) :
    encode (text ++ ['\r']) = encode text ++ [13] := by
  simp

/-- The bytes of a text end with a carriage return only if the text does. -/
theorem getLast?_encode {text : List Char} (h : text.getLast? ≠ some '\r') :
    (encode text).getLast? ≠ some 13 := by
  rcases List.eq_nil_or_concat text with rfl | ⟨front, c, rfl⟩
  · simp
  · intro hlast
    have hmem : 13 ∈ String.utf8EncodeChar c := by
      rw [List.concat_eq_append, encode_append, encode_cons, encode_nil, List.append_nil,
        List.getLast?_append, List.getLast?_eq_some_getLast String.utf8EncodeChar_ne_nil,
        Option.some_or] at hlast
      rw [← Option.some.inj hlast]
      exact List.getLast_mem _
    refine not_mem_utf8EncodeChar (d := '\r') (by decide) ?_ hmem
    rintro rfl
    simp at h

/-- The text of a line: what stands before its line end, which is a line feed or a carriage
return with a line feed. -/
inductive Line.Says : Line → List Char → Prop where
  | ended {text : List Char} (plain : text.getLast? ≠ some '\r') : Says ⟨encode text, true⟩ text
  | returned {text : List Char} : Says ⟨encode (text ++ ['\r']), true⟩ text
  | last {text : List Char} : Says ⟨encode text, false⟩ text

/-- **A line is decoded exactly if it says something.** -/
theorem decode_content_iff {line : Line} {text : List Char} :
    decode line.content = some text ↔ line.Says text := by
  rw [decode_eq_some_iff]
  constructor
  · intro h
    obtain ⟨bytes, terminated⟩ := line
    unfold Line.content at h
    split at h
    · next hreturned =>
        obtain ⟨rfl, hlast⟩ : terminated = true ∧ bytes.getLast? = some 13 := by
          simpa using hreturned
        obtain ⟨front, rfl⟩ := List.getLast?_eq_some_iff.mp hlast
        rw [List.dropLast_concat] at h
        subst h
        rw [← encode_carriageReturn]
        exact .returned
    · next hplain =>
        obtain rfl : bytes = encode text := h
        cases terminated with
        | false => exact .last
        | true =>
            refine .ended fun hlast => hplain ?_
            obtain ⟨front, rfl⟩ := List.getLast?_eq_some_iff.mp hlast
            simp
  · intro h
    cases h with
    | ended plain => simp [Line.content, getLast?_encode plain]
    | returned => simp [Line.content]
    | last => rfl

/-- The lines before the first one that says nothing are handed on. -/
theorem joinLines_eq (lines : List Line) :
    ∃ good bad texts, lines = good ++ bad ∧ List.Forall₂ Line.Says good texts ∧
      (∀ line ∈ bad.head?, ∀ text, ¬line.Says text) ∧
      joinLines lines = texts.flatMap (· ++ ['\n']) := by
  induction lines with
  | nil => exact ⟨[], [], [], rfl, .nil, by simp, rfl⟩
  | cons line lines ih =>
      cases hline : decode line.content with
      | none =>
          refine ⟨[], line :: lines, [], rfl, .nil, ?_, by simp [joinLines, hline]⟩
          intro bad hbad text htext
          obtain rfl := Option.some.inj hbad
          rw [decode_content_iff.mpr htext] at hline
          cases hline
      | some text =>
          obtain ⟨good, bad, texts, rfl, hgood, hbad, hjoin⟩ := ih
          refine ⟨line :: good, bad, text :: texts, rfl, .cons (decode_content_iff.mp hline) hgood,
            hbad, ?_⟩
          simp [joinLines, hline, hjoin]

/-- **What is handed on line by line.**  It is the text of the lines before the first one that
is no UTF-8, each with a line feed behind it. -/
theorem lineChars_eq (bytes : List UInt8) :
    ∃ good bad texts, CutsInto bytes (good ++ bad) ∧ List.Forall₂ Line.Says good texts ∧
      (∀ line ∈ bad.head?, ∀ text, ¬line.Says text) ∧
      lineChars bytes = texts.flatMap (· ++ ['\n']) := by
  obtain ⟨good, bad, texts, hlines, hgood, hbad, hjoin⟩ := joinLines_eq (splitLines bytes)
  exact ⟨good, bad, texts, splitLines_eq_iff.mp hlines, hgood, hbad, hjoin⟩

/-- Some text, and the same text with some carriage returns before line feeds shed, and possibly
with a line feed at its end. -/
inductive Sheds : List Char → List Char → Prop where
  | stop : Sheds [] []
  | finish : Sheds [] ['\n']
  | keep (c : Char) {text fed : List Char} (behind : Sheds text fed) : Sheds (c :: text) (c :: fed)
  | shed {text fed : List Char} (behind : Sheds text fed) :
      Sheds ('\r' :: '\n' :: text) ('\n' :: fed)

theorem Sheds.append {text fed : List Char} (h : Sheds text fed) (front : List Char) :
    Sheds (front ++ text) (front ++ fed) := by
  induction front with
  | nil => exact h
  | cons c front ih => exact .keep c ih

theorem lineChars_line {bytes others : List UInt8} {text : List Char} (clean : 10 ∉ bytes)
    (h : Line.Says ⟨bytes, true⟩ text) :
    lineChars (bytes ++ 10 :: others) = text ++ '\n' :: lineChars others := by
  rw [lineChars, splitLines_line clean, joinLines, decode_content_iff.mpr h, lineChars]

/-- **Reading line by line changes line ends only.** -/
theorem sheds_lineChars (text : List Char) : Sheds text (lineChars (encode text)) := by
  by_cases hmem : '\n' ∈ text
  · obtain ⟨front, rest, rfl, hfront⟩ := List.eq_append_cons_of_mem hmem
    have hclean : 10 ∉ encode front := not_mem_encode (d := '\n') (by decide) hfront
    have hbytes : encode (front ++ '\n' :: rest) = encode front ++ 10 :: encode rest := by
      rw [encode_append, encode_cons]
      rfl
    have hrest := sheds_lineChars rest
    rw [hbytes]
    by_cases hreturn : front.getLast? = some '\r'
    · obtain ⟨front, rfl⟩ := List.getLast?_eq_some_iff.mp hreturn
      rw [lineChars_line hclean .returned, List.append_assoc]
      exact (Sheds.shed hrest).append front
    · rw [lineChars_line hclean (.ended hreturn)]
      exact (Sheds.keep '\n' hrest).append front
  · cases text with
    | nil => exact .stop
    | cons c text =>
        have hclean : 10 ∉ encode (c :: text) := not_mem_encode (d := '\n') (by decide) hmem
        have hne : encode (c :: text) ≠ [] := mt encode_eq_nil_iff.mp (List.cons_ne_nil _ _)
        rw [lineChars, splitLines_last hclean hne, joinLines, decode_content_iff.mpr .last]
        simpa [joinLines] using Sheds.finish.append (c :: text)
termination_by text.length
decreasing_by
  subst_vars
  simp
  omega

end Reckon.Text
