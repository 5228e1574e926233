import ComponentAtlas.Json.Printer
import ComponentAtlas.Json.Reader
import Mathlib.Data.List.DropRight

/-!
# Strings that are read back

The reader finds each written string again, whatever is written behind its closing quote.
-/

namespace ComponentAtlas.Json

open ComponentAtlas.Text

/-- The blanks between lexemes. -/
def isBlank (d : Char) : Bool :=
  d = ' ' ∨ d = '\n' ∨ d = '\t' ∨ d = '\r'

namespace Cursor

theorem rest_skipBlanks (c : Cursor) : c.skipBlanks.rest = c.rest.dropWhile isBlank := by
  obtain ⟨rest, offset⟩ := c
  rw [skipBlanks]
  induction rest generalizing offset with
  | nil => rfl
  | cons d rest ih =>
      rw [skipBlanks.go]
      by_cases hd : d = ' ' ∨ d = '\n' ∨ d = '\t' ∨ d = '\r'
      · rw [if_pos hd, List.dropWhile_cons_of_pos (by simpa [isBlank] using hd)]
        exact ih (offset + 1)
      · rw [if_neg hd, List.dropWhile_cons_of_neg (by simpa [isBlank] using hd)]

theorem rest_skipBlanks_twice (c : Cursor) :
    c.skipBlanks.skipBlanks.rest = c.skipBlanks.rest := by
  rw [rest_skipBlanks, rest_skipBlanks, List.dropWhile_idempotent]

theorem tail_of_rest {c : Cursor} {d : Char} {more : List Char} (h : c.rest = d :: more) :
    c.tail.rest = more := by
  rw [Cursor.tail, h]

theorem eq_of_rest {c : Cursor} {more : List Char} (h : c.rest = more) :
    c = ⟨more, c.offset⟩ := by
  rw [← h]

end Cursor

section Strings

theorem hexDigit?_hexChar : ∀ n < 16, hexDigit? (hexChar n) = some n := by
  decide

/-- A control character is read back from its four digits. -/
theorem readHex_hexChar {n : Nat} (h : n < 256) (rest : List Char) (offset : Nat) :
    readHex ⟨['0', '0', hexChar (n / 16), hexChar (n % 16)] ++ rest, offset⟩ =
      .ok (n, ⟨rest, offset + 4⟩) := by
  have hhigh : hexDigit? (hexChar (n / 16)) = some (n / 16) := hexDigit?_hexChar _ (by omega)
  have hlow : hexDigit? (hexChar (n % 16)) = some (n % 16) := hexDigit?_hexChar _ (by omega)
  have hzero : hexDigit? '0' = some 0 := by decide
  have hbytes : ¬byteSize ['0', '0', hexChar (n / 16), hexChar (n % 16)] < 4 := by
    have := (hexChar (n / 16)).utf8Size_pos
    have := (hexChar (n % 16)).utf8Size_pos
    have : '0'.utf8Size = 1 := by decide
    simp only [byteSize_cons, byteSize_nil]
    omega
  unfold readHex
  simp only [List.cons_append, List.nil_append, List.take_succ_cons, List.take_zero, if_neg hbytes,
    hzero, hhigh, hlow]
  congr 2
  omega

/-- A character is written behind a backslash by a letter or by its digits, or as it is. -/
theorem escapeChar_cases (d : Char) :
    (∃ letter, letter ≠ 'u' ∧ escaped? letter = some d ∧ escapeChar d = ['\\', letter]) ∨
      (d.toNat < 0x20 ∧
        escapeChar d = ['\\', 'u', '0', '0', hexChar (d.toNat / 16), hexChar (d.toNat % 16)]) ∨
      (d ≠ '"' ∧ d ≠ '\\' ∧ ¬d.toNat < 0x20 ∧ escapeChar d = [d]) := by
  by_cases hquote : d = '"'
  · subst hquote
    exact .inl ⟨'"', by decide, rfl, rfl⟩
  by_cases hslash : d = '\\'
  · subst hslash
    exact .inl ⟨'\\', by decide, rfl, rfl⟩
  by_cases hline : d = '\n'
  · subst hline
    exact .inl ⟨'n', by decide, rfl, rfl⟩
  by_cases hreturn : d = '\r'
  · subst hreturn
    exact .inl ⟨'r', by decide, rfl, rfl⟩
  by_cases htab : d = '\t'
  · subst htab
    exact .inl ⟨'t', by decide, rfl, rfl⟩
  by_cases hback : d = '\x08'
  · subst hback
    exact .inl ⟨'b', by decide, rfl, rfl⟩
  by_cases hfeed : d = '\x0c'
  · subst hfeed
    exact .inl ⟨'f', by decide, rfl, rfl⟩
  right
  unfold escapeChar
  rw [if_neg hquote, if_neg hslash, if_neg hline, if_neg hreturn, if_neg htab, if_neg hback,
    if_neg hfeed]
  by_cases hcontrol : d.toNat < 0x20
  · exact .inl ⟨hcontrol, if_pos hcontrol⟩
  · exact .inr ⟨hquote, hslash, hcontrol, if_neg hcontrol⟩

/-- A letter behind a backslash stands for its character. -/
theorem readEscape_letter {letter d : Char} (hletter : letter ≠ 'u')
    (h : escaped? letter = some d) (rest : List Char) (offset : Nat) :
    readEscape ⟨letter :: rest, offset⟩ = .ok (d, ⟨rest, offset + letter.utf8Size⟩) := by
  unfold readEscape
  split
  · next heq => cases heq
  · next heq => exact absurd (List.cons.inj heq).1 hletter
  · next heq =>
      obtain ⟨rfl, rfl⟩ := List.cons.inj heq
      rw [h]
      rfl

/-- The letter `u` and four digits behind a backslash stand for a control character. -/
theorem readEscape_control {d : Char} (h : d.toNat < 0x20) (rest : List Char) (offset : Nat) :
    readEscape
        ⟨['u', '0', '0', hexChar (d.toNat / 16), hexChar (d.toNat % 16)] ++ rest, offset⟩ =
      .ok (d, ⟨rest, offset + 'u'.utf8Size + 4⟩) := by
  have hhex := readHex_hexChar (n := d.toNat) (by omega) rest (offset + 'u'.utf8Size)
  change readUnicodeEscape
    ⟨['0', '0', hexChar (d.toNat / 16), hexChar (d.toNat % 16)] ++ rest, _⟩ = _
  rw [readUnicodeEscape]
  simp only [Cursor.tail, hhex, bind, Except.bind]
  rw [if_neg (by omega), if_pos (by omega), Char.ofNat_toNat]

/-- The written form of a character is read back as that character. -/
theorem readCharacters_escapeChar (d : Char) (fuel : Nat) (rest : List Char) (offset : Nat) :
    ∃ offset', readCharacters (fuel + 1) ⟨escapeChar d ++ rest, offset⟩ =
      (readCharacters fuel ⟨rest, offset'⟩).map fun read => (d :: read.1, read.2) := by
  rcases escapeChar_cases d with ⟨letter, hletter, h, hd⟩ | ⟨h, hd⟩ | ⟨hquote, hslash, h, hd⟩
  · refine ⟨offset + '\\'.utf8Size + letter.utf8Size, ?_⟩
    rw [hd, readCharacters]
    simp only [List.cons_append, List.nil_append, Cursor.tail, readEscape_letter hletter h, bind,
      Except.bind]
    cases readCharacters fuel ⟨rest, offset + '\\'.utf8Size + letter.utf8Size⟩ <;> rfl
  · have hescape := readEscape_control h rest (offset + '\\'.utf8Size)
    refine ⟨offset + '\\'.utf8Size + 'u'.utf8Size + 4, ?_⟩
    simp only [List.cons_append, List.nil_append] at hescape
    rw [hd, readCharacters]
    simp only [List.cons_append, List.nil_append, Cursor.tail, hescape, bind, Except.bind]
    cases readCharacters fuel ⟨rest, offset + '\\'.utf8Size + 'u'.utf8Size + 4⟩ <;> rfl
  · refine ⟨offset + d.utf8Size, ?_⟩
    rw [hd, List.singleton_append, readCharacters]
    dsimp only
    split
    · next heq => cases heq
    · next heq => exact absurd (List.cons.inj heq).1 hquote
    · next heq => exact absurd (List.cons.inj heq).1 hslash
    · next heq =>
        obtain ⟨rfl, rfl⟩ := List.cons.inj heq
        rw [if_neg h]
        simp only [Cursor.tail, bind, Except.bind]
        cases readCharacters fuel ⟨rest, offset + d.utf8Size⟩ <;> rfl

/-- Written characters are read back up to the closing quote. -/
theorem readCharacters_escape (characters : List Char) (rest : List Char) {fuel : Nat}
    (h : characters.length < fuel) (offset : Nat) :
    ∃ offset', readCharacters fuel ⟨escape characters ++ '"' :: rest, offset⟩ =
      .ok (characters, ⟨rest, offset'⟩) := by
  induction characters generalizing fuel offset with
  | nil =>
      obtain ⟨fuel, rfl⟩ := Nat.exists_eq_succ_of_ne_zero (Nat.ne_of_gt h)
      exact ⟨offset + '"'.utf8Size, rfl⟩
  | cons d more ih =>
      obtain ⟨fuel, rfl⟩ := Nat.exists_eq_succ_of_ne_zero (Nat.ne_of_gt (Nat.zero_lt_of_lt h))
      obtain ⟨middle, hmiddle⟩ :=
        readCharacters_escapeChar d fuel (escape more ++ '"' :: rest) offset
      obtain ⟨offset', hmore⟩ := ih (Nat.lt_of_succ_lt_succ h) middle
      refine ⟨offset', ?_⟩
      rw [escape, List.flatMap_cons, List.append_assoc]
      rw [escape] at hmiddle hmore
      rw [hmiddle, hmore]
      rfl

theorem length_le_length_escape (characters : List Char) :
    characters.length ≤ (escape characters).length := by
  induction characters with
  | nil => exact Nat.zero_le _
  | cons d more ih =>
      have hd : 0 < (escapeChar d).length := by
        rcases escapeChar_cases d with ⟨letter, -, -, hd⟩ | ⟨-, hd⟩ | ⟨-, -, -, hd⟩ <;> simp [hd]
      rw [escape] at ih ⊢
      rw [List.flatMap_cons, List.length_append, List.length_cons]
      omega

/-- A string in quotes is read back behind its opening quote. -/
theorem readString_escape (s : String) (rest : List Char) (offset : Nat) :
    ∃ offset', readString ⟨escape s.toList ++ '"' :: rest, offset⟩ = .ok (s, ⟨rest, offset'⟩) := by
  have hlength := length_le_length_escape s.toList
  have hfuel : s.toList.length < (escape s.toList ++ '"' :: rest).length + 1 := by
    rw [List.length_append]
    omega
  obtain ⟨offset', h⟩ := readCharacters_escape s.toList rest hfuel offset
  refine ⟨offset', ?_⟩
  unfold readString
  simp only [h, bind, Except.bind, String.ofList_toList]

end Strings

/-- A rest of a text behind a value: it is empty, or a comma or a line break comes next. -/
def Ends (rest : List Char) : Prop :=
  ∀ d ∈ rest.head?, d = ',' ∨ d = '\n'

end ComponentAtlas.Json
