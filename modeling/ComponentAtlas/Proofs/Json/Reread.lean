import ComponentAtlas.Proofs.Json.Numbers

/-!
# Values that are read back

The reader may find the indented text of a value too long or too deep for it. When it reads one, it
stops where the text ends and finds each part of the value in its place.
-/

namespace ComponentAtlas.Json

open ComponentAtlas.Text

mutual

/-- What may be read where a value is written: a number as a spelling of it, everything else as
itself. -/
inductive Spells : Value → Located → Prop where
  | null (at_ : Nat) : Spells .null (.null at_)
  | bool (at_ : Nat) (b : Bool) : Spells (.bool b) (.bool at_ b)
  | number (at_ : Nat) {n m : Number} (h : Respelled n m) : Spells (.number n) (.number at_ m)
  | string (at_ : Nat) (s : String) : Spells (.string s) (.string at_ s)
  | array (at_ stop : Nat) {items : List Value} {located : List Located}
      (h : SpellsItems items located) : Spells (.array items) (.array at_ stop located)
  | object (at_ stop : Nat) {fields : List (String × Value)}
      {located : List (String × Nat × Located)} (h : SpellsFields fields located) :
      Spells (.object fields) (.object at_ stop located)

/-- The items of an array, place by place. -/
inductive SpellsItems : List Value → List Located → Prop where
  | nil : SpellsItems [] []
  | cons {v : Value} {l : Located} {items : List Value} {located : List Located}
      (hhead : Spells v l) (htail : SpellsItems items located) :
      SpellsItems (v :: items) (l :: located)

/-- The fields of an object, place by place. -/
inductive SpellsFields : List (String × Value) → List (String × Nat × Located) → Prop where
  | nil : SpellsFields [] []
  | cons {v : Value} {l : Located} {fields : List (String × Value)}
      {located : List (String × Nat × Located)} (key : String) (colon : Nat)
      (hhead : Spells v l) (htail : SpellsFields fields located) :
      SpellsFields ((key, v) :: fields) ((key, colon, l) :: located)

end

section Texts

/-- The text of the items behind the first ones. -/
def moreItems (level : Nat) : List Value → List Char
  | [] => []
  | items => ',' :: (Value.indentedItems level items).toList

/-- The text of the fields behind the first ones. -/
def moreFields (level : Nat) : List (String × Value) → List Char
  | [] => []
  | fields => ',' :: (Value.indentedFields level fields).toList

theorem toList_newline (level : Nat) :
    (Value.newline level).toList = '\n' :: List.replicate (2 * level) ' ' := by
  simp [Value.newline]

theorem toList_quote (s : String) : (quote s).toList = '"' :: (escape s.toList ++ ['"']) := by
  simp [quote]

theorem indentedItems_cons (level : Nat) (item : Value) (items : List Value) :
    (Value.indentedItems level (item :: items)).toList =
      (Value.newline level).toList ++ (item.indented level).toList ++ moreItems level items := by
  cases items with
  | nil => simp [Value.indentedItems, moreItems]
  | cons next rest => simp [Value.indentedItems, moreItems]

theorem indentedFields_cons (level : Nat) (key : String) (value : Value)
    (fields : List (String × Value)) :
    (Value.indentedFields level ((key, value) :: fields)).toList =
      (Value.newline level).toList ++ (quote key).toList ++ [':', ' '] ++
        (value.indented level).toList ++ moreFields level fields := by
  cases fields with
  | nil => simp [Value.indentedFields, moreFields]
  | cons next rest => simp [Value.indentedFields, moreFields]

/-- A digit is no other mark at which a value or a blank starts. -/
theorem digit_ne {d : Char} (hd : d.isDigit = true) :
    isBlank d = false ∧ d ≠ ']' ∧ d ≠ 'n' ∧ d ≠ 't' ∧ d ≠ 'f' ∧ d ≠ '-' ∧ d ≠ '"' ∧ d ≠ '[' ∧
      d ≠ '\x7b' := by
  refine ⟨?_, ?_, ?_, ?_, ?_, ?_, ?_, ?_, ?_⟩
  · rw [isBlank, decide_eq_false_iff_not]
    rintro (rfl | rfl | rfl | rfl) <;> revert hd <;> decide
  all_goals
    rintro rfl
    revert hd
    decide

/-- The text of a value starts with a mark of its own. -/
theorem indented_head (v : Value) (level : Nat) :
    ∃ d more, (v.indented level).toList = d :: more ∧ isBlank d = false ∧ d ≠ ']' := by
  cases v with
  | null => exact ⟨'n', ['u', 'l', 'l'], by simp [Value.indented], by decide, by decide⟩
  | bool b =>
      cases b with
      | true => exact ⟨'t', ['r', 'u', 'e'], by simp [Value.indented], by decide, by decide⟩
      | false =>
          exact ⟨'f', ['a', 'l', 's', 'e'], by simp [Value.indented], by decide, by decide⟩
  | number n =>
      obtain ⟨negative, body, hspelling, htext⟩ := render_spec n
      obtain ⟨first, more, rfl, hdigit⟩ := hspelling.head
      rw [Value.indented, htext]
      cases negative with
      | true => exact ⟨'-', first :: more, rfl, by decide, by decide⟩
      | false => exact ⟨first, more, rfl, (digit_ne hdigit).1, (digit_ne hdigit).2.1⟩
  | string s =>
      exact ⟨'"', escape s.toList ++ ['"'], by rw [Value.indented, toList_quote], by decide,
        by decide⟩
  | array items =>
      cases items with
      | nil => exact ⟨'[', [']'], by simp [Value.indented], by decide, by decide⟩
      | cons item more =>
          refine ⟨'[', (Value.indentedItems (level + 1) (item :: more)).toList ++
            (Value.newline level).toList ++ [']'], ?_, by decide, by decide⟩
          simp [Value.indented]
  | object fields =>
      cases fields with
      | nil => exact ⟨'\x7b', ['\x7d'], by simp [Value.indented], by decide, by decide⟩
      | cons field more =>
          refine ⟨'\x7b', (Value.indentedFields (level + 1) (field :: more)).toList ++
            (Value.newline level).toList ++ ['\x7d'], ?_, by decide, by decide⟩
          simp [Value.indented]

end Texts

section Cursors

variable {c : Cursor} {d : Char} {more : List Char}

/-- Blanks behind a line break are skipped up to the next mark. -/
theorem rest_skipBlanks_newline (level : Nat) (hd : isBlank d = false)
    (h : c.rest = (Value.newline level).toList ++ d :: more) :
    c.skipBlanks.rest = d :: more := by
  have hblank : ∀ b ∈ (Value.newline level).toList, isBlank b = true := by
    intro b hb
    rw [toList_newline, List.mem_cons, List.mem_replicate] at hb
    rcases hb with rfl | ⟨-, rfl⟩ <;> decide
  rw [Cursor.rest_skipBlanks, h, List.dropWhile_append_of_pos hblank,
    List.dropWhile_cons_of_neg (by simp [hd])]

theorem rest_skipBlanks_mark (hd : isBlank d = false) (h : c.rest = d :: more) :
    c.skipBlanks.rest = d :: more := by
  rw [Cursor.rest_skipBlanks, h, List.dropWhile_cons_of_neg (by simp [hd])]

end Cursors

section Values

/-- What a reader with some fuel finds where values, and the rests of arrays and objects, are
written. -/
structure Rereads (fuel : Nat) : Prop where
  value (level : Nat) (rest : List Char) {depth : Nat} {c after : Cursor} {l : Located} {v : Value}
    (hrest : Ends rest)
    (hc : c.skipBlanks.rest = (v.indented level).toList ++ rest)
    (hread : readValue fuel depth c = .ok (l, after)) : Spells v l ∧ after.rest = rest
  items (level : Nat) (rest : List Char) {depth : Nat} {c after : Cursor} {v : Value}
    {items : List Value} {located : List Located}
    (hc : c.skipBlanks.rest = (v.indented (level + 1)).toList ++
      (moreItems (level + 1) items ++ ((Value.newline level).toList ++ ']' :: rest)))
    (hread : readItems fuel depth true c = .ok (located, after)) :
    SpellsItems (v :: items) located ∧ after.rest = rest
  moreItems (level : Nat) (rest : List Char) {depth : Nat} {c after : Cursor} {items : List Value}
    {located : List Located}
    (hc : c.rest = moreItems (level + 1) items ++ ((Value.newline level).toList ++ ']' :: rest))
    (hread : readItems fuel depth false c = .ok (located, after)) :
    SpellsItems items located ∧ after.rest = rest
  field (level : Nat) (rest : List Char) {depth : Nat} {c after : Cursor} (key : String) {v : Value}
    {fields : List (String × Value)} {located : List (String × Nat × Located)}
    (hc : c.rest = '"' :: (escape key.toList ++ '"' :: ':' :: ' ' ::
      ((v.indented (level + 1)).toList ++ (moreFields (level + 1) fields ++
        ((Value.newline level).toList ++ '\x7d' :: rest)))))
    (hread : readField fuel depth c = .ok (located, after)) :
    SpellsFields ((key, v) :: fields) located ∧ after.rest = rest
  fields (level : Nat) (rest : List Char) {depth : Nat} {c after : Cursor} (key : String)
    {v : Value} {fields : List (String × Value)} {located : List (String × Nat × Located)}
    (hc : c.skipBlanks.rest = '"' :: (escape key.toList ++ '"' :: ':' :: ' ' ::
      ((v.indented (level + 1)).toList ++ (moreFields (level + 1) fields ++
        ((Value.newline level).toList ++ '\x7d' :: rest)))))
    (hread : readFields fuel depth true c = .ok (located, after)) :
    SpellsFields ((key, v) :: fields) located ∧ after.rest = rest
  moreFields (level : Nat) (rest : List Char) {depth : Nat} {c after : Cursor}
    {fields : List (String × Value)} {located : List (String × Nat × Located)}
    (hc : c.rest = moreFields (level + 1) fields ++
      ((Value.newline level).toList ++ '\x7d' :: rest))
    (hread : readFields fuel depth false c = .ok (located, after)) :
    SpellsFields fields located ∧ after.rest = rest

end Values

/-- A reading that succeeds has read its first part and then the others. -/
theorem bind_eq_ok {α β : Type} {x : Except ReadError α} {f : α → Except ReadError β} {b : β}
    (h : (x >>= f) = .ok b) : ∃ a, x = .ok a ∧ f a = .ok b := by
  cases x with
  | error e => cases h
  | ok a => exact ⟨a, rfl, h⟩

/-- Nothing is read between a mark that opens an array and the one that closes it. -/
theorem readItems_end {fuel depth : Nat} {first : Bool} {c after : Cursor} {rest : List Char}
    {located : List Located} (hc : c.skipBlanks.rest = ']' :: rest)
    (h : readItems fuel depth first c = .ok (located, after)) :
    located = [] ∧ after.rest = rest := by
  cases fuel with
  | zero =>
      unfold readItems at h
      cases h
  | succ fuel =>
      unfold readItems at h
      rw [Cursor.eq_of_rest hc] at h
      cases h
      exact ⟨rfl, rfl⟩

theorem readFields_end {fuel depth : Nat} {first : Bool} {c after : Cursor} {rest : List Char}
    {located : List (String × Nat × Located)} (hc : c.skipBlanks.rest = '\x7d' :: rest)
    (h : readFields fuel depth first c = .ok (located, after)) :
    located = [] ∧ after.rest = rest := by
  cases fuel with
  | zero =>
      unfold readFields at h
      cases h
  | succ fuel =>
      unfold readFields at h
      rw [Cursor.eq_of_rest hc] at h
      cases h
      exact ⟨rfl, rfl⟩

/-- What a digit starts is read as a number. -/
theorem readValue_digit {fuel depth : Nat} {c : Cursor} {first : Char} {more : List Char}
    (hdigit : first.isDigit = true) (hc : c.skipBlanks.rest = first :: more) :
    readValue (fuel + 1) depth c = readNumber false ⟨first :: more, c.skipBlanks.offset⟩ >>=
      fun read => .ok (.number read.2.offset read.1, read.2) := by
  obtain ⟨-, -, hn, ht, hf, hminus, hquote, hlist, hobject⟩ := digit_ne hdigit
  unfold readValue
  dsimp only
  rw [Cursor.eq_of_rest hc]
  split
  · next heq => cases heq
  · next heq => exact absurd (List.cons.inj heq).1 hn
  · next heq => exact absurd (List.cons.inj heq).1 ht
  · next heq => exact absurd (List.cons.inj heq).1 hf
  · next heq => exact absurd (List.cons.inj heq).1 hminus
  · next heq => exact absurd (List.cons.inj heq).1 hquote
  · next heq => exact absurd (List.cons.inj heq).1 hlist
  · next heq => exact absurd (List.cons.inj heq).1 hobject
  · next heq =>
      obtain ⟨rfl, rfl⟩ := List.cons.inj heq
      rw [if_pos hdigit]

/-- A text of a number is read as one, with its sign. -/
theorem readValue_number (fuel depth : Nat) {level : Nat} {c : Cursor} {n : Number}
    {rest : List Char}
    (hc : c.skipBlanks.rest = ((Value.number n).indented level).toList ++ rest) :
    ∃ negative body offset, Spelling n negative body ∧
      readValue (fuel + 1) depth c = readNumber negative ⟨body ++ rest, offset⟩ >>=
        fun read => .ok (.number read.2.offset read.1, read.2) := by
  obtain ⟨negative, body, hspelling, htext⟩ := render_spec n
  rw [Value.indented, htext] at hc
  cases negative with
  | true =>
      refine ⟨true, body, c.skipBlanks.offset + '-'.utf8Size, hspelling, ?_⟩
      unfold readValue
      rw [Cursor.eq_of_rest hc]
      rfl
  | false =>
      obtain ⟨first, more, rfl, hdigit⟩ := hspelling.head
      exact ⟨false, first :: more, _, hspelling, readValue_digit hdigit hc⟩

namespace Rereads

variable {fuel : Nat} (h : Rereads fuel) (level : Nat) (rest : List Char) {depth : Nat}
  {c after : Cursor} {l : Located}
include h

/-- An array is read where one is written. -/
theorem array_succ {items : List Value}
    (hc : c.skipBlanks.rest = ((Value.array items).indented level).toList ++ rest)
    (hread : readValue (fuel + 1) depth c = .ok (l, after)) :
    Spells (.array items) l ∧ after.rest = rest := by
  unfold readValue at hread
  have hstart := Cursor.eq_of_rest hc
  cases items with
  | nil =>
      simp only [Value.indented] at hstart
      rw [hstart] at hread
      cases depth with
      | zero => cases hread
      | succ depth =>
          obtain ⟨⟨located, stop⟩, hitems, hl⟩ := bind_eq_ok hread
          obtain ⟨rfl, hstop⟩ := readItems_end rfl hitems
          cases hl
          exact ⟨.array _ _ .nil, hstop⟩
  | cons item more =>
      simp only [Value.indented, String.toList_append] at hstart
      rw [hstart] at hread
      cases depth with
      | zero => cases hread
      | succ depth =>
          obtain ⟨⟨located, stop⟩, hitems, hl⟩ := bind_eq_ok hread
          have hfirst : SpellsItems (item :: more) located ∧ stop.rest = rest := by
            refine h.items level rest ?_ hitems
            obtain ⟨d, text, htext, hd, -⟩ := indented_head item (level + 1)
            rw [htext]
            refine rest_skipBlanks_newline (level + 1) hd ?_
            change _ ++ rest = _
            rw [indentedItems_cons, htext]
            simp
          cases hl
          exact ⟨.array _ _ hfirst.1, hfirst.2⟩

/-- An object is read where one is written. -/
theorem object_succ {fields : List (String × Value)}
    (hc : c.skipBlanks.rest = ((Value.object fields).indented level).toList ++ rest)
    (hread : readValue (fuel + 1) depth c = .ok (l, after)) :
    Spells (.object fields) l ∧ after.rest = rest := by
  unfold readValue at hread
  have hstart := Cursor.eq_of_rest hc
  cases fields with
  | nil =>
      simp only [Value.indented] at hstart
      rw [hstart] at hread
      cases depth with
      | zero => cases hread
      | succ depth =>
          obtain ⟨⟨located, stop⟩, hfields, hl⟩ := bind_eq_ok hread
          obtain ⟨rfl, hstop⟩ := readFields_end rfl hfields
          cases hl
          exact ⟨.object _ _ .nil, hstop⟩
  | cons field more =>
      obtain ⟨key, value⟩ := field
      simp only [Value.indented, String.toList_append] at hstart
      rw [hstart] at hread
      cases depth with
      | zero => cases hread
      | succ depth =>
          obtain ⟨⟨located, stop⟩, hfields, hl⟩ := bind_eq_ok hread
          have hfirst : SpellsFields ((key, value) :: more) located ∧ stop.rest = rest := by
            refine h.fields level rest key ?_ hfields
            refine rest_skipBlanks_newline (level + 1) (by decide) ?_
            change _ ++ rest = _
            rw [indentedFields_cons, toList_quote]
            simp
          cases hl
          exact ⟨.object _ _ hfirst.1, hfirst.2⟩

/-- A value is read where one is written. -/
theorem value_succ {v : Value} (hrest : Ends rest)
    (hc : c.skipBlanks.rest = (v.indented level).toList ++ rest)
    (hread : readValue (fuel + 1) depth c = .ok (l, after)) : Spells v l ∧ after.rest = rest := by
  cases v with
  | null =>
      have hstart := Cursor.eq_of_rest hc
      unfold readValue at hread
      simp only [Value.indented] at hstart
      rw [hstart] at hread
      obtain ⟨stop, hstop, hl⟩ := bind_eq_ok hread
      cases hstop
      cases hl
      exact ⟨.null _, rfl⟩
  | bool b =>
      have hstart := Cursor.eq_of_rest hc
      unfold readValue at hread
      cases b with
      | true =>
          simp only [Value.indented, if_true] at hstart
          rw [hstart] at hread
          obtain ⟨stop, hstop, hl⟩ := bind_eq_ok hread
          cases hstop
          cases hl
          exact ⟨.bool _ _, rfl⟩
      | false =>
          simp only [Value.indented, Bool.false_eq_true, if_false] at hstart
          rw [hstart] at hread
          obtain ⟨stop, hstop, hl⟩ := bind_eq_ok hread
          cases hstop
          cases hl
          exact ⟨.bool _ _, rfl⟩
  | string s =>
      have hstart := Cursor.eq_of_rest hc
      unfold readValue at hread
      simp only [Value.indented, toList_quote, List.cons_append, List.append_assoc] at hstart
      rw [hstart] at hread
      obtain ⟨read, hs, hl⟩ := bind_eq_ok hread
      obtain ⟨offset, hquote⟩ := readString_escape s rest (c.skipBlanks.offset + '"'.utf8Size)
      have hsame := hs.symm.trans hquote
      cases hsame
      cases hl
      exact ⟨.string _ _, rfl⟩
  | number n =>
      obtain ⟨negative, body, offset, hspelling, hvalue⟩ := readValue_number fuel depth hc
      obtain ⟨⟨m, stop⟩, hm, hl⟩ := bind_eq_ok (hvalue.symm.trans hread)
      obtain ⟨hrespelled, hstop⟩ := hspelling.respelled hrest hm
      cases hl
      exact ⟨.number _ hrespelled, hstop⟩
  | array items => exact h.array_succ level rest hc hread
  | object fields => exact h.object_succ level rest hc hread

end Rereads

theorem ends_moreItems (level : Nat) (items : List Value) (rest : List Char) :
    Ends (moreItems (level + 1) items ++ ((Value.newline level).toList ++ rest)) := by
  intro d hd
  cases items with
  | nil =>
      rw [toList_newline] at hd
      exact .inr (Option.some.inj hd).symm
  | cons item more => exact .inl (Option.some.inj hd).symm

theorem ends_moreFields (level : Nat) (fields : List (String × Value)) (rest : List Char) :
    Ends (moreFields (level + 1) fields ++ ((Value.newline level).toList ++ rest)) := by
  intro d hd
  cases fields with
  | nil =>
      rw [toList_newline] at hd
      exact .inr (Option.some.inj hd).symm
  | cons field more => exact .inl (Option.some.inj hd).symm

section Succ

variable {fuel : Nat} (h : Rereads fuel) (level : Nat) (rest : List Char) {depth : Nat}
  {c after : Cursor}
include h

/-- An item and those behind it are read one after the other. -/
theorem Rereads.item {v : Value} {items : List Value} {located : List Located}
    (hc : c.skipBlanks.rest = (v.indented (level + 1)).toList ++
      (Json.moreItems (level + 1) items ++ ((Value.newline level).toList ++ ']' :: rest)))
    (hread : (do
      let (item, c) ← readValue fuel depth c
      let (items, c) ← readItems fuel depth false c
      .ok (item :: items, c)) = .ok (located, after)) :
    SpellsItems (v :: items) located ∧ after.rest = rest := by
  obtain ⟨⟨l, middle⟩, hvalue, hread⟩ := bind_eq_ok hread
  obtain ⟨⟨ls, stop⟩, hmore, hread⟩ := bind_eq_ok hread
  obtain ⟨hl, hmiddle⟩ := h.value (level + 1) _ (ends_moreItems level items _) hc hvalue
  obtain ⟨hls, hstop⟩ := h.moreItems level rest hmiddle hmore
  cases hread
  exact ⟨.cons hl hls, hstop⟩

theorem Rereads.items_succ {v : Value} {items : List Value} {located : List Located}
    (hc : c.skipBlanks.rest = (v.indented (level + 1)).toList ++
      (Json.moreItems (level + 1) items ++ ((Value.newline level).toList ++ ']' :: rest)))
    (hread : readItems (fuel + 1) depth true c = .ok (located, after)) :
    SpellsItems (v :: items) located ∧ after.rest = rest := by
  obtain ⟨d, text, htext, hd, hlist⟩ := indented_head v (level + 1)
  unfold readItems at hread
  dsimp only at hread
  have hstart : c.skipBlanks.skipBlanks.rest = c.skipBlanks.rest := c.rest_skipBlanks_twice
  split at hread
  · next heq =>
      rw [heq, htext] at hc
      cases hc
  · next heq =>
      rw [heq, htext] at hc
      exact absurd (List.cons.inj hc).1.symm hlist
  · exact h.item level rest (hstart.trans hc) hread

theorem Rereads.moreItems_succ {items : List Value} {located : List Located}
    (hc : c.rest = Json.moreItems (level + 1) items ++
      ((Value.newline level).toList ++ ']' :: rest))
    (hread : readItems (fuel + 1) depth false c = .ok (located, after)) :
    SpellsItems items located ∧ after.rest = rest := by
  cases items with
  | nil =>
      obtain ⟨rfl, hstop⟩ := readItems_end (rest_skipBlanks_newline level (by decide) hc) hread
      exact ⟨.nil, hstop⟩
  | cons item more =>
      obtain ⟨d, text, htext, hd, hlist⟩ := indented_head item (level + 1)
      have hcomma : c.skipBlanks.rest = ',' :: ((Value.newline (level + 1)).toList ++ d :: (text ++
          (Json.moreItems (level + 1) more ++ ((Value.newline level).toList ++ ']' :: rest)))) := by
        refine rest_skipBlanks_mark (by decide) ?_
        rw [hc, Json.moreItems, indentedItems_cons, htext]
        · simp
        · simp
      have hnext := rest_skipBlanks_newline (level + 1) hd (Cursor.tail_of_rest hcomma)
      unfold readItems at hread
      dsimp only at hread
      split at hread
      · next heq => cases hcomma.symm.trans heq
      · next heq => cases hcomma.symm.trans heq
      · next heq =>
          obtain ⟨rfl, -⟩ := List.cons.inj (hcomma.symm.trans heq)
          rw [if_neg (by decide), if_pos rfl] at hread
          split at hread
          · next heq => cases hnext.symm.trans heq
          · next heq => exact absurd (List.cons.inj (hnext.symm.trans heq)).1 hlist
          · refine h.item level rest ?_ hread
            rw [Cursor.rest_skipBlanks_twice, hnext, htext]
            rfl

theorem Rereads.field_succ (key : String) {v : Value} {fields : List (String × Value)}
    {located : List (String × Nat × Located)}
    (hc : c.rest = '"' :: (escape key.toList ++ '"' :: ':' :: ' ' ::
      ((v.indented (level + 1)).toList ++ (Json.moreFields (level + 1) fields ++
        ((Value.newline level).toList ++ '\x7d' :: rest)))))
    (hread : readField (fuel + 1) depth c = .ok (located, after)) :
    SpellsFields ((key, v) :: fields) located ∧ after.rest = rest := by
  obtain ⟨d, text, htext, hd, -⟩ := indented_head v (level + 1)
  unfold readField at hread
  obtain ⟨⟨key', behind⟩, hkey, hread⟩ := bind_eq_ok hread
  obtain ⟨offset, hquote⟩ := readString_escape key _ c.tail.offset
  rw [Cursor.eq_of_rest (Cursor.tail_of_rest hc), hquote] at hkey
  obtain ⟨rfl, rfl⟩ := Prod.mk.inj (Except.ok.inj hkey)
  generalize hbehind : Cursor.mk _ offset = behind at hread
  have hcolon : behind.skipBlanks.rest = ':' :: ' ' :: ((v.indented (level + 1)).toList ++
      (Json.moreFields (level + 1) fields ++ ((Value.newline level).toList ++ '\x7d' :: rest))) :=
    rest_skipBlanks_mark (by decide) (by rw [← hbehind])
  dsimp only at hread
  split at hread
  · next heq => cases hcolon.symm.trans heq
  · next heq =>
      have hvalue : behind.skipBlanks.tail.skipBlanks.rest = (v.indented (level + 1)).toList ++
          (Json.moreFields (level + 1) fields ++
            ((Value.newline level).toList ++ '\x7d' :: rest)) := by
        rw [Cursor.rest_skipBlanks, Cursor.tail_of_rest hcolon,
          List.dropWhile_cons_of_pos (by decide), htext, List.cons_append,
          List.dropWhile_cons_of_neg (by simp [hd])]
      obtain ⟨⟨l, middle⟩, hl, hread⟩ := bind_eq_ok hread
      obtain ⟨⟨ls, stop⟩, hls, hread⟩ := bind_eq_ok hread
      obtain ⟨hspells, hmiddle⟩ :=
        h.value (level + 1) _ (ends_moreFields level fields _) hvalue hl
      obtain ⟨hmore, hstop⟩ := h.moreFields level rest hmiddle hls
      cases hread
      exact ⟨.cons key _ hspells hmore, hstop⟩
  · next hother => exact absurd hcolon (hother _)

theorem Rereads.fields_succ (key : String) {v : Value} {fields : List (String × Value)}
    {located : List (String × Nat × Located)}
    (hc : c.skipBlanks.rest = '"' :: (escape key.toList ++ '"' :: ':' :: ' ' ::
      ((v.indented (level + 1)).toList ++ (Json.moreFields (level + 1) fields ++
        ((Value.newline level).toList ++ '\x7d' :: rest)))))
    (hread : readFields (fuel + 1) depth true c = .ok (located, after)) :
    SpellsFields ((key, v) :: fields) located ∧ after.rest = rest := by
  unfold readFields at hread
  dsimp only at hread
  split at hread
  · next heq => cases hc.symm.trans heq
  · next heq => cases hc.symm.trans heq
  · next heq =>
      obtain ⟨rfl, -⟩ := List.cons.inj (hc.symm.trans heq)
      rw [if_pos rfl, if_pos rfl] at hread
      exact h.field level rest key hc hread

theorem Rereads.moreFields_succ {fields : List (String × Value)}
    {located : List (String × Nat × Located)}
    (hc : c.rest = Json.moreFields (level + 1) fields ++
      ((Value.newline level).toList ++ '\x7d' :: rest))
    (hread : readFields (fuel + 1) depth false c = .ok (located, after)) :
    SpellsFields fields located ∧ after.rest = rest := by
  cases fields with
  | nil =>
      obtain ⟨rfl, hstop⟩ := readFields_end (rest_skipBlanks_newline level (by decide) hc) hread
      exact ⟨.nil, hstop⟩
  | cons field more =>
      obtain ⟨key, value⟩ := field
      have hcomma : c.skipBlanks.rest = ',' :: ((Value.newline (level + 1)).toList ++
          '"' :: (escape key.toList ++ '"' :: ':' :: ' ' :: ((value.indented (level + 1)).toList ++
            (Json.moreFields (level + 1) more ++
              ((Value.newline level).toList ++ '\x7d' :: rest))))) := by
        refine rest_skipBlanks_mark (by decide) ?_
        rw [hc, Json.moreFields, indentedFields_cons, toList_quote]
        · simp
        · simp
      have hnext := rest_skipBlanks_newline (level + 1) (by decide) (Cursor.tail_of_rest hcomma)
      unfold readFields at hread
      dsimp only at hread
      split at hread
      · next heq => cases hcomma.symm.trans heq
      · next heq => cases hcomma.symm.trans heq
      · next heq =>
          obtain ⟨rfl, -⟩ := List.cons.inj (hcomma.symm.trans heq)
          rw [if_neg (by decide), if_pos rfl] at hread
          split at hread
          · next heq => cases hnext.symm.trans heq
          · exact h.field level rest key hnext hread
          · next heq => cases hnext.symm.trans heq
          · next _ hquote _ => exact absurd hnext (hquote _)

end Succ

/-- Whatever its fuel is, a reader finds what is written. -/
theorem rereads (fuel : Nat) : Rereads fuel := by
  induction fuel with
  | zero =>
      constructor
      all_goals
        intros
        next hread =>
          simp [readValue, readItems, readFields, readField, Cursor.fail] at hread
  | succ fuel ih =>
      exact ⟨ih.value_succ, ih.items_succ, ih.moreItems_succ, ih.field_succ, ih.fields_succ,
        ih.moreFields_succ⟩

/-- A text that holds a value is read as that value. -/
theorem spells_of_readLocated {v : Value} {l : Located}
    (h : readLocated (v.pretty ++ "\n") = .ok l) : Spells v l := by
  obtain ⟨d, text, htext, hd, -⟩ := indented_head v 0
  obtain ⟨⟨l', after⟩, hvalue, hread⟩ := bind_eq_ok h
  have hspells : Spells v l' ∧ after.rest = ['\n'] := by
    refine (rereads _).value 0 ['\n'] (fun d hd => .inr (Option.some.inj hd).symm) ?_ hvalue
    rw [htext]
    refine rest_skipBlanks_mark hd ?_
    simp [Cursor.start, Value.pretty, htext]
  dsimp only at hread
  split at hread
  · cases hread
    exact hspells.1
  · cases hread

end ComponentAtlas.Json
