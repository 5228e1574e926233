import ComponentAtlas.Proofs.Json.Reread

/-!
# Values that are accepted

The reader accepts the indented text of every value whose numbers are in its range and that is
nested no deeper than it allows. Twice the length of a text is fuel enough for it: a step that uses
up no mark of the text is followed by one that does.
-/

namespace ComponentAtlas.Json

open ComponentAtlas.Text

/-- Values nested at most to a depth, with numbers in the range of the reader. -/
inductive Value.Within : Nat → Value → Prop where
  | null (depth : Nat) : Within depth .null
  | bool (depth : Nat) (b : Bool) : Within depth (.bool b)
  | number (depth : Nat) {n : Number} (h : Readable n) : Within depth (.number n)
  | string (depth : Nat) (s : String) : Within depth (.string s)
  | array {depth : Nat} {items : List Value} (h : ∀ v ∈ items, Within depth v) :
      Within (depth + 1) (.array items)
  | object {depth : Nat} {fields : Fields} (h : ∀ f ∈ fields, Within depth f.2) :
      Within (depth + 1) (.object fields)

section Steps

variable {fuel depth : Nat} {first : Bool} {c : Cursor} {rest : List Char}

theorem readItems_close (hc : c.skipBlanks.rest = ']' :: rest) :
    readItems (fuel + 1) depth first c = .ok ([], c.skipBlanks.tail) := by
  unfold readItems
  rw [Cursor.eq_of_rest hc]
  rfl

theorem readFields_close (hc : c.skipBlanks.rest = '\x7d' :: rest) :
    readFields (fuel + 1) depth first c = .ok ([], c.skipBlanks.tail) := by
  unfold readFields
  rw [Cursor.eq_of_rest hc]
  rfl

theorem Cursor.length_skipBlanks_le (c : Cursor) : c.skipBlanks.rest.length ≤ c.rest.length := by
  rw [rest_skipBlanks]
  exact (List.dropWhile_suffix _).length_le

/-- The steps of a reading that succeed make up a reading that succeeds. -/
theorem bind_ok {α β : Type} {x : Except ReadError α} {f : α → Except ReadError β} {a : α}
    (hx : x = .ok a) : (x >>= f) = f a := by
  rw [hx]
  rfl

theorem readValue_array {located : List Located} {after : Cursor}
    (hc : c.skipBlanks.rest = '[' :: rest)
    (h : readItems fuel depth true c.skipBlanks.tail = .ok (located, after)) :
    readValue (fuel + 1) (depth + 1) c =
      .ok (.array c.skipBlanks.offset after.offset located, after) := by
  unfold readValue
  rw [Cursor.eq_of_rest hc] at h ⊢
  exact bind_ok h

theorem readValue_object {located : List (String × Nat × Located)} {after : Cursor}
    (hc : c.skipBlanks.rest = '\x7b' :: rest)
    (h : readFields fuel depth true c.skipBlanks.tail = .ok (located, after)) :
    readValue (fuel + 1) (depth + 1) c =
      .ok (.object c.skipBlanks.offset after.offset located, after) := by
  unfold readValue
  rw [Cursor.eq_of_rest hc] at h ⊢
  exact bind_ok h

/-- A number is read where one in range is written. -/
theorem readValue_readable {level : Nat} {n : Number} (hn : Readable n) (hrest : Ends rest)
    (hc : c.skipBlanks.rest = ((Value.number n).indented level).toList ++ rest) :
    ∃ l after, readValue (fuel + 1) depth c = .ok (l, after) := by
  obtain ⟨negative, body, offset, hspelling, hvalue⟩ := readValue_number fuel depth hc
  obtain ⟨read, hread⟩ := hspelling.accepted hn hrest offset
  exact ⟨_, _, hvalue.trans (bind_ok hread)⟩

end Steps

/-- What a reader with some fuel accepts. The fuel is measured by the text that is left. -/
structure Accepts (fuel : Nat) : Prop where
  value (level : Nat) (rest : List Char) {depth : Nat} {c : Cursor} {v : Value}
    (hv : v.Within depth) (hrest : Ends rest)
    (hc : c.skipBlanks.rest = (v.indented level).toList ++ rest)
    (hfuel : 2 * c.skipBlanks.rest.length < fuel) :
    ∃ l after, readValue fuel depth c = .ok (l, after)
  items (level : Nat) (rest : List Char) {depth : Nat} {c : Cursor} {v : Value}
    {items : List Value} (hv : v.Within depth) (hitems : ∀ v ∈ items, v.Within depth)
    (hc : c.skipBlanks.rest = (v.indented (level + 1)).toList ++
      (moreItems (level + 1) items ++ ((Value.newline level).toList ++ ']' :: rest)))
    (hfuel : 2 * c.skipBlanks.rest.length + 1 < fuel) :
    ∃ located after, readItems fuel depth true c = .ok (located, after)
  moreItems (level : Nat) (rest : List Char) {depth : Nat} {c : Cursor} {items : List Value}
    (hitems : ∀ v ∈ items, v.Within depth)
    (hc : c.rest = moreItems (level + 1) items ++ ((Value.newline level).toList ++ ']' :: rest))
    (hfuel : 2 * c.rest.length ≤ fuel) :
    ∃ located after, readItems fuel depth false c = .ok (located, after)
  field (level : Nat) (rest : List Char) {depth : Nat} {c : Cursor} (key : String) {v : Value}
    {fields : List (String × Value)} (hv : v.Within depth)
    (hfields : ∀ f ∈ fields, f.2.Within depth)
    (hc : c.rest = '"' :: (escape key.toList ++ '"' :: ':' :: ' ' ::
      ((v.indented (level + 1)).toList ++ (moreFields (level + 1) fields ++
        ((Value.newline level).toList ++ '\x7d' :: rest)))))
    (hfuel : 2 * c.rest.length ≤ fuel) :
    ∃ located after, readField fuel depth c = .ok (located, after)
  fields (level : Nat) (rest : List Char) {depth : Nat} {c : Cursor} (key : String)
    {v : Value} {fields : List (String × Value)} (hv : v.Within depth)
    (hfields : ∀ f ∈ fields, f.2.Within depth)
    (hc : c.skipBlanks.rest = '"' :: (escape key.toList ++ '"' :: ':' :: ' ' ::
      ((v.indented (level + 1)).toList ++ (moreFields (level + 1) fields ++
        ((Value.newline level).toList ++ '\x7d' :: rest)))))
    (hfuel : 2 * c.skipBlanks.rest.length < fuel) :
    ∃ located after, readFields fuel depth true c = .ok (located, after)
  moreFields (level : Nat) (rest : List Char) {depth : Nat} {c : Cursor}
    {fields : List (String × Value)} (hfields : ∀ f ∈ fields, f.2.Within depth)
    (hc : c.rest = moreFields (level + 1) fields ++
      ((Value.newline level).toList ++ '\x7d' :: rest))
    (hfuel : 2 * c.rest.length ≤ fuel) :
    ∃ located after, readFields fuel depth false c = .ok (located, after)

namespace Accepts

variable {fuel : Nat} (h : Accepts fuel) (level : Nat) (rest : List Char) {depth : Nat}
  {c : Cursor}
include h

/-- An array is accepted where one is written. -/
theorem array_succ {items : List Value} (hitems : ∀ v ∈ items, v.Within depth)
    (hc : c.skipBlanks.rest = ((Value.array items).indented level).toList ++ rest)
    (hfuel : 2 * c.skipBlanks.rest.length < fuel + 1) :
    ∃ l after, readValue (fuel + 1) (depth + 1) c = .ok (l, after) := by
  cases items with
  | nil =>
      have hopen : c.skipBlanks.rest = '[' :: ']' :: rest := by
        rw [hc]
        simp [Value.indented]
      rw [hopen, List.length_cons] at hfuel
      obtain ⟨fuel, rfl⟩ := Nat.exists_eq_add_of_le' (show 1 ≤ fuel by omega)
      have hclose := rest_skipBlanks_mark (by decide) (Cursor.tail_of_rest hopen)
      exact ⟨_, _, readValue_array hopen (readItems_close hclose)⟩
  | cons item more =>
      obtain ⟨hitem, hmore⟩ := List.forall_mem_cons.mp hitems
      obtain ⟨d, text, htext, hd, -⟩ := indented_head item (level + 1)
      have hopen : c.skipBlanks.rest = '[' :: ((Value.newline (level + 1)).toList ++ d :: (text ++
          (Json.moreItems (level + 1) more ++ ((Value.newline level).toList ++ ']' :: rest)))) := by
        rw [hc]
        simp [Value.indented, indentedItems_cons, htext]
      have htail := Cursor.tail_of_rest hopen
      have hlength := c.skipBlanks.tail.length_skipBlanks_le
      rw [htail] at hlength
      rw [hopen, List.length_cons] at hfuel
      obtain ⟨located, after, hread⟩ := h.items level rest hitem hmore
        (by rw [rest_skipBlanks_newline (level + 1) hd htail, htext, List.cons_append]) (by omega)
      exact ⟨_, after, readValue_array hopen hread⟩

/-- An object is accepted where one is written. -/
theorem object_succ {fields : List (String × Value)} (hfields : ∀ f ∈ fields, f.2.Within depth)
    (hc : c.skipBlanks.rest = ((Value.object fields).indented level).toList ++ rest)
    (hfuel : 2 * c.skipBlanks.rest.length < fuel + 1) :
    ∃ l after, readValue (fuel + 1) (depth + 1) c = .ok (l, after) := by
  cases fields with
  | nil =>
      have hopen : c.skipBlanks.rest = '\x7b' :: '\x7d' :: rest := by
        rw [hc]
        simp [Value.indented]
      rw [hopen, List.length_cons] at hfuel
      obtain ⟨fuel, rfl⟩ := Nat.exists_eq_add_of_le' (show 1 ≤ fuel by omega)
      have hclose := rest_skipBlanks_mark (by decide) (Cursor.tail_of_rest hopen)
      exact ⟨_, _, readValue_object hopen (readFields_close hclose)⟩
  | cons field more =>
      obtain ⟨key, value⟩ := field
      obtain ⟨hvalue, hmore⟩ := List.forall_mem_cons.mp hfields
      have hopen : c.skipBlanks.rest = '\x7b' :: ((Value.newline (level + 1)).toList ++
          '"' :: (escape key.toList ++ '"' :: ':' :: ' ' :: ((value.indented (level + 1)).toList ++
            (Json.moreFields (level + 1) more ++
              ((Value.newline level).toList ++ '\x7d' :: rest))))) := by
        rw [hc]
        simp [Value.indented, indentedFields_cons, toList_quote]
      have htail := Cursor.tail_of_rest hopen
      have hlength := c.skipBlanks.tail.length_skipBlanks_le
      rw [htail] at hlength
      rw [hopen, List.length_cons] at hfuel
      obtain ⟨located, after, hread⟩ := h.fields level rest key hvalue hmore
        (rest_skipBlanks_newline (level + 1) (by decide) htail) (by omega)
      exact ⟨_, after, readValue_object hopen hread⟩

/-- A value is accepted where one is written. -/
theorem value_succ {v : Value} (hv : v.Within depth) (hrest : Ends rest)
    (hc : c.skipBlanks.rest = (v.indented level).toList ++ rest)
    (hfuel : 2 * c.skipBlanks.rest.length < fuel + 1) :
    ∃ l after, readValue (fuel + 1) depth c = .ok (l, after) := by
  have hstart := Cursor.eq_of_rest hc
  cases hv with
  | null =>
      unfold readValue
      simp only [Value.indented] at hstart
      rw [hstart]
      exact ⟨_, _, rfl⟩
  | bool _ b =>
      unfold readValue
      cases b with
      | true =>
          simp only [Value.indented, if_true] at hstart
          rw [hstart]
          exact ⟨_, _, rfl⟩
      | false =>
          simp only [Value.indented, Bool.false_eq_true, if_false] at hstart
          rw [hstart]
          exact ⟨_, _, rfl⟩
  | string _ s =>
      unfold readValue
      simp only [Value.indented, toList_quote, List.cons_append, List.append_assoc] at hstart
      obtain ⟨offset, hquote⟩ := readString_escape s rest (c.skipBlanks.offset + '"'.utf8Size)
      rw [hstart]
      exact ⟨_, _, bind_ok hquote⟩
  | number _ hn => exact readValue_readable hn hrest hc
  | array hitems => exact h.array_succ level rest hitems hc hfuel
  | object hfields => exact h.object_succ level rest hfields hc hfuel

/-- An item is accepted, and those behind it. -/
theorem item {v : Value} {items : List Value} (hv : v.Within depth)
    (hitems : ∀ v ∈ items, v.Within depth)
    (hc : c.skipBlanks.rest = (v.indented (level + 1)).toList ++
      (Json.moreItems (level + 1) items ++ ((Value.newline level).toList ++ ']' :: rest)))
    (hfuel : 2 * c.skipBlanks.rest.length < fuel) :
    ∃ located after, (do
      let (item, c) ← readValue fuel depth c
      let (items, c) ← readItems fuel depth false c
      .ok (item :: items, c) : Except ReadError (List Located × Cursor)) =
        .ok (located, after) := by
  have hends := ends_moreItems level items (']' :: rest)
  obtain ⟨l, middle, hl⟩ := h.value (level + 1) _ hv hends hc hfuel
  obtain ⟨-, hmiddle⟩ := (rereads fuel).value (level + 1) _ hends hc hl
  have hshorter : middle.rest.length ≤ c.skipBlanks.rest.length := by
    rw [hc, hmiddle]
    exact (List.suffix_append _ _).length_le
  obtain ⟨located, after, hmore⟩ := h.moreItems level rest hitems hmiddle (by omega)
  exact ⟨_, after, (bind_ok hl).trans (bind_ok hmore)⟩

theorem items_succ {v : Value} {items : List Value} (hv : v.Within depth)
    (hitems : ∀ v ∈ items, v.Within depth)
    (hc : c.skipBlanks.rest = (v.indented (level + 1)).toList ++
      (Json.moreItems (level + 1) items ++ ((Value.newline level).toList ++ ']' :: rest)))
    (hfuel : 2 * c.skipBlanks.rest.length + 1 < fuel + 1) :
    ∃ located after, readItems (fuel + 1) depth true c = .ok (located, after) := by
  obtain ⟨d, text, htext, hd, hlist⟩ := indented_head v (level + 1)
  unfold readItems
  dsimp only
  have hstart : c.skipBlanks.skipBlanks.rest = c.skipBlanks.rest := c.rest_skipBlanks_twice
  split
  · next heq =>
      rw [heq, htext] at hc
      cases hc
  · next heq =>
      rw [heq, htext] at hc
      exact absurd (List.cons.inj hc).1.symm hlist
  · exact h.item level rest hv hitems (hstart.trans hc) (by rw [hstart]; omega)

theorem moreItems_succ {items : List Value} (hitems : ∀ v ∈ items, v.Within depth)
    (hc : c.rest = Json.moreItems (level + 1) items ++
      ((Value.newline level).toList ++ ']' :: rest))
    (hfuel : 2 * c.rest.length ≤ fuel + 1) :
    ∃ located after, readItems (fuel + 1) depth false c = .ok (located, after) := by
  cases items with
  | nil => exact ⟨_, _, readItems_close (rest_skipBlanks_newline level (by decide) hc)⟩
  | cons item more =>
      obtain ⟨hitem, hmore⟩ := List.forall_mem_cons.mp hitems
      obtain ⟨d, text, htext, hd, hlist⟩ := indented_head item (level + 1)
      have hcomma : c.skipBlanks.rest = ',' :: ((Value.newline (level + 1)).toList ++ d :: (text ++
          (Json.moreItems (level + 1) more ++ ((Value.newline level).toList ++ ']' :: rest)))) := by
        refine rest_skipBlanks_mark (by decide) ?_
        rw [hc, Json.moreItems, indentedItems_cons, htext]
        · simp
        · simp
      have htail := Cursor.tail_of_rest hcomma
      have hnext := rest_skipBlanks_newline (level + 1) hd htail
      have hlength := c.length_skipBlanks_le
      have hlengthNext := c.skipBlanks.tail.length_skipBlanks_le
      rw [htail] at hlengthNext
      rw [hcomma, List.length_cons] at hlength
      unfold readItems
      dsimp only
      split
      · next heq => cases hcomma.symm.trans heq
      · next heq => cases hcomma.symm.trans heq
      · next heq =>
          obtain ⟨rfl, -⟩ := List.cons.inj (hcomma.symm.trans heq)
          rw [if_neg (by decide), if_pos rfl]
          split
          · next heq => cases hnext.symm.trans heq
          · next heq => exact absurd (List.cons.inj (hnext.symm.trans heq)).1 hlist
          · refine h.item level rest hitem hmore ?_ ?_
            · rw [Cursor.rest_skipBlanks_twice, hnext, htext]
              rfl
            · rw [Cursor.rest_skipBlanks_twice]
              omega

theorem field_succ (key : String) {v : Value} {fields : List (String × Value)}
    (hv : v.Within depth) (hfields : ∀ f ∈ fields, f.2.Within depth)
    (hc : c.rest = '"' :: (escape key.toList ++ '"' :: ':' :: ' ' ::
      ((v.indented (level + 1)).toList ++ (Json.moreFields (level + 1) fields ++
        ((Value.newline level).toList ++ '\x7d' :: rest)))))
    (hfuel : 2 * c.rest.length ≤ fuel + 1) :
    ∃ located after, readField (fuel + 1) depth c = .ok (located, after) := by
  obtain ⟨d, text, htext, hd, -⟩ := indented_head v (level + 1)
  obtain ⟨offset, hquote⟩ := readString_escape key (':' :: ' ' ::
    ((v.indented (level + 1)).toList ++ (Json.moreFields (level + 1) fields ++
      ((Value.newline level).toList ++ '\x7d' :: rest)))) c.tail.offset
  rw [← Cursor.eq_of_rest (Cursor.tail_of_rest hc)] at hquote
  generalize hbehind : Cursor.mk _ offset = behind at hquote
  have hcolon : behind.skipBlanks.rest = ':' :: ' ' :: ((v.indented (level + 1)).toList ++
      (Json.moreFields (level + 1) fields ++ ((Value.newline level).toList ++ '\x7d' :: rest))) :=
    rest_skipBlanks_mark (by decide) (by rw [← hbehind])
  have hvalue : behind.skipBlanks.tail.skipBlanks.rest = (v.indented (level + 1)).toList ++
      (Json.moreFields (level + 1) fields ++
        ((Value.newline level).toList ++ '\x7d' :: rest)) := by
    rw [Cursor.rest_skipBlanks, Cursor.tail_of_rest hcolon,
      List.dropWhile_cons_of_pos (by decide), htext, List.cons_append,
      List.dropWhile_cons_of_neg (by simp [hd])]
  have hends := ends_moreFields level fields ('\x7d' :: rest)
  have hlength := congrArg List.length hc
  have hlengthValue := congrArg List.length hvalue
  simp only [List.length_cons, List.length_append] at hlength hlengthValue
  obtain ⟨l, middle, hl⟩ := h.value (level + 1) _ hv hends hvalue (by omega)
  obtain ⟨-, hmiddle⟩ := (rereads fuel).value (level + 1) _ hends hvalue hl
  have hlengthMiddle := congrArg List.length hmiddle
  simp only [List.length_cons, List.length_append] at hlengthMiddle
  obtain ⟨located, after, hmore⟩ := h.moreFields level rest hfields hmiddle (by omega)
  refine ⟨(key, behind.skipBlanks.offset, l) :: located, after, ?_⟩
  unfold readField
  rw [bind_ok hquote]
  dsimp only
  split
  · next heq => cases hcolon.symm.trans heq
  · exact (bind_ok hl).trans (bind_ok hmore)
  · next hother => exact absurd hcolon (hother _)

theorem fields_succ (key : String) {v : Value} {fields : List (String × Value)}
    (hv : v.Within depth) (hfields : ∀ f ∈ fields, f.2.Within depth)
    (hc : c.skipBlanks.rest = '"' :: (escape key.toList ++ '"' :: ':' :: ' ' ::
      ((v.indented (level + 1)).toList ++ (Json.moreFields (level + 1) fields ++
        ((Value.newline level).toList ++ '\x7d' :: rest)))))
    (hfuel : 2 * c.skipBlanks.rest.length < fuel + 1) :
    ∃ located after, readFields (fuel + 1) depth true c = .ok (located, after) := by
  unfold readFields
  dsimp only
  split
  · next heq => cases hc.symm.trans heq
  · next heq => cases hc.symm.trans heq
  · next heq =>
      obtain ⟨rfl, -⟩ := List.cons.inj (hc.symm.trans heq)
      rw [if_pos rfl, if_pos rfl]
      exact h.field level rest key hv hfields hc (by omega)

theorem moreFields_succ {fields : List (String × Value)}
    (hfields : ∀ f ∈ fields, f.2.Within depth)
    (hc : c.rest = Json.moreFields (level + 1) fields ++
      ((Value.newline level).toList ++ '\x7d' :: rest))
    (hfuel : 2 * c.rest.length ≤ fuel + 1) :
    ∃ located after, readFields (fuel + 1) depth false c = .ok (located, after) := by
  cases fields with
  | nil => exact ⟨_, _, readFields_close (rest_skipBlanks_newline level (by decide) hc)⟩
  | cons field more =>
      obtain ⟨key, value⟩ := field
      obtain ⟨hvalue, hmore⟩ := List.forall_mem_cons.mp hfields
      have hcomma : c.skipBlanks.rest = ',' :: ((Value.newline (level + 1)).toList ++
          '"' :: (escape key.toList ++ '"' :: ':' :: ' ' :: ((value.indented (level + 1)).toList ++
            (Json.moreFields (level + 1) more ++
              ((Value.newline level).toList ++ '\x7d' :: rest))))) := by
        refine rest_skipBlanks_mark (by decide) ?_
        rw [hc, Json.moreFields, indentedFields_cons, toList_quote]
        · simp
        · simp
      have htail := Cursor.tail_of_rest hcomma
      have hnext := rest_skipBlanks_newline (level + 1) (by decide) htail
      have hlength := c.length_skipBlanks_le
      have hlengthNext := c.skipBlanks.tail.length_skipBlanks_le
      rw [htail] at hlengthNext
      rw [hcomma, List.length_cons] at hlength
      unfold readFields
      dsimp only
      split
      · next heq => cases hcomma.symm.trans heq
      · next heq => cases hcomma.symm.trans heq
      · next heq =>
          obtain ⟨rfl, -⟩ := List.cons.inj (hcomma.symm.trans heq)
          rw [if_neg (by decide), if_pos rfl]
          split
          · next heq => cases hnext.symm.trans heq
          · exact h.field level rest key hvalue hmore hnext (by omega)
          · next heq => cases hnext.symm.trans heq
          · next _ hquote _ => exact absurd hnext (hquote _)

end Accepts

/-- Whatever its fuel is, a reader accepts what the fuel is enough for. -/
theorem accepts (fuel : Nat) : Accepts fuel := by
  induction fuel with
  | zero =>
      refine ⟨?_, ?_, ?_, ?_, ?_, ?_⟩
      · intro level rest depth c v hv hrest hc hfuel
        exact absurd hfuel (Nat.not_lt_zero _)
      · intro level rest depth c v items hv hitems hc hfuel
        exact absurd hfuel (Nat.not_lt_zero _)
      · intro level rest depth c items hitems hc hfuel
        have hlength := congrArg List.length hc
        simp only [List.length_append, List.length_cons] at hlength
        omega
      · intro level rest depth c key v fields hv hfields hc hfuel
        have hlength := congrArg List.length hc
        simp only [List.length_append, List.length_cons] at hlength
        omega
      · intro level rest depth c key v fields hv hfields hc hfuel
        exact absurd hfuel (Nat.not_lt_zero _)
      · intro level rest depth c fields hfields hc hfuel
        have hlength := congrArg List.length hc
        simp only [List.length_append, List.length_cons] at hlength
        omega
  | succ fuel ih =>
      exact ⟨ih.value_succ, ih.items_succ, ih.moreItems_succ, ih.field_succ, ih.fields_succ,
        ih.moreFields_succ⟩

/-- The text of a value that is nested within the depth of the reader is read as that value. -/
theorem readLocated_pretty {v : Value} (hv : v.Within maxDepth) :
    ∃ l, readLocated (v.pretty ++ "\n") = .ok l ∧ Spells v l := by
  obtain ⟨d, text, htext, hd, -⟩ := indented_head v 0
  let start := Cursor.start (v.pretty ++ "\n")
  have hstart : start.skipBlanks.rest = (v.indented 0).toList ++ ['\n'] := by
    rw [htext]
    refine rest_skipBlanks_mark hd ?_
    simp [start, Cursor.start, Value.pretty, htext]
  have hends : Ends ['\n'] := fun d hd => .inr (Option.some.inj hd).symm
  have hlength := start.length_skipBlanks_le
  obtain ⟨l, after, hl⟩ := (accepts (2 * start.rest.length + 2)).value 0 ['\n'] hv hends hstart
    (by omega)
  obtain ⟨hspells, hafter⟩ := (rereads _).value 0 ['\n'] hends hstart hl
  have hblank : after.skipBlanks.rest = [] := by
    rw [Cursor.rest_skipBlanks, hafter]
    rfl
  refine ⟨l, ?_, hspells⟩
  unfold readLocated
  rw [bind_ok hl]
  simp only [hblank, List.isEmpty_nil, if_true]

end ComponentAtlas.Json
