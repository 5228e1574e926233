import ComponentAtlas.Text.Position
import Mathlib

/-!
# Positions and offsets

The offsets at which a character starts are in order, and so are the positions that they stand
for: a later one has a later line or a later column on the same line. An editor position is
answered by the last of these offsets that is on its line and not past its column, which is the
offset that it came from.
-/

namespace ComponentAtlas.Text

section Boundaries

variable {text front back : List Char} {offset : Nat}

theorem mem_boundaries_iff {start : Nat} :
    offset ∈ boundaries start text ↔
      ∃ front back, text = front ++ back ∧ offset = start + byteSize front := by
  induction text generalizing start with
  | nil =>
      constructor
      · intro h
        exact ⟨[], [], rfl, List.mem_singleton.mp h⟩
      · rintro ⟨front, back, htext, rfl⟩
        obtain ⟨rfl, rfl⟩ := List.append_eq_nil_iff.mp htext.symm
        exact List.mem_cons_self
  | cons c rest ih =>
      rw [boundaries, List.mem_cons, ih]
      constructor
      · rintro (rfl | ⟨front, back, rfl, rfl⟩)
        · exact ⟨[], c :: rest, rfl, rfl⟩
        · exact ⟨c :: front, back, rfl, by rw [byteSize_cons, Nat.add_assoc]⟩
      · rintro ⟨front, back, htext, rfl⟩
        cases front with
        | nil => exact .inl rfl
        | cons d front =>
            obtain ⟨rfl, rfl⟩ := List.cons.inj htext
            exact .inr ⟨front, back, rfl, by rw [byteSize_cons, Nat.add_assoc]⟩

/-- A boundary is the size of a front of the text. -/
theorem mem_boundaries :
    offset ∈ boundaries 0 text ↔ ∃ front, front <+: text ∧ offset = byteSize front := by
  rw [mem_boundaries_iff]
  constructor
  · rintro ⟨front, back, rfl, hoffset⟩
    exact ⟨front, List.prefix_append _ _, by omega⟩
  · rintro ⟨front, ⟨back, rfl⟩, rfl⟩
    exact ⟨front, back, rfl, by omega⟩

theorem takeBytes_front (n : Nat) (text : List Char) : takeBytes n text <+: text :=
  ⟨dropBytes n text, takeBytes_append_dropBytes n text⟩

/-- The front of a boundary is cut off there. -/
theorem takeBytes_byteSize (front back : List Char) :
    takeBytes (byteSize front) (front ++ back) = front := by
  induction front with
  | nil =>
      cases back with
      | nil => rfl
      | cons c rest =>
          have hsize := c.utf8Size_pos
          simp only [List.nil_append, byteSize_nil, takeBytes, if_neg (Nat.not_le.mpr hsize)]
  | cons c rest ih =>
      simp only [List.cons_append, byteSize_cons, takeBytes, Nat.le_add_right, if_true,
        Nat.add_sub_cancel_left, ih]

theorem takeBytes_of_front (h : front <+: text) : takeBytes (byteSize front) text = front := by
  obtain ⟨back, rfl⟩ := h
  exact takeBytes_byteSize front back

theorem byteSize_le_of_front (h : front <+: text) : byteSize front ≤ byteSize text := by
  obtain ⟨back, rfl⟩ := h
  rw [byteSize_append]
  exact Nat.le_add_right _ _

theorem le_of_mem_boundaries (h : offset ∈ boundaries 0 text) : offset ≤ byteSize text := by
  obtain ⟨front, hfront, rfl⟩ := mem_boundaries.mp h
  exact byteSize_le_of_front hfront

/-- Every front that is small enough is within the longest one. -/
theorem prefix_takeBytes {n : Nat} (h : front <+: text) (hn : byteSize front ≤ n) :
    front <+: takeBytes n text := by
  induction front generalizing n text with
  | nil => exact List.nil_prefix
  | cons c front ih =>
      obtain ⟨back, rfl⟩ := h
      rw [byteSize_cons] at hn
      rw [List.cons_append, takeBytes, if_pos (by omega), List.prefix_cons_inj]
      exact ih (List.prefix_append _ _) (by omega)

/-- A cut inside a character is moved down to the greatest boundary below. -/
theorem isGreatest_takeBytes (n : Nat) (text : List Char) :
    IsGreatest {b | b ∈ boundaries 0 text ∧ b ≤ n} (byteSize (takeBytes n text)) := by
  refine ⟨⟨mem_boundaries.mpr ⟨_, takeBytes_front n text, rfl⟩, byteSize_takeBytes_le n text⟩, ?_⟩
  rintro b ⟨hb, hle⟩
  obtain ⟨front, hfront, rfl⟩ := mem_boundaries.mp hb
  exact byteSize_le_of_front (prefix_takeBytes hfront hle)

end Boundaries

section Order

/-- A position comes before another one on an earlier line, or on the same line in an earlier or
the same column. -/
instance : LE Position where
  le p q := p.line < q.line ∨ p.line = q.line ∧ p.character ≤ q.character

instance (p q : Position) : Decidable (p ≤ q) :=
  inferInstanceAs (Decidable (p.line < q.line ∨ p.line = q.line ∧ p.character ≤ q.character))

theorem Position.le_iff {p q : Position} :
    p ≤ q ↔ p.line < q.line ∨ p.line = q.line ∧ p.character ≤ q.character := Iff.rfl

theorem Position.le_trans {p q r : Position} (h : p ≤ q) (h' : q ≤ r) : p ≤ r := by
  rw [Position.le_iff] at h h' ⊢
  omega

theorem unitSize_pos (c : Char) : 0 < unitSize c := by
  unfold unitSize
  split <;> omega

theorem unitSize_le_utf8Size (c : Char) : unitSize c ≤ c.utf8Size := by
  have hpos := c.utf8Size_pos
  unfold unitSize
  split
  · exact hpos
  · next hlarge =>
      have hone : c.utf8Size ≠ 1 := by
        rw [Ne, Char.utf8Size_eq_one_iff, UInt32.le_iff_toNat_le]
        have hval : c.toNat = c.val.toNat := rfl
        have hbound : (127 : UInt32).toNat = 127 := rfl
        omega
      omega

theorem advance_append (p : Position) (front back : List Char) :
    advance p (front ++ back) = advance (advance p front) back := by
  induction front generalizing p with
  | nil => rfl
  | cons c rest ih =>
      simp only [List.cons_append, advance]
      split <;> exact ih _

/-- Reading on never leads back. -/
theorem le_advance (p : Position) (text : List Char) : p ≤ advance p text := by
  induction text generalizing p with
  | nil => exact .inr ⟨rfl, Nat.le_refl _⟩
  | cons c rest ih =>
      rw [advance]
      split
      · have hstep : p ≤ ⟨p.line + 1, 0⟩ := .inl (Nat.lt_succ_self _)
        exact Position.le_trans hstep (ih _)
      · have hstep : p ≤ ⟨p.line, p.character + unitSize c⟩ := .inr ⟨rfl, Nat.le_add_right _ _⟩
        exact Position.le_trans hstep (ih _)

/-- The line of a position grows by the line breaks that are read. -/
theorem line_advance (p : Position) (text : List Char) :
    (advance p text).line = p.line + text.count '\n' := by
  induction text generalizing p with
  | nil => rfl
  | cons c rest ih =>
      rw [advance]
      split
      · next hc =>
          subst hc
          rw [ih, List.count_cons_self]
          simp only
          omega
      · next hc => rw [ih, List.count_cons_of_ne hc]

/-- Without a line break the column grows by the units that are read. -/
theorem advance_of_not_mem {p : Position} {text : List Char} (h : '\n' ∉ text) :
    advance p text = ⟨p.line, p.character + unitCount text⟩ := by
  induction text generalizing p with
  | nil => rfl
  | cons c rest ih =>
      obtain ⟨hc, hrest⟩ := not_or.mp (List.mem_cons.not.mp h)
      rw [advance, if_neg (Ne.symm hc), ih hrest, unitCount_cons, Nat.add_assoc]

/-- The characters behind the last line break of a text. -/
def lastLine (text : List Char) : List Char :=
  text.rtakeWhile fun c => c != '\n'

theorem advance_eq (text : List Char) :
    advance ⟨0, 0⟩ text = ⟨text.count '\n', unitCount (lastLine text)⟩ := by
  have hbreak : ∀ c ∈ lastLine text, c ≠ '\n' := fun c hc => by
    simpa using List.mem_rtakeWhile_imp hc
  have hline : (advance ⟨0, 0⟩ (text.rdropWhile fun c => c != '\n')).character = 0 := by
    rcases hfront : text.rdropWhile (fun c => c != '\n') with _ | ⟨first, rest⟩
    · rfl
    · have hne : text.rdropWhile (fun c => c != '\n') ≠ [] := hfront ▸ List.cons_ne_nil _ _
      have hlast := List.rdropWhile_last_not (fun c => c != '\n') text hne
      rw [← hfront, ← List.dropLast_append_getLast hne, advance_append]
      have heq : (text.rdropWhile fun c => c != '\n').getLast hne = '\n' := by simpa using hlast
      rw [heq]
      rfl
  have hsplit : (text.rdropWhile fun c => c != '\n') ++ lastLine text = text := by
    rw [lastLine, List.rdropWhile, List.rtakeWhile, ← List.reverse_append,
      List.takeWhile_append_dropWhile, List.reverse_reverse]
  have hend : advance ⟨0, 0⟩ text = advance (advance ⟨0, 0⟩ (text.rdropWhile fun c => c != '\n'))
      (lastLine text) := by
    rw [← advance_append, hsplit]
  have hlines := line_advance ⟨0, 0⟩ text
  rw [hend, advance_of_not_mem fun hmem => hbreak _ hmem rfl] at hlines ⊢
  rw [hline, Nat.zero_add, hlines, Nat.zero_add]

/-- Neither the line nor the column grows by more than the bytes that are read. -/
theorem advance_le_byteSize (p : Position) (text : List Char) :
    (advance p text).line ≤ p.line + byteSize text ∧
      (advance p text).character ≤ p.character + byteSize text := by
  induction text generalizing p with
  | nil => exact ⟨Nat.le_refl _, Nat.le_refl _⟩
  | cons c rest ih =>
      have hpos := c.utf8Size_pos
      have hunits := unitSize_le_utf8Size c
      rw [advance, byteSize_cons]
      split
      · obtain ⟨hline, hcolumn⟩ := ih ⟨p.line + 1, 0⟩
        simp only at hline hcolumn
        omega
      · obtain ⟨hline, hcolumn⟩ := ih ⟨p.line, p.character + unitSize c⟩
        simp only at hline hcolumn
        omega

/-- Behind a further character stands a different position. -/
theorem not_advance_le (p : Position) (c : Char) (text : List Char) :
    ¬advance p (c :: text) ≤ p := by
  intro h
  have hpos := unitSize_pos c
  rw [advance, Position.le_iff] at h
  split at h
  · have hle := Position.le_iff.mp (le_advance ⟨p.line + 1, 0⟩ text)
    simp only at hle
    omega
  · have hle := Position.le_iff.mp (le_advance ⟨p.line, p.character + unitSize c⟩ text)
    simp only at hle
    omega

end Order

section Offsets

variable {text : List Char}

theorem positionAt_of_front {front : List Char} (h : front <+: text) :
    positionAt text (byteSize front) = advance ⟨0, 0⟩ front := by
  rw [positionAt, takeBytes_of_front h]

theorem advance_le_of_front {front back : List Char} (h : front <+: back) :
    advance ⟨0, 0⟩ front ≤ advance ⟨0, 0⟩ back := by
  obtain ⟨rest, rfl⟩ := h
  rw [advance_append]
  exact le_advance _ _

/-- Later offsets stand for later positions. -/
theorem positionAt_mono {o o' : Nat} (h : o ≤ o') : positionAt text o ≤ positionAt text o' :=
  advance_le_of_front
    (prefix_takeBytes (takeBytes_front o text) (Nat.le_trans (byteSize_takeBytes_le o text) h))

/-- An offset inside a character stands for the position of the boundary below. -/
theorem positionAt_takeBytes (text : List Char) (o : Nat) :
    positionAt text (byteSize (takeBytes o text)) = positionAt text o := by
  rw [positionAt_of_front (takeBytes_front o text), positionAt]

/-- Boundaries are ordered as their positions are. -/
theorem le_of_positionAt_le {b b' : Nat} (hb : b ∈ boundaries 0 text)
    (hb' : b' ∈ boundaries 0 text) (h : positionAt text b ≤ positionAt text b') : b ≤ b' := by
  obtain ⟨front, hfront, rfl⟩ := mem_boundaries.mp hb
  obtain ⟨front', hfront', rfl⟩ := mem_boundaries.mp hb'
  rw [positionAt_of_front hfront, positionAt_of_front hfront'] at h
  rcases List.prefix_or_prefix_of_prefix hfront hfront' with hle | ⟨more, rfl⟩
  · exact byteSize_le_of_front hle
  · cases more with
    | nil => rw [List.append_nil]
    | cons c more =>
        rw [advance_append] at h
        exact absurd h (not_advance_le _ c more)

/-- The start of a line is behind the line breaks in front of it, of which the last ends the text
up to there. -/
theorem lineStart?_eq_some {n skipped : Nat} {tail : List Char}
    (h : lineStart? n text = some (skipped, tail)) :
    ∃ head, text = head ++ tail ∧ skipped = byteSize head ∧ head.count '\n' = n ∧
      lastLine head = [] := by
  induction text generalizing n skipped with
  | nil =>
      cases n with
      | zero =>
          cases h
          exact ⟨[], rfl, rfl, rfl, rfl⟩
      | succ n => cases h
  | cons c rest ih =>
      cases n with
      | zero =>
          cases h
          exact ⟨[], rfl, rfl, rfl, rfl⟩
      | succ n =>
          rw [lineStart?] at h
          obtain ⟨⟨bytes, tail'⟩, hrest, heq⟩ := Option.map_eq_some_iff.mp h
          obtain ⟨rfl, rfl⟩ := Prod.mk.inj heq
          obtain ⟨head, rfl, rfl, hcount, hlast⟩ := ih hrest
          refine ⟨c :: head, rfl, by rw [byteSize_cons, Nat.add_comm], ?_, ?_⟩
          · by_cases hc : c = '\n'
            · subst hc
              rw [if_pos rfl] at hcount
              rw [List.count_cons_self, hcount]
            · rw [if_neg hc] at hcount
              rw [List.count_cons_of_ne hc, hcount]
          · rw [lastLine, List.rtakeWhile_eq_nil_iff] at hlast ⊢
            intro hne
            by_cases hhead : head = []
            · subst hhead
              by_cases hc : c = '\n'
              · simp [hc]
              · rw [if_neg hc] at hcount
                cases hcount
            · rw [List.getLast_cons hhead]
              exact hlast hhead

theorem lineStart?_isSome {n : Nat} : (lineStart? n text).isSome = true ↔ n ≤ text.count '\n' := by
  induction text generalizing n with
  | nil => cases n <;> simp [lineStart?]
  | cons c rest ih =>
      cases n with
      | zero => simp [lineStart?]
      | succ n =>
          rw [lineStart?, Option.isSome_map, ih]
          by_cases hc : c = '\n'
          · subst hc
            rw [if_pos rfl, List.count_cons_self]
            omega
          · rw [if_neg hc, List.count_cons_of_ne hc]

/-- The bytes of a line that fit into some units are those of a front without a line break that
fits, and the character behind it ends the line or does not fit any more. -/
theorem columnBytes_spec (units : Nat) (text : List Char) :
    ∃ front back, text = front ++ back ∧ columnBytes units text = byteSize front ∧
      '\n' ∉ front ∧ unitCount front ≤ units ∧
      ∀ c ∈ back.head?, c = '\n' ∨ units < unitCount front + unitSize c := by
  induction text generalizing units with
  | nil => exact ⟨[], [], rfl, rfl, List.not_mem_nil, Nat.zero_le _, fun c hc => nomatch hc⟩
  | cons c rest ih =>
      rw [columnBytes]
      split
      · next hstop =>
          refine ⟨[], c :: rest, rfl, rfl, List.not_mem_nil, Nat.zero_le _, fun d hd => ?_⟩
          obtain rfl := Option.some.inj hd
          rw [unitCount_nil, Nat.zero_add]
          rcases hstop with rfl | hbreak | hwide
          · exact .inr (unitSize_pos c)
          · exact .inl hbreak
          · exact .inr hwide
      · next hgo =>
          obtain ⟨-, hc, hwide⟩ : units ≠ 0 ∧ c ≠ '\n' ∧ ¬units < unitSize c := by
            simpa only [not_or] using hgo
          obtain ⟨front, back, rfl, hbytes, hbreak, hfits, hnext⟩ := ih (units - unitSize c)
          refine ⟨c :: front, back, rfl, by rw [hbytes, byteSize_cons], ?_, ?_, fun d hd => ?_⟩
          · exact fun hmem => (List.mem_cons.mp hmem).elim (fun h => hc h.symm) hbreak
          · rw [unitCount_cons]
            omega
          · refine (hnext d hd).imp id fun hwide => ?_
            rw [unitCount_cons]
            omega

/-- The offset of a position on a line of the text is a boundary on that line and not past the
column, and behind it the line ends or the column is passed. -/
theorem offsetAt_spec {p : Position} (h : p.line ≤ text.count '\n') :
    ∃ front back, text = front ++ back ∧ offsetAt text p = byteSize front ∧
      (advance ⟨0, 0⟩ front).line = p.line ∧ (advance ⟨0, 0⟩ front).character ≤ p.character ∧
      ∀ c ∈ back.head?, ¬((advance ⟨0, 0⟩ (front ++ [c])).line = p.line ∧
        (advance ⟨0, 0⟩ (front ++ [c])).character ≤ p.character) := by
  obtain ⟨⟨skipped, tail⟩, hstart⟩ := Option.isSome_iff_exists.mp (lineStart?_isSome.mpr h)
  obtain ⟨head, rfl, rfl, hcount, hlast⟩ := lineStart?_eq_some hstart
  obtain ⟨mid, back, rfl, hbytes, hbreak, hfits, hnext⟩ := columnBytes_spec p.character tail
  have hhead : advance ⟨0, 0⟩ head = ⟨p.line, 0⟩ := by
    rw [advance_eq, hlast, hcount, unitCount_nil]
  have hmid : advance ⟨0, 0⟩ (head ++ mid) = ⟨p.line, unitCount mid⟩ := by
    rw [advance_append, hhead, advance_of_not_mem hbreak, Nat.zero_add]
  refine ⟨head ++ mid, back, (List.append_assoc _ _ _).symm, ?_, ?_, ?_, fun c hc => ?_⟩
  · simp only [offsetAt, hstart, hbytes, byteSize_append]
  · rw [hmid]
  · rw [hmid]
    exact hfits
  · rw [advance_append, hmid, advance]
    split
    · exact fun hline => absurd hline.1 (Nat.succ_ne_self _)
    · next hc' =>
        have := (hnext c hc).resolve_left hc'
        exact fun hcolumn => absurd hcolumn.2 (Nat.not_le.mpr this)

theorem offsetAt_of_lt {p : Position} (h : text.count '\n' < p.line) :
    offsetAt text p = byteSize text := by
  have hnone : lineStart? p.line text = none := by
    rw [← Option.not_isSome_iff_eq_none, lineStart?_isSome]
    omega
  rw [offsetAt, hnone]

theorem offsetAt_mem_boundaries (text : List Char) (p : Position) :
    offsetAt text p ∈ boundaries 0 text := by
  rcases Nat.lt_or_ge (text.count '\n') p.line with hline | hline
  · rw [offsetAt_of_lt hline]
    exact mem_boundaries.mpr ⟨text, List.prefix_rfl, rfl⟩
  · obtain ⟨front, back, htext, hoffset, -⟩ := offsetAt_spec hline
    exact mem_boundaries.mpr ⟨front, ⟨back, htext.symm⟩, hoffset⟩

/-- The offset of a position is the last boundary on its line that is not past its column. -/
theorem isGreatest_offsetAt {p : Position} (h : p.line ≤ text.count '\n') :
    IsGreatest {b | b ∈ boundaries 0 text ∧ (positionAt text b).line = p.line ∧
      (positionAt text b).character ≤ p.character} (offsetAt text p) := by
  obtain ⟨front, back, rfl, hoffset, hline, hcolumn, hnext⟩ := offsetAt_spec h
  rw [hoffset]
  refine ⟨⟨mem_boundaries.mpr ⟨front, List.prefix_append _ _, rfl⟩, ?_⟩, ?_⟩
  · rw [positionAt_of_front (List.prefix_append _ _)]
    exact ⟨hline, hcolumn⟩
  · rintro b ⟨hb, hbline, hbcolumn⟩
    by_contra hgt
    -- A greater boundary is behind the next character, which is off the line or past the column.
    obtain ⟨longer, hlonger, rfl⟩ := mem_boundaries.mp hb
    rw [positionAt_of_front hlonger] at hbline hbcolumn
    rcases List.prefix_or_prefix_of_prefix hlonger (List.prefix_append front back) with
      hshort | ⟨more, rfl⟩
    · exact hgt (byteSize_le_of_front hshort)
    · cases more with
      | nil => exact hgt (by rw [List.append_nil])
      | cons c more =>
          have hhead : c ∈ back.head? := by
            obtain ⟨rest, hrest⟩ := (List.prefix_append_right_inj front).mp hlonger
            rw [← hrest]
            rfl
          refine hnext c hhead ?_
          have hafter : advance ⟨0, 0⟩ front ≤ advance ⟨0, 0⟩ (front ++ [c]) :=
            advance_le_of_front (List.prefix_append _ _)
          have hwithin : advance ⟨0, 0⟩ (front ++ [c]) ≤ advance ⟨0, 0⟩ (front ++ c :: more) :=
            advance_le_of_front ⟨more, by simp⟩
          rw [Position.le_iff] at hafter hwithin
          omega

/-- The offset of the position of a boundary is that boundary. -/
theorem offsetAt_positionAt {o : Nat} (h : o ∈ boundaries 0 text) :
    offsetAt text (positionAt text o) = o := by
  have hline : (positionAt text o).line ≤ text.count '\n' := by
    rw [positionAt, line_advance, Nat.zero_add]
    exact (takeBytes_front o text).sublist.count_le _
  obtain ⟨⟨hmem, hsame, hcolumn⟩, hupper⟩ := isGreatest_offsetAt hline
  refine Nat.le_antisymm ?_ (hupper ⟨h, rfl, Nat.le_refl _⟩)
  exact le_of_positionAt_le hmem h (.inr ⟨hsame, hcolumn⟩)

theorem offsetAt_le (text : List Char) (p : Position) : offsetAt text p ≤ byteSize text :=
  le_of_mem_boundaries (offsetAt_mem_boundaries text p)

/-- Later positions are answered by later offsets. -/
theorem offsetAt_mono {p q : Position} (h : p ≤ q) : offsetAt text p ≤ offsetAt text q := by
  rcases Nat.lt_or_ge (text.count '\n') q.line with hq | hq
  · rw [offsetAt_of_lt hq]
    exact offsetAt_le text p
  · have hp : p.line ≤ text.count '\n' := by
      rw [Position.le_iff] at h
      omega
    obtain ⟨⟨hpmem, hpline, hpcolumn⟩, -⟩ := isGreatest_offsetAt hp
    obtain ⟨⟨hqmem, hqline, -⟩, hupper⟩ := isGreatest_offsetAt hq
    rcases h with hbefore | ⟨hsame, hcolumn⟩
    · have hle : positionAt text (offsetAt text p) ≤ positionAt text (offsetAt text q) :=
        .inl (by omega)
      exact le_of_positionAt_le hpmem hqmem hle
    · exact hupper ⟨hpmem, hpline.trans hsame, Nat.le_trans hpcolumn hcolumn⟩

/-- Neither the line nor the column of a position exceeds the size of the text. -/
theorem positionAt_le_byteSize (text : List Char) (o : Nat) :
    (positionAt text o).line ≤ byteSize text ∧ (positionAt text o).character ≤ byteSize text := by
  obtain ⟨hline, hcolumn⟩ := advance_le_byteSize ⟨0, 0⟩ (takeBytes o text)
  have hfront := byteSize_le_of_front (takeBytes_front o text)
  rw [positionAt]
  simp only at hline hcolumn
  omega

/-- Offsets and positions are adjoint: every boundary is answered for its position, every other
offset counts as the boundary below, and a position is answered by the last boundary on its line
that is not past its column, or by the end of the text when there is no such line. Lines are
counted by the line breaks in front and columns by the UTF-16 units behind the last one, and both
fit into 32 bits. -/
theorem positions_adjoint {text : List Char} (hsize : byteSize text < 2 ^ 32) :
    (∀ o ∈ boundaries 0 text, offsetAt text (positionAt text o) = o) ∧
      (∀ o b, IsGreatest {b | b ∈ boundaries 0 text ∧ b ≤ o} b →
        positionAt text o = positionAt text b) ∧
      (∀ front back, text = front ++ back → positionAt text (byteSize front) =
        ⟨front.count '\n', unitCount (lastLine front)⟩) ∧
      (∀ o, (positionAt text o).line < 2 ^ 32 ∧ (positionAt text o).character < 2 ^ 32) ∧
      (∀ p, offsetAt text p ∈ boundaries 0 text ∧ offsetAt text p ≤ byteSize text) ∧
      (∀ p, text.count '\n' < p.line → offsetAt text p = byteSize text) ∧
      (∀ p, p.line ≤ text.count '\n' →
        IsGreatest {b | b ∈ boundaries 0 text ∧ (positionAt text b).line = p.line ∧
          (positionAt text b).character ≤ p.character} (offsetAt text p)) ∧
      (∀ o o', o ≤ o' → positionAt text o ≤ positionAt text o') ∧
      (∀ p q, p ≤ q → offsetAt text p ≤ offsetAt text q) := by
  refine ⟨fun o => offsetAt_positionAt, fun o b hb => ?_, ?_, fun o => ?_, fun p => ?_,
    fun p => offsetAt_of_lt, fun p => isGreatest_offsetAt, fun o o' => positionAt_mono,
    fun p q => offsetAt_mono⟩
  · rw [hb.unique (isGreatest_takeBytes o text), positionAt_takeBytes]
  · rintro front back rfl
    rw [positionAt_of_front (List.prefix_append _ _), advance_eq]
  · have := positionAt_le_byteSize text o
    omega
  · exact ⟨offsetAt_mem_boundaries text p, offsetAt_le text p⟩

theorem positions_adjoint_sample :
    byteSize "a😀\r\nb".toList < 2 ^ 32 ∧
      offsetAt "a😀\r\nb".toList (positionAt "a😀\r\nb".toList 5) = 5 ∧
      positionAt "a😀\r\nb".toList 3 = positionAt "a😀\r\nb".toList 1 ∧
      offsetAt "a😀\r\nb".toList ⟨0, 2⟩ ≤ offsetAt "a😀\r\nb".toList ⟨1, 0⟩ := by
  have hsize : byteSize "a😀\r\nb".toList < 2 ^ 32 := by decide
  obtain ⟨hback, hinside, -, -, -, -, -, -, hmono⟩ := positions_adjoint hsize
  refine ⟨hsize, hback 5 (by decide), hinside 3 1 ⟨by decide, ?_⟩, hmono _ _ (by decide)⟩
  rintro b ⟨hb, hle⟩
  have hall : ∀ b ∈ boundaries 0 "a😀\r\nb".toList, b ≤ 3 → b ≤ 1 := by decide
  exact hall b hb hle

end Offsets

end ComponentAtlas.Text
