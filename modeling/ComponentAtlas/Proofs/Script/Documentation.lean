import ComponentAtlas.Proofs.Path.Pieces
import ComponentAtlas.Proofs.Text.Trimming
import ComponentAtlas.Script.DocComment

/-!
# Documentation that is read back

A documentation comment frames each line of its text with an indentation and a star, and the whole
with its two marks. Cleaning takes away the frame and nothing of the text, whatever stars and
slashes there are in it, as long as no line begins with a star or holds the end of a comment.
-/

namespace ComponentAtlas.Script

open ComponentAtlas.Text

section Strip

variable {front back text : List Char}

theorem stripFront?_of_not_prefix (h : ¬front <+: text) : stripFront? front text = none := by
  cases hstrip : stripFront? front text with
  | none => rfl
  | some rest => exact absurd ⟨rest, (stripFront?_eq_some_iff.mp hstrip).symm⟩ h

theorem stripFronts_of_not_prefix (h : ¬front <+: text) (fuel : Nat) :
    stripFronts front fuel text = text := by
  cases fuel with
  | zero => rfl
  | succ fuel => rw [stripFronts, stripFront?_of_not_prefix h]

theorem trimFronts_of_not_prefix (h : ¬front <+: text) : trimFronts front text = text :=
  stripFronts_of_not_prefix h _

/-- A front that does not come twice is taken away. -/
theorem trimFronts_append (hne : front ≠ []) (h : ¬front <+: text) :
    trimFronts front (front ++ text) = text := by
  obtain ⟨fuel, hfuel⟩ : ∃ fuel, (front ++ text).length = fuel + 1 :=
    Nat.exists_eq_succ_of_ne_zero (by simp [hne])
  rw [trimFronts, hfuel, stripFronts, stripFront?_eq_some_iff.mpr rfl]
  exact stripFronts_of_not_prefix h fuel

theorem trimBacks_of_not_suffix (h : ¬back <:+ text) : trimBacks back text = text := by
  rw [trimBacks, trimFronts_of_not_prefix (List.reverse_prefix.not.mpr h), List.reverse_reverse]

/-- A back that does not come twice is taken away. -/
theorem trimBacks_append (hne : back ≠ []) (h : ¬back <:+ text) :
    trimBacks back (text ++ back) = text := by
  rw [trimBacks, List.reverse_append, trimFronts_append (List.reverse_ne_nil_iff.mpr hne)
    (List.reverse_prefix.not.mpr h), List.reverse_reverse]

end Strip

/-- The end of a line: a line feed, alone or behind a carriage return. -/
inductive LineEnd where
  | feed
  | returnFeed
  deriving DecidableEq, Repr

/-- The spelling of the end of a line. -/
def LineEnd.text : LineEnd → List Char
  | .feed => ['\n']
  | .returnFeed => ['\r', '\n']

section Lines

variable {line : List Char}

/-- What stands in front of the first end of a line is the first line. -/
theorem linesOf_append (ending : LineEnd) (hfeed : '\n' ∉ line)
    (hreturn : line.getLast? ≠ some '\r') (rest : List Char) :
    linesOf (line ++ ending.text ++ rest) = line :: linesOf rest := by
  have hfirst : ∃ first, splitAt '\n' (line ++ ending.text ++ rest) = first :: splitAt '\n' rest ∧
      (if first.getLast? = some '\r' then first.dropLast else first) = line := by
    cases ending with
    | feed =>
        refine ⟨line, ?_, if_neg hreturn⟩
        rw [LineEnd.text, List.append_assoc, List.singleton_append, splitAt_append,
          splitAt_of_not_mem hfeed, List.singleton_append]
    | returnFeed =>
        have hassoc : line ++ LineEnd.returnFeed.text ++ rest =
            (line ++ ['\r']) ++ '\n' :: rest := by
          simp [LineEnd.text]
        refine ⟨line ++ ['\r'], ?_, by simp⟩
        rw [hassoc, splitAt_append, splitAt_of_not_mem (by simp [hfeed]), List.singleton_append]
  obtain ⟨first, hsplit, hline⟩ := hfirst
  obtain ⟨last, before, hrest⟩ := List.exists_cons_of_ne_nil
    (List.reverse_ne_nil_iff.mpr (splitAt_ne_nil '\n' rest))
  simp only [linesOf, hsplit, List.reverse_cons, hrest, List.cons_append, List.reverse_append,
    List.reverse_nil, List.nil_append, List.map_cons, hline]
  split <;> rfl

theorem linesOf_single (hfeed : '\n' ∉ line) (hne : line ≠ []) : linesOf line = [line] := by
  simp [linesOf, splitAt_of_not_mem hfeed, hne]

end Lines

/-- A line of documentation that a comment can show: it is not empty, has no blanks around it, and
neither begins with a star nor holds the end of a comment. -/
structure IsDocText (text : List Char) : Prop where
  nonempty : text ≠ []
  line : '\n' ∉ text
  unclosed : ¬['*', '/'] <:+: text
  first : ∀ c ∈ text.head?, isBlank c = false ∧ c ≠ '*'
  last : ∀ c ∈ text.getLast?, isBlank c = false

/-- Blanks in front of a line. -/
def IsIndent (indent : List Char) : Prop :=
  ∀ c ∈ indent, isBlank c = true ∧ c ≠ '\n'

/-- A line of documentation with its indentation and its end. -/
structure DocLine where
  indent : List Char
  text : List Char
  ending : LineEnd

namespace DocLine

/-- The line behind its indentation and a star. -/
def framed (l : DocLine) : List Char :=
  l.indent ++ '*' :: ' ' :: l.text

/-- A line that a comment can show. -/
structure Shown (l : DocLine) : Prop where
  indent : IsIndent l.indent
  text : IsDocText l.text

end DocLine

/-- A documentation comment over several lines. -/
def docBlock (first : LineEnd) (lines : List DocLine) (indent : List Char) : List Char :=
  docOpening ++ first.text ++ (lines.flatMap fun l => l.framed ++ l.ending.text) ++
    (indent ++ ['*', '/'])

/-- A documentation comment in one line. -/
def docInline (text : List Char) : List Char :=
  docOpening ++ ' ' :: text ++ [' ', '*', '/']

section Clean

variable {text indent : List Char}

theorem IsIndent.blank (h : IsIndent indent) : ∀ c ∈ indent, isBlank c = true :=
  fun c hc => (h c hc).1

/-- The end of a comment is not at the end of a text behind a blank. -/
theorem IsDocText.not_suffix (h : IsDocText text) : ¬['*', '/'] <:+ ' ' :: text := by
  rw [List.suffix_cons_iff]
  rintro (hwhole | hsuffix)
  · cases hwhole
  · exact h.unclosed hsuffix.isInfix

/-- The frame of a line is taken away. -/
theorem cleanLine_framed (h : IsDocText text) (hindent : IsIndent indent) :
    cleanLine (indent ++ '*' :: ' ' :: text) = text := by
  have hmarked : trim isBlank (indent ++ '*' :: ' ' :: text ++ []) = '*' :: ' ' :: text := by
    refine trim_append_eq hindent.blank (List.forall_mem_nil _) ?_ ?_
    · exact fun c hc => Option.some.inj hc ▸ by decide
    · rw [List.getLast?_cons_cons, List.getLast?_cons_of_ne_nil h.nonempty]
      exact h.last
  have hback : ¬['*', '/'] <:+ '*' :: ' ' :: text := by
    rw [List.suffix_cons_iff]
    rintro (hwhole | hsuffix)
    · cases hwhole
    · exact h.not_suffix hsuffix
  rw [List.append_nil] at hmarked
  rw [cleanLine, hmarked, trimFronts_of_not_prefix (by simp [docOpening]),
    trimBacks_of_not_suffix hback, List.dropWhile_cons_of_pos rfl,
    List.dropWhile_cons_of_neg (by decide)]
  have htext : trim isBlank ([' '] ++ text ++ []) = text :=
    trim_append_eq (by simp [isBlank]) (List.forall_mem_nil _) (fun c hc => (h.first c hc).1) h.last
  rwa [List.append_nil] at htext

/-- Nothing is left of the closing mark. -/
theorem cleanLine_closing (hindent : IsIndent indent) : cleanLine (indent ++ ['*', '/']) = [] := by
  have hmark : trim isBlank (indent ++ ['*', '/'] ++ []) = ['*', '/'] :=
    trim_append_eq hindent.blank (List.forall_mem_nil _) (by simp [isBlank]) (by simp [isBlank])
  rw [List.append_nil] at hmark
  rw [cleanLine, hmark]
  decide

/-- The frame of a comment in one line is taken away. -/
theorem cleanLine_docInline (h : IsDocText text) : cleanLine (docInline text) = text := by
  have hself : trim isBlank (docInline text) = docInline text := by
    have hwhole : trim isBlank ([] ++ docInline text ++ []) = docInline text := by
      refine trim_append_eq (List.forall_mem_nil _) (List.forall_mem_nil _) ?_ ?_
      · exact fun c hc => Option.some.inj hc ▸ by decide
      · intro c hc
        rw [docInline, List.getLast?_append_of_ne_nil _ (List.cons_ne_nil _ _)] at hc
        exact Option.some.inj hc ▸ by decide
    rwa [List.append_nil, List.nil_append] at hwhole
  have hfront : ¬docOpening <+: ' ' :: text ++ [' ', '*', '/'] := by
    simp [docOpening]
  have hback : ¬['*', '/'] <:+ ' ' :: text ++ [' '] := by
    intro hsuffix
    have hlast := hsuffix.getLast (List.cons_ne_nil _ _)
    rw [List.getLast_append_singleton] at hlast
    cases hlast
  have hbehind : ' ' :: text ++ [' ', '*', '/'] = ' ' :: text ++ [' '] ++ ['*', '/'] :=
    (List.append_assoc _ [' '] _).symm
  rw [cleanLine, hself, docInline, List.append_assoc, trimFronts_append (by decide) hfront, hbehind,
    trimBacks_append (List.cons_ne_nil _ _) hback, List.cons_append,
    List.dropWhile_cons_of_neg (by decide)]
  have htext : trim isBlank ([' '] ++ text ++ [' ']) = text :=
    trim_append_eq (by simp [isBlank]) (by simp [isBlank]) (fun c hc => (h.first c hc).1) h.last
  exact htext

end Clean

section Comment

variable {l : DocLine} {lines : List DocLine} {indent : List Char}

theorem IsIndent.not_mem (h : IsIndent indent) : '\n' ∉ indent :=
  fun hmem => (h _ hmem).2 rfl

theorem DocLine.Shown.not_mem_framed (h : l.Shown) : '\n' ∉ l.framed := by
  simp [framed, h.indent.not_mem, h.text.line]

theorem DocLine.Shown.getLast?_framed (h : l.Shown) : l.framed.getLast? ≠ some '\r' := by
  have hlast : l.framed.getLast? = l.text.getLast? := by
    rw [framed, List.getLast?_append_of_ne_nil _ (List.cons_ne_nil _ _), List.getLast?_cons_cons,
      List.getLast?_cons_of_ne_nil h.text.nonempty]
  intro hreturn
  have hblank := h.text.last '\r' (hlast ▸ hreturn)
  revert hblank
  decide

/-- The lines of a comment are its opening, the framed lines and its closing. -/
theorem linesOf_docBlock (first : LineEnd) (hlines : ∀ l ∈ lines, l.Shown)
    (hindent : IsIndent indent) :
    linesOf (docBlock first lines indent) =
      docOpening :: (lines.map DocLine.framed ++ [indent ++ ['*', '/']]) := by
  rw [docBlock, List.append_assoc _ (lines.flatMap _),
    linesOf_append first (by decide) (by decide)]
  congr 1
  induction lines with
  | nil => exact linesOf_single (by simp [hindent.not_mem]) (by simp)
  | cons l rest ih =>
      obtain ⟨hl, hrest⟩ := List.forall_mem_cons.mp hlines
      rw [List.flatMap_cons, List.append_assoc, linesOf_append l.ending hl.not_mem_framed
        hl.getLast?_framed, ih hrest]
      rfl

theorem cleanComment_docBlock (first : LineEnd) (hlines : ∀ l ∈ lines, l.Shown)
    (hindent : IsIndent indent) :
    cleanComment (docBlock first lines indent) = joinWith ['\n'] (lines.map DocLine.text) := by
  have hopening : cleanLine docOpening = [] := by decide
  have hframed : (lines.map DocLine.framed).map cleanLine = lines.map DocLine.text := by
    rw [List.map_map]
    exact List.map_congr_left fun l hl => cleanLine_framed (hlines l hl).text (hlines l hl).indent
  have hkept : (lines.map DocLine.text).filter (· ≠ []) = lines.map DocLine.text := by
    refine List.filter_eq_self.mpr fun text htext => ?_
    obtain ⟨l, hl, rfl⟩ := List.mem_map.mp htext
    exact decide_eq_true (hlines l hl).text.nonempty
  rw [cleanComment, linesOf_docBlock first hlines hindent, List.map_cons, hopening, List.map_append,
    hframed, List.map_singleton, cleanLine_closing hindent, List.filter_cons_of_neg (by decide),
    List.filter_append, hkept, List.filter_cons_of_neg (by decide), List.filter_nil,
    List.append_nil]

theorem cleanComment_docInline {text : List Char} (h : IsDocText text) :
    cleanComment (docInline text) = text := by
  have hlines : linesOf (docInline text) = [docInline text] :=
    linesOf_single (by simp [docInline, docOpening, h.line]) (by simp [docInline])
  rw [cleanComment, hlines, List.map_singleton, cleanLine_docInline h,
    List.filter_cons_of_pos (by simp [h.nonempty])]
  rfl

/-- A comment of the documentation form that leaves a text is its documentation. -/
theorem documentation?_of_cleanComment {comment text : List Char} (h : docOpening <+: comment)
    (htext : cleanComment comment = text) (hne : text ≠ []) :
    documentation? comment = some (String.ofList text) := by
  rw [documentation?, if_pos (List.isPrefixOf_iff_prefix.mpr h), htext, if_neg hne]

end Comment

/-- Documentation is recovered from its comment: a comment over several lines gives its lines,
whatever their indentations and ends, and a comment in one line gives that line. -/
theorem documentation_recovered (first : LineEnd) {lines : List DocLine} (hne : lines ≠ [])
    (hlines : ∀ l ∈ lines, l.Shown) {indent : List Char} (hindent : IsIndent indent) :
    (cleanComment (docBlock first lines indent) = joinWith ['\n'] (lines.map DocLine.text) ∧
      documentation? (docBlock first lines indent) =
        some (String.ofList (joinWith ['\n'] (lines.map DocLine.text)))) ∧
    ∀ l ∈ lines, cleanComment (docInline l.text) = l.text ∧
      documentation? (docInline l.text) = some (String.ofList l.text) := by
  have hblock := cleanComment_docBlock first hlines hindent
  have hjoined : joinWith ['\n'] (lines.map DocLine.text) ≠ [] := by
    obtain ⟨l, rest, rfl⟩ := List.exists_cons_of_ne_nil hne
    have hl := (hlines l List.mem_cons_self).text.nonempty
    cases rest with
    | nil => exact hl
    | cons next rest => simp [joinWith]
  have hopening : docOpening <+: docBlock first lines indent := by
    rw [docBlock, List.append_assoc, List.append_assoc]
    exact List.prefix_append _ _
  refine ⟨⟨hblock, documentation?_of_cleanComment hopening hblock hjoined⟩, fun l hl => ?_⟩
  have htext := (hlines l hl).text
  have hinline := cleanComment_docInline htext
  refine ⟨hinline, documentation?_of_cleanComment ?_ hinline htext.nonempty⟩
  rw [docInline, List.append_assoc]
  exact List.prefix_append _ _

/-- A comment with carriage returns, and texts with stars and slashes at their ends. -/
theorem documentation_recovered_stars :
    cleanComment (docBlock .returnFeed
        [⟨['\t'], ['/', '*', '*', ' ', '*'], .returnFeed⟩, ⟨[], ['a', '*'], .feed⟩] [' ']) =
      ['/', '*', '*', ' ', '*', '\n', 'a', '*'] := by
  have hfirst : DocLine.Shown ⟨['\t'], ['/', '*', '*', ' ', '*'], .returnFeed⟩ :=
    ⟨by simp [IsIndent, isBlank], by decide, by decide, by decide, by simp [isBlank],
      by simp [isBlank]⟩
  have hsecond : DocLine.Shown ⟨[], ['a', '*'], .feed⟩ :=
    ⟨by simp [IsIndent, isBlank], by decide, by decide, by decide, by simp [isBlank],
      by simp [isBlank]⟩
  exact (documentation_recovered .returnFeed (List.cons_ne_nil _ _)
    (List.forall_mem_cons.mpr ⟨hfirst, List.forall_mem_singleton.mpr hsecond⟩)
    (by simp [IsIndent, isBlank])).1.1

end ComponentAtlas.Script
