import ComponentAtlas.Proofs.Script.Documentation
import ComponentAtlas.Script.Component

/-!
# Comments without a text

A block comment of nothing but stars and blanks has no text, and it documents nothing with two
exceptions. Cleaning takes only the first stars of a line away, so a documentation comment keeps a
star that stands behind another one and blanks. And where nothing stands between the marks of a
comment, its two stars count as part of the opening mark, so that the slash behind them is left.
-/

namespace ComponentAtlas

open ComponentAtlas.Text

namespace Text

section Lines

variable {text line : List Char}

/-- What holds of single lines, and of a text with a line in front if of the text, always holds. -/
@[elab_as_elim]
theorem lineInduction {motive : List Char → Prop} (single : ∀ line, '\n' ∉ line → motive line)
    (append : ∀ line rest, '\n' ∉ line → motive rest → motive (line ++ '\n' :: rest))
    (text : List Char) : motive text := by
  induction hsize : text.length using Nat.strong_induction_on generalizing text with
  | _ size ih =>
      by_cases hfeed : '\n' ∈ text
      · obtain ⟨line, rest, rfl, hline⟩ := List.eq_append_cons_of_mem hfeed
        have hshorter : rest.length < size := by
          rw [← hsize, List.length_append, List.length_cons]
          omega
        exact append line rest hline (ih rest.length hshorter rest rfl)
      · exact single text hfeed

theorem splitAt_line (hline : '\n' ∉ line) (rest : List Char) :
    splitAt '\n' (line ++ '\n' :: rest) = line :: splitAt '\n' rest := by
  rw [splitAt_append, splitAt_of_not_mem hline, List.singleton_append]

theorem mem_of_mem_splitAt {c : Char} (hline : line ∈ splitAt '\n' text) (hc : c ∈ line) :
    c ∈ text := by
  induction text using lineInduction with
  | single text htext =>
      rw [splitAt_of_not_mem htext, List.mem_singleton] at hline
      exact hline ▸ hc
  | append first rest hfirst ih =>
      rw [splitAt_line hfirst, List.mem_cons] at hline
      rcases hline with rfl | hrest
      · exact List.mem_append_left _ hc
      · exact List.mem_append_right _ (List.mem_cons_of_mem _ (ih hrest))

end Lines

section Join

variable {sep : List Char} {pieces : List (List Char)}

theorem joinWith_eq_nil_iff (h : ∀ piece ∈ pieces, piece ≠ []) :
    joinWith sep pieces = [] ↔ pieces = [] := by
  cases pieces with
  | nil => simp [joinWith]
  | cons piece rest =>
      have hpiece := h piece List.mem_cons_self
      cases rest <;> simp [joinWith, hpiece]

theorem mem_joinWith {c : Char} (h : c ∈ joinWith sep pieces) :
    c ∈ sep ∨ ∃ piece ∈ pieces, c ∈ piece := by
  induction pieces with
  | nil => cases h
  | cons piece rest ih =>
      cases rest with
      | nil => exact .inr ⟨piece, List.mem_cons_self, h⟩
      | cons next more =>
          have hjoined : joinWith sep (piece :: next :: more) =
              piece ++ sep ++ joinWith sep (next :: more) := rfl
          rw [hjoined, List.mem_append, List.mem_append] at h
          rcases h with (hpiece | hsep) | hrest
          · exact .inr ⟨piece, List.mem_cons_self, hpiece⟩
          · exact .inl hsep
          · rcases ih hrest with hsep | ⟨p, hp, hc⟩
            · exact .inl hsep
            · exact .inr ⟨p, List.mem_cons_of_mem _ hp, hc⟩

end Join

end Text

namespace Script

/-- The block comment around a text. -/
def blockComment (body : List Char) : List Char :=
  ['/', '*'] ++ body ++ ['*', '/']

/-- A text of stars and blanks. -/
def IsBare (text : List Char) : Prop :=
  ∀ c ∈ text, c = '*' ∨ isBlank c = true

/-- Two stars of one line have blanks and nothing else between them. -/
def StarsApart (text : List Char) : Prop :=
  ∃ gap, gap ≠ [] ∧ IsIndent gap ∧ '*' :: gap ++ ['*'] <:+: text

/-- What stands behind the first stars of a line. -/
def behindStars (line : List Char) : List Char :=
  trimStart (· == '*') (trimStart isBlank line)

section Lines

variable {text line rest : List Char}

theorem IsBare.of_append (h : IsBare (line ++ '\n' :: rest)) : IsBare line ∧ IsBare rest :=
  ⟨fun c hc => h c (List.mem_append_left _ hc),
    fun c hc => h c (List.mem_append_right _ (List.mem_cons_of_mem _ hc))⟩

theorem IsBare.of_mem_splitAt (h : IsBare text) (hline : line ∈ splitAt '\n' text) : IsBare line :=
  fun c hc => h c (mem_of_mem_splitAt hline hc)

/-- A carriage return at the end of a line does not count. -/
theorem cleanLine_return (hreturn : line.getLast? = some '\r') :
    cleanLine line.dropLast = cleanLine line := by
  obtain ⟨front, rfl⟩ := List.getLast?_eq_some_iff.mp hreturn
  have htrim : trim isBlank ([] ++ front ++ ['\r']) = trim isBlank front :=
    trim_append_of_all front (List.forall_mem_nil _) (List.forall_mem_singleton.mpr rfl)
  rw [List.nil_append] at htrim
  rw [List.dropLast_concat, cleanLine, cleanLine, htrim]

/-- The text of a comment in terms of the pieces between its line feeds. -/
theorem cleanComment_eq (comment : List Char) : cleanComment comment =
    joinWith ['\n'] (((splitAt '\n' comment).map cleanLine).filter (· ≠ [])) := by
  obtain ⟨last, before, hsplit⟩ := List.exists_cons_of_ne_nil
    (List.reverse_ne_nil_iff.mpr (splitAt_ne_nil '\n' comment))
  have hpieces : splitAt '\n' comment = before.reverse ++ [last] := by
    rw [← List.reverse_reverse (splitAt '\n' comment), hsplit, List.reverse_cons]
  have hended : (before.reverse.map fun line =>
      if line.getLast? = some '\r' then line.dropLast else line).map cleanLine =
        before.reverse.map cleanLine := by
    rw [List.map_map]
    refine List.map_congr_left fun line _ => ?_
    rw [Function.comp_apply]
    split
    · next hreturn => exact cleanLine_return hreturn
    · rfl
  have hnil : cleanLine [] = [] := by decide
  rw [cleanComment, linesOf, hsplit, hpieces]
  dsimp only
  split
  · next hlast =>
      rw [hended, List.map_append, List.map_singleton, hlast, hnil, List.filter_append,
        List.filter_cons_of_neg (by decide), List.filter_nil, List.append_nil]
  · rw [List.map_append, hended, List.map_append]

end Lines

section Stars

variable {text line rest : List Char}

/-- Stars that have blanks between them are on one of the lines. -/
theorem starsApart_append (line rest : List Char) :
    StarsApart (line ++ '\n' :: rest) ↔ StarsApart line ∨ StarsApart rest := by
  constructor
  · rintro ⟨gap, hne, hgap, hinfix⟩
    have hfeed : '\n' ∉ '*' :: gap ++ ['*'] := by simp [hgap.not_mem]
    rcases List.infix_append_iff.mp hinfix with hfront | hback | ⟨front, back, hboth, hfront, hback⟩
    · exact .inl ⟨gap, hne, hgap, hfront⟩
    · rcases List.infix_cons_iff.mp hback with hstart | hrest
      · exact absurd (List.cons_prefix_cons.mp hstart).1 (by decide)
      · exact .inr ⟨gap, hne, hgap, hrest⟩
    · cases back with
      | nil =>
          rw [List.append_nil] at hboth
          exact .inl ⟨gap, hne, hgap, hboth ▸ hfront.isInfix⟩
      | cons c more =>
          have hc := (List.cons_prefix_cons.mp hback).1
          refine absurd ?_ hfeed
          rw [hboth, hc]
          exact List.mem_append_right _ List.mem_cons_self
  · rintro (⟨gap, hne, hgap, hinfix⟩ | ⟨gap, hne, hgap, hinfix⟩)
    · exact ⟨gap, hne, hgap, hinfix.trans (List.prefix_append _ _).isInfix⟩
    · have hsuffix : rest <:+ line ++ '\n' :: rest :=
        (List.suffix_cons _ _).trans (List.suffix_append _ _)
      exact ⟨gap, hne, hgap, hinfix.trans hsuffix.isInfix⟩

theorem behindStars_of_start {more : List Char} (h : trimStart isBlank line = '*' :: more) :
    behindStars line = trimStart (· == '*') more := by
  rw [behindStars, h]
  exact List.dropWhile_cons_of_pos rfl

theorem mem_of_mem_behindStars {c : Char} (h : c ∈ behindStars line) : c ∈ line :=
  (List.dropWhile_suffix isBlank).mem ((List.dropWhile_suffix (· == '*')).mem h)

/-- Of some stars at the start of a text the last one stands in front of the rest. -/
theorem exists_trimStart_star (rest : List Char) :
    ∃ front, '*' :: rest = front ++ '*' :: trimStart (· == '*') rest := by
  induction rest with
  | nil => exact ⟨[], rfl⟩
  | cons c more ih =>
      by_cases hc : c = '*'
      · subst hc
        obtain ⟨front, hmore⟩ := ih
        have hsame : trimStart (· == '*') ('*' :: more) = trimStart (· == '*') more :=
          List.dropWhile_cons_of_pos rfl
        exact ⟨'*' :: front, by rw [hsame, List.cons_append, ← hmore]⟩
      · refine ⟨[], ?_⟩
        rw [trimStart, List.dropWhile_cons_of_neg (by simp [hc])]
        rfl

/-- What stands behind the first stars of a line has a star in front of it. -/
theorem exists_behindStars (hbare : IsBare line) (h : behindStars line ≠ []) :
    ∃ front, line = front ++ '*' :: behindStars line := by
  have hline : line = line.takeWhile isBlank ++ trimStart isBlank line :=
    List.takeWhile_append_dropWhile.symm
  cases hstart : trimStart isBlank line with
  | nil =>
      rw [behindStars, hstart] at h
      exact absurd rfl h
  | cons c more =>
      rw [hstart] at hline
      have hc : c = '*' := by
        have hmem : c ∈ line := by
          rw [hline]
          exact List.mem_append_right _ List.mem_cons_self
        refine (hbare c hmem).resolve_right ?_
        rw [first_trimStart isBlank line c (by rw [hstart]; rfl)]
        exact Bool.false_ne_true
      subst hc
      obtain ⟨front, hfront⟩ := exists_trimStart_star more
      refine ⟨line.takeWhile isBlank ++ front, ?_⟩
      rw [behindStars_of_start hstart, List.append_assoc, ← hfront]
      exact hline

/-- Stars stand apart on a line if one of them is not among the first ones. -/
theorem star_mem_behindStars_iff (hfeed : '\n' ∉ line) (hbare : IsBare line) :
    '*' ∈ behindStars line ↔ StarsApart line := by
  constructor
  · intro hstar
    obtain ⟨gap, after, hbehind, hnot⟩ := List.eq_append_cons_of_mem hstar
    obtain ⟨front, hline⟩ := exists_behindStars hbare (List.ne_nil_of_mem hstar)
    rw [hbehind] at hline
    refine ⟨gap, ?_, ?_, front, after, ?_⟩
    · rintro rfl
      have hfirst := first_trimStart (· == '*') (trimStart isBlank line)
      rw [← behindStars, hbehind] at hfirst
      exact absurd (hfirst '*' rfl) (by decide)
    · intro c hc
      have hmem : c ∈ line := by
        rw [hline]
        simp [hc]
      constructor
      · refine (hbare c hmem).resolve_left ?_
        rintro rfl
        exact hnot hc
      · rintro rfl
        exact hfeed hmem
    · rw [hline]
      simp
  · rintro ⟨gap, hne, hgap, front, after, rfl⟩
    have hcut : front ++ ('*' :: gap ++ ['*']) ++ after =
        (front ++ ['*']) ++ (gap ++ '*' :: after) := by simp
    have hstart : trimStart isBlank (front ++ ('*' :: gap ++ ['*']) ++ after) =
        trimStart isBlank (front ++ ['*']) ++ (gap ++ '*' :: after) := by
      rw [hcut]
      exact trimStart_append_of_exists ⟨'*', by simp, by decide⟩ _
    obtain ⟨c, hc⟩ := List.exists_mem_of_ne_nil gap hne
    have hother : (c == '*') = false := by
      rw [beq_eq_false_iff_ne]
      rintro rfl
      exact absurd (hgap _ hc).1 (by decide)
    rw [behindStars, hstart, ← List.append_assoc,
      trimStart_append_of_exists ⟨c, List.mem_append_right _ hc, hother⟩]
    exact List.mem_append_right _ List.mem_cons_self

/-- Stars stand apart in a text if they do on one of its lines. -/
theorem starsApart_iff {text : List Char} (hbare : IsBare text) :
    StarsApart text ↔ ∃ line ∈ splitAt '\n' text, '*' ∈ behindStars line := by
  induction text using lineInduction with
  | single text hfeed =>
      rw [splitAt_of_not_mem hfeed, ← star_mem_behindStars_iff hfeed hbare]
      simp
  | append line rest hfeed ih =>
      obtain ⟨hline, hrest⟩ := hbare.of_append
      rw [splitAt_line hfeed, List.exists_mem_cons_iff, star_mem_behindStars_iff hfeed hline,
        starsApart_append, ih hrest]

end Stars

section Clean

variable {text line lead close inner core : List Char}

/-- The marks that a line can have around its text are taken away. -/
theorem trimMarks (hlead : lead = [] ∨ lead = docOpening) (hclose : close = [] ∨ close = ['*', '/'])
    (hinner : '/' ∉ inner) :
    trimBacks ['*', '/'] (trimFronts docOpening (lead ++ inner ++ close)) = inner := by
  have hfront : ¬docOpening <+: inner ++ close := by
    intro hprefix
    cases inner with
    | nil => rcases hclose with rfl | rfl <;> exact absurd hprefix (by decide)
    | cons c more => exact hinner (List.mem_cons.mpr (.inl (List.cons_prefix_cons.mp hprefix).1))
  have hback : ¬['*', '/'] <:+ inner :=
    fun hsuffix => hinner (hsuffix.subset (by simp))
  have hopened : trimFronts docOpening (lead ++ inner ++ close) = inner ++ close := by
    rcases hlead with rfl | rfl
    · exact trimFronts_of_not_prefix hfront
    · rw [List.append_assoc]
      exact trimFronts_append (List.cons_ne_nil _ _) hfront
  rw [hopened]
  rcases hclose with rfl | rfl
  · rw [List.append_nil]
    exact trimBacks_of_not_suffix hback
  · exact trimBacks_append (List.cons_ne_nil _ _) hback

/-- A star behind the opening mark of a comment makes it that of documentation. -/
theorem trimStart_trimMarks (hlead : lead = [] ∨ lead = ['/', '*'] ∧ ['*'] <+: core)
    (hclose : close = [] ∨ close = ['*', '/']) (hcore : '/' ∉ core) :
    trimStart (· == '*') (trimBacks ['*', '/'] (trimFronts docOpening (lead ++ core ++ close))) =
      trimStart (· == '*') core := by
  rcases hlead with rfl | ⟨rfl, inner, rfl⟩
  · rw [trimMarks (.inl rfl) hclose hcore]
  · have hmarked : ['/', '*'] ++ (['*'] ++ inner) ++ close = docOpening ++ inner ++ close := rfl
    have hinner : '/' ∉ inner := fun hmem => hcore (List.mem_append_right _ hmem)
    rw [hmarked, trimMarks (.inr rfl) hclose hinner]
    exact (List.dropWhile_cons_of_pos rfl).symm

/-- What is trimmed of a line between the marks is blank and stands at its ends. -/
theorem trim_marked (hlead : lead = [] ∨ lead = ['/', '*'] ∧ ['*'] <+: line)
    (hclose : close = [] ∨ close = ['*', '/']) :
    ∃ core behind, trimStart isBlank line = core ++ behind ∧ (∀ c ∈ behind, isBlank c = true) ∧
      trim isBlank (lead ++ line ++ close) = lead ++ core ++ close := by
  have hstart : trimStart isBlank (lead ++ line ++ close) =
      lead ++ trimStart isBlank line ++ close := by
    rcases hlead with rfl | ⟨rfl, more, rfl⟩
    · refine trimStart_append_of_first ?_ line
      rcases hclose with rfl | rfl <;> simp [isBlank]
    · rw [trimStart_eq_self (by simp [isBlank]), trimStart_eq_self (by simp [isBlank])]
  have hlast : ∀ c ∈ lead.getLast?, isBlank c = false := by
    rcases hlead with rfl | ⟨rfl, -⟩ <;> simp [isBlank]
  rw [trim, hstart]
  rcases hclose with rfl | rfl
  · obtain ⟨behind, hbehind, hblank⟩ := exists_trimEnd isBlank (trimStart isBlank line)
    refine ⟨trimEnd isBlank (trimStart isBlank line), behind, hbehind, hblank, ?_⟩
    rw [List.append_nil, List.append_nil, trimEnd_append_of_last hlast]
  · refine ⟨trimStart isBlank line, [], (List.append_nil _).symm, List.forall_mem_nil _, ?_⟩
    refine trimEnd_eq_self fun c hc => ?_
    rw [List.getLast?_append_of_ne_nil _ (List.cons_ne_nil _ _)] at hc
    exact Option.some.inj hc ▸ by decide

/-- A line of stars and blanks loses its first stars, whatever marks it has. -/
theorem cleanLine_marked (hlead : lead = [] ∨ lead = ['/', '*'] ∧ ['*'] <+: line)
    (hclose : close = [] ∨ close = ['*', '/']) (hbare : IsBare line) :
    cleanLine (lead ++ line ++ close) = trim isBlank (behindStars line) := by
  obtain ⟨core, behind, hcore, hbehind, htrim⟩ := trim_marked hlead hclose
  have hslash : '/' ∉ core := by
    intro hmem
    have hline : '/' ∈ line := by
      refine (List.dropWhile_suffix isBlank).mem ?_
      rw [← trimStart, hcore]
      exact List.mem_append_left _ hmem
    rcases hbare _ hline with hstar | hblank
    · exact absurd hstar (by decide)
    · exact absurd hblank (by decide)
  have hstarred : lead = [] ∨ lead = ['/', '*'] ∧ ['*'] <+: core := by
    refine hlead.imp_right (And.imp_right ?_)
    rintro ⟨more, rfl⟩
    rw [trimStart_eq_self (by simp [isBlank])] at hcore
    cases core with
    | nil =>
        rw [List.nil_append] at hcore
        have hmem : '*' ∈ behind := hcore ▸ List.mem_cons_self
        exact absurd (hbehind _ hmem) (by decide)
    | cons c inner =>
        exact List.cons_prefix_cons.mpr ⟨(List.cons.inj hcore).1, List.nil_prefix⟩
  have hinner := trimStart_trimMarks hstarred hclose hslash
  have hrest : behindStars line = trimStart (· == '*') core ++ behind := by
    rw [behindStars, hcore]
    refine trimStart_append_of_first (fun c hc => ?_) core
    rw [beq_eq_false_iff_ne]
    rintro rfl
    exact absurd (hbehind _ (List.mem_of_mem_head? hc)) (by decide)
  have hkept : trim isBlank ([] ++ trimStart (· == '*') core ++ behind) =
      trim isBlank (trimStart (· == '*') core) :=
    trim_append_of_all _ (List.forall_mem_nil _) hbehind
  rw [cleanLine, htrim, hrest]
  exact (congrArg (trim isBlank) hinner).trans hkept.symm

/-- A comment of stars and blanks is cleaned line by line. -/
theorem map_cleanLine (hlead : lead = [] ∨ lead = ['/', '*'] ∧ ['*'] <+: text)
    (hbare : IsBare text) : (splitAt '\n' (lead ++ text ++ ['*', '/'])).map cleanLine =
      (splitAt '\n' text).map fun line => trim isBlank (behindStars line) := by
  have hmark : '\n' ∉ lead := by
    rcases hlead with rfl | ⟨rfl, -⟩ <;> decide
  induction text using lineInduction generalizing lead with
  | single text hfeed =>
      have hwhole : '\n' ∉ lead ++ text ++ ['*', '/'] := by simp [hmark, hfeed]
      rw [splitAt_of_not_mem hwhole, splitAt_of_not_mem hfeed, List.map_singleton,
        List.map_singleton, cleanLine_marked hlead (.inr rfl) hbare]
  | append line rest hfeed ih =>
      obtain ⟨hline, hrest⟩ := hbare.of_append
      have hfirst : lead = [] ∨ lead = ['/', '*'] ∧ ['*'] <+: line := by
        refine hlead.imp_right (And.imp_right fun hprefix => ?_)
        cases line with
        | nil => exact absurd (List.cons_prefix_cons.mp hprefix).1 (by decide)
        | cons c more =>
            exact List.cons_prefix_cons.mpr
              ⟨(List.cons_prefix_cons.mp hprefix).1, List.nil_prefix⟩
      have hcut : lead ++ (line ++ '\n' :: rest) ++ ['*', '/'] =
          (lead ++ line) ++ '\n' :: ([] ++ rest ++ ['*', '/']) := by simp
      have hopened : '\n' ∉ lead ++ line := by simp [hmark, hfeed]
      have hcleaned := cleanLine_marked hfirst (.inl rfl) hline
      rw [List.append_nil] at hcleaned
      rw [hcut, splitAt_line hopened, splitAt_line hfeed, List.map_cons, List.map_cons, hcleaned,
        ih (.inl rfl) hrest List.not_mem_nil]

end Clean

section Comment

variable {body : List Char}

/-- The text of a comment of stars and blanks: the lines behind their first stars. -/
theorem cleanComment_blockComment (hbare : IsBare body) (hstar : ['*'] <+: body) :
    cleanComment (blockComment body) = joinWith ['\n']
      (((splitAt '\n' body).map fun line => trim isBlank (behindStars line)).filter (· ≠ [])) := by
  rw [cleanComment_eq, blockComment, map_cleanLine (.inr ⟨rfl, hstar⟩) hbare]

theorem cleanComment_eq_nil_iff (hbare : IsBare body) (hstar : ['*'] <+: body) :
    cleanComment (blockComment body) = [] ↔ ¬StarsApart body := by
  rw [cleanComment_blockComment hbare hstar, joinWith_eq_nil_iff (by simp), starsApart_iff hbare,
    List.filter_eq_nil_iff, List.forall_mem_map]
  constructor
  · rintro hempty ⟨line, hline, hmem⟩
    have hnil : trim isBlank (behindStars line) = [] := by simpa using hempty line hline
    exact absurd (trim_eq_nil_iff.mp hnil _ hmem) (by decide)
  · intro hnone line hline
    have hblank : ∀ c ∈ behindStars line, isBlank c = true := by
      intro c hc
      refine (hbare.of_mem_splitAt hline c (mem_of_mem_behindStars hc)).resolve_left ?_
      rintro rfl
      exact hnone ⟨line, hline, hc⟩
    simp [trim_eq_nil_iff.mpr hblank]

/-- Nothing but stars and blanks is left of a comment of stars and blanks. -/
theorem isBare_cleanComment (hbare : IsBare body) (hstar : ['*'] <+: body) :
    IsBare (cleanComment (blockComment body)) := by
  intro c hc
  rw [cleanComment_blockComment hbare hstar] at hc
  rcases mem_joinWith hc with hfeed | ⟨piece, hpiece, hmem⟩
  · rw [List.mem_singleton.mp hfeed]
    exact .inr (by decide)
  · obtain ⟨line, hline, rfl⟩ := List.mem_map.mp (List.mem_of_mem_filter hpiece)
    exact hbare.of_mem_splitAt hline c (mem_of_mem_behindStars (mem_of_mem_trim hmem))

/-- The opening and the closing mark alone leave a slash behind. -/
theorem documentation?_blockComment_nil : documentation? (blockComment []) = some "/" := by
  decide

theorem documentation?_blockComment_plain (hne : body ≠ []) (hstar : ¬['*'] <+: body) :
    documentation? (blockComment body) = none := by
  obtain ⟨c, more, rfl⟩ := List.exists_cons_of_ne_nil hne
  have hopening : ¬docOpening <+: blockComment (c :: more) := by
    intro hprefix
    refine hstar (List.cons_prefix_cons.mpr ⟨?_, List.nil_prefix⟩)
    exact (List.cons_prefix_cons.mp
      (List.cons_prefix_cons.mp (List.cons_prefix_cons.mp hprefix).2).2).1
  rw [documentation?, if_neg (List.isPrefixOf_iff_prefix.not.mpr hopening)]

theorem documentation?_blockComment_starred (hstar : ['*'] <+: body) :
    documentation? (blockComment body) =
      if cleanComment (blockComment body) = [] then none
      else some (String.ofList (cleanComment (blockComment body))) := by
  obtain ⟨more, rfl⟩ := hstar
  exact if_pos rfl

end Comment

/-- A comment of stars and blanks documents nothing if and only if something stands between its
marks and, where it is of the documentation form, no stars stand apart. What it documents otherwise
is a slash if nothing stands between the marks, and a text of stars and blanks if something does. -/
theorem Node.documentation?_blankComment {source body : List Char} {comment : Node}
    (hkind : comment.is .comment = true) (htext : comment.text source = blockComment body)
    (hbare : IsBare body) :
    (Node.documentation? source (some comment) = none ↔
      body ≠ [] ∧ (['*'] <+: body → ¬StarsApart body)) ∧
    ∀ text, Node.documentation? source (some comment) = some text →
      (body = [] ∧ text = "/") ∨ (body ≠ [] ∧ IsBare text.toList) := by
  have hdoc : Node.documentation? source (some comment) =
      Script.documentation? (blockComment body) := by
    rw [Node.documentation?, Option.filter_some, if_pos hkind, Option.bind_some, htext]
  rw [hdoc]
  by_cases hne : body = []
  · subst hne
    rw [documentation?_blockComment_nil]
    simp [eq_comm]
  by_cases hstar : ['*'] <+: body
  · rw [documentation?_blockComment_starred hstar]
    constructor
    · rw [← cleanComment_eq_nil_iff hbare hstar]
      simp [hne, hstar]
    · intro text htext
      split at htext
      · cases htext
      · obtain rfl := Option.some.inj htext
        rw [String.toList_ofList]
        exact .inr ⟨hne, isBare_cleanComment hbare hstar⟩
  · rw [documentation?_blockComment_plain hne hstar]
    simp [hne, hstar]

/-- Stars over three lines document nothing, but the marks alone do not. -/
theorem Node.documentation?_blankComment_lines :
    Node.documentation? ['/', '*', '*', '\r', '\n', '\t', '*', '*', ' ', '\n', '*', '/']
      (some (.mk .comment ⟨0, 12⟩ [])) = none ∧
    Node.documentation? ['/', '*', '*', '/'] (some (.mk .comment ⟨0, 4⟩ [])) ≠ none := by
  have hbare : IsBare ['*', '\r', '\n', '\t', '*', '*', ' ', '\n'] := by
    simp [IsBare, isBlank]
  have hline : ¬StarsApart ['*', '\r', '\n', '\t', '*', '*', ' ', '\n'] :=
    (starsApart_iff hbare).not.mpr (by decide)
  constructor
  · exact (Node.documentation?_blankComment rfl (by decide) hbare).1.mpr
      ⟨List.cons_ne_nil _ _, fun _ => hline⟩
  · intro hnone
    have hempty : IsBare [] := List.forall_mem_nil _
    exact ((Node.documentation?_blankComment rfl (by decide) hempty).1.mp hnone).1 rfl

end Script

end ComponentAtlas
