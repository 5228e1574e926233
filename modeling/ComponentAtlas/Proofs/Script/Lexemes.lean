import ComponentAtlas.Proofs.Text.Cursors
import ComponentAtlas.Script.Grammar

/-!
# Lexemes as fronts of a text

Whatever a reader of lexemes gives is a front of the text that it reads, and so is what is passed
over around the name of a member.
-/

namespace ComponentAtlas.Script

open ComponentAtlas.Text

section Fronts

variable {text rest run more : List Char} {c : Char}

theorem cons_front (h : run <+: rest) : c :: run <+: c :: rest :=
  (List.prefix_cons_inj c).mpr h

theorem append_front (h : run <+: text) (hmore : more <+: text.drop run.length) :
    run ++ more <+: text := by
  obtain ⟨back, rfl⟩ := h
  rw [List.drop_left] at hmore
  exact (List.prefix_append_right_inj run).mpr hmore

/-- One character in front of what a reader gives. -/
theorem map_cons_front {read : Option (List Char)} (h : read.map (c :: ·) = some run)
    (hread : ∀ found, read = some found → found <+: rest) : run <+: c :: rest := by
  obtain ⟨found, hfound, rfl⟩ := Option.map_eq_some_iff.mp h
  exact cons_front (hread found hfound)

theorem filter_take_front (p : Char → Bool) (text : List Char) :
    (text.take 1).filter p <+: text := by
  cases text with
  | nil => exact List.nil_prefix
  | cons c rest =>
      cases hp : p c
      · simp [hp]
      · simp [hp]

end Fronts

section Words

variable {text run : List Char}

theorem nameRun_front (held : Nat) (text : List Char) : nameRun held text <+: text := by
  induction text generalizing held with
  | nil => cases held <;> exact List.nil_prefix
  | cons c rest ih =>
      cases held with
      | succ held => exact cons_front (ih held)
      | zero =>
          rw [nameRun]
          split
          · split
            · exact cons_front (ih _)
            · exact List.nil_prefix
          · split
            · exact cons_front (ih 0)
            · exact List.nil_prefix

theorem word?_front (h : word? text = some run) : run <+: text := by
  rw [word?] at h
  split at h
  · cases h
  · obtain rfl := Option.some.inj h
    exact nameRun_front 0 text

theorem privateName?_front (h : privateName? text = some run) : run <+: text := by
  rw [privateName?.eq_def] at h
  split at h
  · exact map_cons_front h fun _ => word?_front
  · cases h

theorem stringRun?_front {quote : Char} {held : Nat} (h : stringRun? quote held text = some run) :
    run <+: text := by
  induction text generalizing held run with
  | nil => cases held <;> cases h
  | cons c rest ih =>
      cases held with
      | succ held => exact map_cons_front h fun _ => ih
      | zero =>
          rw [stringRun?] at h
          split at h
          · obtain rfl := Option.some.inj h
            exact cons_front List.nil_prefix
          · split at h
            · split at h
              · exact map_cons_front h fun _ => ih
              · cases h
            · split at h
              · cases h
              · exact map_cons_front h fun _ => ih

theorem string?_front (h : string? text = some run) : run <+: text := by
  cases text with
  | nil => cases h
  | cons c rest =>
      rw [string?] at h
      split at h
      · exact map_cons_front h fun _ => stringRun?_front
      · cases h

theorem templateRun_front (held : Nat) (text : List Char) : templateRun held text <+: text := by
  induction text generalizing held with
  | nil => cases held <;> exact List.nil_prefix
  | cons c rest ih =>
      cases held with
      | succ held => exact cons_front (ih held)
      | zero =>
          rw [templateRun]
          split
          · exact List.nil_prefix
          · split
            · exact List.nil_prefix
            · split
              · split
                · exact cons_front (ih _)
                · exact List.nil_prefix
              · exact cons_front (ih 0)

theorem templateText?_front (h : templateText? text = some run) : run <+: text := by
  rw [templateText?] at h
  split at h
  · cases h
  · obtain rfl := Option.some.inj h
    exact templateRun_front 0 text

theorem patternRun?_front {place : PatternPlace} (h : patternRun? place text = some run) :
    run <+: text := by
  induction text generalizing place run with
  | nil => cases place <;> cases h
  | cons c rest ih =>
      rw [patternRun?.eq_def] at h
      simp only at h
      split at h
      · cases h
      · split at h
        · exact map_cons_front h fun _ => ih
        · exact map_cons_front h fun _ => ih
        · exact map_cons_front h fun _ => ih
        · split at h
          · obtain rfl := Option.some.inj h
            exact cons_front List.nil_prefix
          · exact map_cons_front h fun _ => ih

theorem pattern?_front (h : pattern? text = some run) : run <+: text := by
  rw [pattern?.eq_def] at h
  split at h
  · split at h
    · cases h
    · next body hbody =>
      split at h
      · cases h
      · obtain rfl := Option.some.inj h
        exact cons_front (append_front (patternRun?_front hbody) (List.takeWhile_prefix _))
  · cases h

end Words

section Numbers

variable {text run : List Char}

theorem digitRun_front (p : Char → Bool) (text : List Char) : digitRun p text <+: text := by
  induction text with
  | nil => exact List.nil_prefix
  | cons c rest ih =>
      rw [digitRun.eq_def]
      simp only
      split
      · exact cons_front ih
      · split
        · split
          · split
            · exact cons_front ih
            · exact List.nil_prefix
          · exact List.nil_prefix
        · exact List.nil_prefix

theorem digits_front (p : Char → Bool) (text : List Char) : digits p text <+: text := by
  rw [digits]
  split
  · exact digitRun_front p text
  · exact List.nil_prefix

theorem exponent_front (text : List Char) : exponent text <+: text := by
  rw [exponent.eq_def]
  split
  · next e rest =>
    split
    · simp only
      split
      · exact List.nil_prefix
      · exact cons_front (append_front (filter_take_front _ rest) (digits_front _ _))
    · exact List.nil_prefix
  · exact List.nil_prefix

theorem bigMark_front (text : List Char) : bigMark text <+: text :=
  filter_take_front _ text

theorem decimal?_front (h : decimal? text = some run) : run <+: text := by
  have hwhole := digits_front Char.isDigit text
  rw [decimal?] at h
  generalize digits Char.isDigit text = whole at h hwhole
  simp only at h
  split at h
  · next rest hrest =>
    have hfraction := digits_front Char.isDigit rest
    generalize digits Char.isDigit rest = fraction at h hfraction
    have hfront : whole ++ '.' :: fraction <+: text :=
      append_front hwhole (hrest ▸ cons_front hfraction)
    have hrest' : text.drop (whole ++ '.' :: fraction).length = rest.drop fraction.length := by
      rw [List.length_append, ← List.drop_drop, hrest, List.length_cons, List.drop_succ_cons]
    split at h
    · cases h
    · obtain rfl := Option.some.inj h
      exact append_front hfront (hrest' ▸ exponent_front _)
  · split at h
    · cases h
    · obtain rfl := Option.some.inj h
      refine append_front hwhole ?_
      split
      · exact bigMark_front _
      · exact exponent_front _

theorem number?_front (h : number? text = some run) : run <+: text := by
  rw [number?] at h
  split at h
  · obtain rfl := Option.some.inj h
    exact append_front (List.take_prefix _ text) (bigMark_front _)
  · exact decimal?_front h

end Numbers

section Signs

variable {text run : List Char}

theorem sign?_front (h : sign? text = some run) : run <+: text := by
  rw [sign?.eq_def] at h
  split at h
  · next s hs =>
    obtain rfl := Option.some.inj h
    have hfits := List.find?_some hs
    rw [signFits, Bool.and_eq_true] at hfits
    exact List.isPrefixOf_iff_prefix.mp hfits.1
  · split at h
    · split at h
      · obtain rfl := Option.some.inj h
        exact cons_front List.nil_prefix
      · cases h
    · cases h

theorem tagText?_front (h : tagText? text = some run) : run <+: text := by
  rw [tagText?] at h
  split at h
  · cases h
  · obtain rfl := Option.some.inj h
    exact List.takeWhile_prefix _

theorem tagName?_front (h : tagName? text = some run) : run <+: text := by
  rw [tagName?] at h
  split at h
  · cases h
  · obtain rfl := Option.some.inj h
    exact List.takeWhile_prefix _

theorem tagValue?_front (h : tagValue? text = some run) : run <+: text := by
  cases text with
  | nil => cases h
  | cons c rest =>
      rw [tagValue?] at h
      split at h
      · simp only at h
        split at h
        · cases h
        · next hopen =>
          obtain rfl := Option.some.inj h
          -- Behind the run stands the character that ended it, which is the quote.
          have hbehind : rest.drop (rest.takeWhile (· != c)).length = rest.dropWhile (· != c) :=
            rest_skip ⟨rest, 0⟩ (· != c)
          have hquote := List.head?_dropWhile_not (· != c) rest
          refine cons_front (append_front (List.takeWhile_prefix _) ?_)
          rw [hbehind] at hopen ⊢
          cases hback : rest.dropWhile (· != c) with
          | nil => exact absurd (by rw [hback]; rfl) hopen
          | cons d back =>
              rw [hback] at hquote
              obtain rfl : d = c := by simpa using hquote
              exact cons_front List.nil_prefix
      · cases h

end Signs

section Pieces

variable {text run : List Char} {p : Piece}

/-- A piece is cut out of a text that starts at an offset. -/
def Piece.In (p : Piece) (offset : Nat) (text : List Char) : Prop :=
  ∃ front back, text = front ++ p.text ++ back ∧ p.start = offset + byteSize front

theorem Piece.lexeme?_front (h : Piece.lexeme? text = some run) : run <+: text := by
  simp only [Piece.lexeme?, Option.orElse_eq_orElse, Option.orElse_eq_or, Option.or_eq_some_iff]
    at h
  obtain h | ⟨-, h | ⟨-, h | ⟨-, h | ⟨-, h⟩⟩⟩⟩ := h
  · exact word?_front h
  · exact privateName?_front h
  · exact string?_front h
  · exact number?_front h
  · exact sign?_front h

theorem Piece.in_listFrom {fuel offset : Nat} (h : p ∈ Piece.listFrom fuel offset text) :
    p.In offset text := by
  induction fuel generalizing offset text with
  | zero => cases h
  | succ fuel ih =>
      rw [Piece.listFrom] at h
      have hgap : text = text.takeWhile isGapChar ++
          text.drop (text.takeWhile isGapChar).length := by
        obtain ⟨back, hback⟩ := List.takeWhile_prefix isGapChar (l := text)
        generalize text.takeWhile isGapChar = gap at hback ⊢
        rw [← hback, List.drop_left]
      generalize text.takeWhile isGapChar = gap at h hgap
      simp only at h
      split at h
      · cases h
      · next run hrun =>
        obtain ⟨back, hback⟩ := Piece.lexeme?_front hrun
        have hself : Piece.In ⟨run, offset + byteSize gap, offset + byteSize gap + byteSize run,
            gap.any isLineEnd⟩ offset text :=
          ⟨gap, back, by rw [hgap, ← hback]; simp, rfl⟩
        split at h
        · obtain rfl := List.mem_singleton.mp h
          exact hself
        · obtain rfl | h := List.mem_cons.mp h
          · exact hself
          · obtain ⟨front, rest, hrest, hstart⟩ := ih h
            rw [← hback, List.drop_left] at hrest
            refine ⟨gap ++ run ++ front, rest, ?_, ?_⟩
            · rw [hgap, ← hback, hrest]
              simp
            · rw [hstart]
              simp only [byteSize_append]
              omega

/-- The name that is found is that of the search or one of the pieces behind it. -/
theorem Piece.search_name (s : Piece.Search) (pieces : List Piece) :
    (Piece.search s pieces).1 = s.name ∨ (Piece.search s pieces).1 ∈ pieces := by
  induction pieces generalizing s with
  | nil => exact .inl rfl
  | cons p rest ih =>
      have hkeep : ∀ s' : Piece.Search, s'.name = s.name →
          (Piece.search s' rest).1 = s.name ∨ (Piece.search s' rest).1 ∈ p :: rest :=
        fun s' hname => (ih s').imp (·.trans hname) (List.mem_cons_of_mem p)
      rw [Piece.search]
      generalize (if s.behind = 0 then p.start else s.start) = start
      split
      · exact .inl rfl
      · split
        · exact hkeep _ rfl
        · split
          · split
            · exact .inl rfl
            · exact hkeep _ rfl
          · split
            · refine .inr ?_
              obtain h | h := ih (.ofName false p (s.passed + 1 + s.behind)
                (Piece.price (s.passed + 1 + s.behind) s.stop))
              · rw [h]
                exact List.mem_cons_self
              · exact List.mem_cons_of_mem p h
            · exact hkeep _ rfl

theorem Piece.in_nameOf? {bare ends : Bool} (h : Piece.nameOf? bare text = some (p, ends)) :
    p.In 0 text := by
  rw [Piece.nameOf?] at h
  split at h
  · next first rest hlist =>
    split at h
    · have hname := Piece.search_name (.ofName bare first 0 0) rest
      rw [Option.some.inj h] at hname
      have hmem : p ∈ Piece.list text := by
        rw [hlist]
        exact List.mem_cons.mpr hname
      exact Piece.in_listFrom hmem
    · cases h
  · cases h

theorem bareName?_front (h : bareName? text = some run) : run <+: text := by
  rw [bareName?] at h
  split at h
  · next name ends hname =>
    split at h
    · next hstart =>
      obtain rfl := Option.some.inj h
      obtain ⟨front, back, htext, hoffset⟩ := Piece.in_nameOf? hname
      have hfront : front = [] := by
        by_contra hne
        have := byteSize_pos hne
        omega
      rw [htext, hfront, List.nil_append]
      exact List.prefix_append _ _
    · cases h
  · cases h

theorem passedName?_front {bare : Bool} (h : passedName? bare text = some run) :
    run <+: text := by
  rw [passedName?] at h
  split at h
  · split at h
    · obtain rfl := Option.some.inj h
      exact takeBytes_front _ text
    · cases h
  · cases h

theorem typeMark?_front (h : typeMark? text = some run) : run <+: text := by
  rw [typeMark?] at h
  split at h
  · split at h
    · obtain rfl := Option.some.inj h
      exact takeBytes_front _ text
    · cases h
  · cases h

end Pieces

section Tokens

variable {text run : List Char}

theorem Token.staticGetter?_front (h : Token.staticGetter? text = some run) : run <+: text := by
  simp only [Token.staticGetter?, Option.bind_eq_bind] at h
  obtain ⟨afterStatic, hstatic, h⟩ := Option.bind_eq_some_iff.mp h
  split at h
  · cases h
  · obtain ⟨afterGet, hget, h⟩ := Option.bind_eq_some_iff.mp h
    split at h
    · cases h
    · obtain rfl := Option.some.inj h
      obtain ⟨blanks, hblanks, -⟩ :=
        exists_trimEnd (· != '\n') (afterGet.takeWhile isPlainBlank)
      have hkept : trimEnd (· != '\n') (afterGet.takeWhile isPlainBlank) <+: afterGet :=
        .trans ⟨blanks, hblanks.symm⟩ (List.takeWhile_prefix _)
      have hword := stripFront?_eq_some_iff.mp hget
      have hrest : "get".toList ++ trimEnd (· != '\n') (afterGet.takeWhile isPlainBlank) <+:
          afterStatic.drop (afterStatic.takeWhile isPlainBlank).length := by
        rw [hword]
        exact (List.prefix_append_right_inj _).mpr hkept
      rw [stripFront?_eq_some_iff.mp hstatic, List.append_assoc, List.append_assoc]
      exact (List.prefix_append_right_inj _).mpr
        (append_front (List.takeWhile_prefix _) hrest)

theorem Token.anything?_front {brace : Bool} (h : Token.anything? brace text = some run) :
    run <+: text := by
  rw [Token.anything?.eq_def] at h
  split at h
  · next hword =>
    obtain rfl := Option.some.inj h
    exact word?_front hword
  · next hstring =>
    obtain rfl := Option.some.inj h
    exact string?_front hstring
  · split at h
    · split at h
      · cases h
      · obtain rfl := Option.some.inj h
        exact cons_front List.nil_prefix
    · cases h

/-- Every lexeme is a front of the text that it is read from. -/
theorem Token.lexeme?_front {t : Token} (h : t.lexeme? text = some run) : run <+: text := by
  cases t with
  | word => exact word?_front h
  | privateName => exact privateName?_front h
  | number => exact number?_front h
  | string => exact string?_front h
  | pattern => exact pattern?_front h
  | templateText => exact templateText?_front h
  | tagText => exact tagText?_front h
  | tagName => exact tagName?_front h
  | tagValue => exact tagValue?_front h
  | staticGetter => exact Token.staticGetter?_front h
  | passedName bare => exact passedName?_front h
  | bareName => exact bareName?_front h
  | typeMark => exact typeMark?_front h
  | anything brace => exact Token.anything?_front h

end Tokens

end ComponentAtlas.Script
