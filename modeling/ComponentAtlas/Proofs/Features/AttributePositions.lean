import ComponentAtlas.Features.Context
import ComponentAtlas.Markup.Reader
import ComponentAtlas.Proofs.Text.Conventions
import ComponentAtlas.Proofs.Text.Positions

/-!
# Attribute positions

The context of a completion is told from the raw text in front of the cursor. Behind the open start
tag of an element with any attributes the last open brace is closed, the last open angle bracket is
that of the tag, and the number of quotes of either kind has the parity of those that stand inside
the values. So the position of an attribute is recognised, unless one kind of quote stands an odd
number of times inside values, which count as not yet closed.
-/

namespace ComponentAtlas

open ComponentAtlas.Text

/-- How the value of an attribute is written: not at all, bare, in braces, or in quotes. -/
inductive WrittenValue where
  | missing
  | bare (body : List Char)
  | braced (body : List Char)
  | quoted (quote : Char) (body : List Char)
  deriving DecidableEq, Repr

/-- An attribute of a start tag with the white space in front of it. -/
structure WrittenAttribute where
  blank : List Char
  name : List Char
  value : WrittenValue
  deriving DecidableEq, Repr

/-- A start tag that is being typed: its name, its attributes, and behind a further white space the
part of an attribute name that is there already. -/
structure OpenTag where
  name : List Char
  attributes : List WrittenAttribute
  blank : List Char
  typed : List Char
  deriving DecidableEq, Repr

/-- Characters that neither open nor close a tag or an expression. -/
def isPlainChar (c : Char) : Bool :=
  c != '<' && c != '>' && c != '\x7b' && c != '\x7d'

/-- The two characters that quote values. -/
def isQuote (c : Char) : Bool :=
  c == '"' || c == Char.ofNat 0x27

/-- White space, of which there is some. -/
structure IsGap (text : List Char) : Prop where
  ne_nil : text ≠ []
  blank : ∀ c ∈ text, isBlank c = true

/-- A name of an attribute, or a part of it, without braces. -/
def IsAttributeName (text : List Char) : Prop :=
  ∀ c ∈ text, Markup.isAttributeChar c = true ∧ isPlainChar c = true

namespace WrittenValue

/-- The source of a value. -/
def text : WrittenValue → List Char
  | .missing => []
  | .bare body => '=' :: body
  | .braced body => '=' :: '\x7b' :: (body ++ ['\x7d'])
  | .quoted quote body => '=' :: quote :: (body ++ [quote])

/-- What stands between the quotes or braces. -/
def body : WrittenValue → List Char
  | .missing => []
  | .bare body => body
  | .braced body => body
  | .quoted _ body => body

/-- A value as markup allows it, without braces or angle brackets inside. -/
def Legal : WrittenValue → Prop
  | .missing => True
  | .bare body => ∀ c ∈ body, Markup.isValueChar c = true ∧ isPlainChar c = true
  | .braced body => ∀ c ∈ body, isPlainChar c = true
  | .quoted quote body =>
      isQuote quote = true ∧ ∀ c ∈ body, c ≠ quote ∧ isPlainChar c = true

end WrittenValue

namespace WrittenAttribute

/-- The source of an attribute. -/
def text (a : WrittenAttribute) : List Char :=
  a.blank ++ (a.name ++ a.value.text)

/-- An attribute as markup allows it. -/
structure Legal (a : WrittenAttribute) : Prop where
  blank : IsGap a.blank
  name : IsAttributeName a.name
  value : a.value.Legal

end WrittenAttribute

namespace OpenTag

/-- The source of a start tag behind its bracket. -/
def text (t : OpenTag) : List Char :=
  t.name ++ (t.attributes.flatMap WrittenAttribute.text ++ (t.blank ++ t.typed))

/-- What stands between the quotes or braces of the values. -/
def bodies (t : OpenTag) : List Char :=
  t.attributes.flatMap fun a => a.value.body

/-- A start tag as markup allows it. -/
structure Legal (t : OpenTag) : Prop where
  name_ne : t.name ≠ []
  name : ∀ c ∈ t.name, Markup.TagName.isNameChar c = true
  attributes : ∀ a ∈ t.attributes, a.Legal
  blank : IsGap t.blank
  typed : IsAttributeName t.typed

end OpenTag

section Decide

instance (text : List Char) : Decidable (IsGap text) :=
  have : Decidable (∀ c ∈ text, isBlank c = true) := List.decidableBAll _ text
  decidable_of_iff (text ≠ [] ∧ ∀ c ∈ text, isBlank c = true)
    ⟨fun h => ⟨h.1, h.2⟩, fun h => ⟨h.ne_nil, h.blank⟩⟩

instance (text : List Char) : Decidable (IsAttributeName text) :=
  List.decidableBAll _ text

instance (v : WrittenValue) : Decidable v.Legal :=
  match v with
  | .missing => .isTrue trivial
  | .bare body => List.decidableBAll _ body
  | .braced body => List.decidableBAll _ body
  | .quoted quote body =>
      have : Decidable (∀ c ∈ body, c ≠ quote ∧ isPlainChar c = true) := List.decidableBAll _ body
      inferInstanceAs (Decidable (isQuote quote = true ∧ ∀ c ∈ body, c ≠ quote ∧ _))

instance (a : WrittenAttribute) : Decidable a.Legal :=
  decidable_of_iff (IsGap a.blank ∧ IsAttributeName a.name ∧ a.value.Legal)
    ⟨fun h => ⟨h.1, h.2.1, h.2.2⟩, fun h => ⟨h.blank, h.name, h.value⟩⟩

instance (t : OpenTag) : Decidable t.Legal :=
  have : Decidable (∀ c ∈ t.name, Markup.TagName.isNameChar c = true) :=
    List.decidableBAll _ t.name
  decidable_of_iff (t.name ≠ [] ∧ (∀ c ∈ t.name, Markup.TagName.isNameChar c = true) ∧
      (∀ a ∈ t.attributes, a.Legal) ∧ IsGap t.blank ∧ IsAttributeName t.typed)
    ⟨fun h => ⟨h.1, h.2.1, h.2.2.1, h.2.2.2.1, h.2.2.2.2⟩,
      fun h => ⟨h.name_ne, h.name, h.attributes, h.blank, h.typed⟩⟩

end Decide

section Characters

variable {c : Char}

theorem eq_of_isQuote (h : isQuote c = true) : c = '"' ∨ c = Char.ofNat 0x27 := by
  simpa [isQuote] using h

theorem isPlainChar_of_isQuote (h : isQuote c = true) : isPlainChar c = true := by
  obtain rfl | rfl := eq_of_isQuote h <;> decide

/-- White space is none of the characters that contexts are told from. -/
theorem marks_of_isBlank (h : isBlank c = true) : isPlainChar c = true ∧ isQuote c = false := by
  have hall : ∀ d ∈ ['<', '>', '\x7b', '\x7d', '"', Char.ofNat 0x27], isBlank d = false := by
    simp [isBlank]
  have hnone : c ∉ ['<', '>', '\x7b', '\x7d', '"', Char.ofNat 0x27] :=
    fun hmem => Bool.false_ne_true ((hall c hmem).symm.trans h)
  simpa [isPlainChar, isQuote, not_or, and_assoc] using hnone

theorem isQuote_of_isValueChar (h : Markup.isValueChar c = true) : isQuote c = false := by
  cases hquote : isQuote c with
  | false => rfl
  | true => obtain rfl | rfl := eq_of_isQuote hquote <;> exact absurd h (by decide)

theorem isQuote_of_isAttributeChar (h : Markup.isAttributeChar c = true) : isQuote c = false :=
  isQuote_of_isValueChar (by simp [Markup.isValueChar, h])

theorem ne_equals_of_isAttributeChar (h : Markup.isAttributeChar c = true) : c ≠ '=' := by
  rintro rfl
  exact absurd h (by decide)

/-- The characters of tag names are no white space and no marks. -/
theorem marks_of_isNameChar (h : Markup.TagName.isNameChar c = true) :
    (isPlainChar c = true ∧ isQuote c = false) ∧ isBlank c = false ∧ c ∉ ['/', '!', '?'] := by
  have hascii : c.toNat < 128 := by
    have hkinds : (c.isAlphanum = true ∨ c = '-') ∨ c = ':' := by
      simpa [Markup.TagName.isNameChar] using h
    obtain (hword | rfl) | rfl := hkinds
    · exact (isJoined_of_isAlphanum hword).1.1
    · decide
    · decide
  refine forall_ascii (P := fun c => Markup.TagName.isNameChar c = true →
    (isPlainChar c = true ∧ isQuote c = false) ∧ isBlank c = false ∧ c ∉ ['/', '!', '?'])
    ?_ c hascii h
  decide +kernel

end Characters

namespace CompletionContext

section Searches

variable {c : Char} {p : Char → Bool} {front back text : List Char}

theorem behindLast?_append (h : c ∉ back) (front : List Char) :
    behindLast? c (front ++ c :: back) = some back := by
  have hpass : ∀ d ∈ back.reverse, (d != c) = true := by
    intro d hd
    rw [bne_iff_ne]
    rintro rfl
    exact h (List.mem_reverse.mp hd)
  have hrest : (c :: front.reverse).takeWhile (· != c) = [] :=
    List.takeWhile_cons_of_neg (by simp)
  rw [behindLast?, if_pos (by simp), List.reverse_append, List.reverse_cons, List.append_assoc,
    List.singleton_append, List.takeWhile_append_of_pos hpass, hrest, List.append_nil,
    List.reverse_reverse]

/-- What is found is behind the last occurrence of the character. -/
theorem of_behindLast? (h : behindLast? c text = some back) :
    ∃ front, text = front ++ c :: back ∧ c ∉ back := by
  have hmem : c ∈ text.reverse := by
    by_contra hnone
    rw [behindLast?, if_neg (by simpa using hnone)] at h
    cases h
  obtain ⟨later, earlier, hsplit, hlast⟩ := List.eq_append_cons_of_mem hmem
  have htext : text = earlier.reverse ++ c :: later.reverse := by
    rw [← List.reverse_reverse text, hsplit]
    simp
  have hlast' : c ∉ later.reverse := fun hd => hlast (List.mem_reverse.mp hd)
  rw [htext, behindLast?_append hlast'] at h
  exact ⟨earlier.reverse, Option.some.inj h ▸ htext, Option.some.inj h ▸ hlast'⟩

/-- The end whose characters pass a test does not reach over one that fails. -/
theorem endingWhile_append_cons (hc : p c = false) (front back : List Char) :
    endingWhile p (front ++ c :: back) = endingWhile p back := by
  have hrest : (c :: front.reverse).takeWhile p = [] := List.takeWhile_cons_of_neg (by simp [hc])
  rw [endingWhile, endingWhile, List.reverse_append, List.reverse_cons, List.append_assoc,
    List.singleton_append, List.takeWhile_append, hrest, List.append_nil]
  split
  · next hall => rw [(List.takeWhile_sublist p).eq_of_length hall]
  · rfl

theorem mem_of_mem_endingWhile (h : c ∈ endingWhile p text) : c ∈ text :=
  List.mem_reverse.mp ((List.takeWhile_sublist p).subset (List.mem_reverse.mp h))

/-- A text that neither leaves the tag in which it stands nor opens an expression without closing
it. -/
structure Stays (text : List Char) : Prop where
  angles : '<' ∉ text ∧ '>' ∉ text
  braces : ∀ front back, text = front ++ '\x7b' :: back → '\x7d' ∈ back

theorem stays_of_plain (h : ∀ c ∈ text, isPlainChar c = true) : Stays text where
  angles := ⟨fun hmem => absurd (h _ hmem) (by decide), fun hmem => absurd (h _ hmem) (by decide)⟩
  braces := by
    rintro front back rfl
    exact absurd (h '\x7b' (by simp)) (by decide)

theorem Stays.append (hfront : Stays front) (hback : Stays back) : Stays (front ++ back) where
  angles := by
    simp only [List.mem_append, not_or]
    exact ⟨⟨hfront.angles.1, hback.angles.1⟩, ⟨hfront.angles.2, hback.angles.2⟩⟩
  braces := by
    intro before after hsplit
    rcases List.append_eq_append_iff.mp hsplit with ⟨middle, -, hin⟩ | ⟨middle, hin, hout⟩
    · exact hback.braces middle after hin
    · cases middle with
      | nil => exact hback.braces [] after hout.symm
      | cons d middle =>
          -- The brace stands in front, so the one that closes it does too.
          obtain ⟨rfl, rfl⟩ := List.cons.inj hout
          exact List.mem_append_left _ (hfront.braces before middle hin)

theorem stays_flatMap {α : Type} {f : α → List Char} {items : List α}
    (h : ∀ a ∈ items, Stays (f a)) : Stays (items.flatMap f) := by
  induction items with
  | nil => exact stays_of_plain fun c hc => nomatch hc
  | cons a rest ih =>
      rw [List.flatMap_cons]
      exact (h a List.mem_cons_self).append (ih fun b hb => h b (List.mem_cons_of_mem _ hb))

/-- Text in braces closes what it opens. -/
theorem stays_braced (h : ∀ c ∈ text, isPlainChar c = true) :
    Stays ('\x7b' :: (text ++ ['\x7d'])) where
  angles := by
    have hinner := stays_of_plain h
    simpa using hinner.angles
  braces := by
    intro before after hsplit
    have hlast : (before ++ '\x7b' :: after).getLast? = some '\x7d' := by
      rw [← hsplit, ← List.cons_append, List.getLast?_concat]
    cases after with
    | nil => simp at hlast
    | cons d after =>
        rw [List.getLast?_append_cons, List.getLast?_cons_cons] at hlast
        exact List.mem_of_getLast? hlast

/-- Behind the bracket of a tag only what stands in the tag matters. -/
theorem behind_of_stays (h : Stays text) (pre : List Char) :
    behind (pre ++ '<' :: text) = inTag text := by
  have hopen : ((behindLast? '\x7b' (pre ++ '<' :: text)).filter fun inner =>
      !inner.any fun c => c == '\x7d' || c == '<' || c == '>') = none := by
    rw [Option.filter_eq_none_iff]
    intro inner hfound
    have hmark : '\x7d' ∈ inner ∨ '<' ∈ inner := by
      obtain ⟨front, hsplit, -⟩ := of_behindLast? hfound
      rcases List.append_eq_append_iff.mp hsplit with ⟨middle, -, hin⟩ | ⟨middle, -, hout⟩
      · cases middle with
        | nil => exact absurd (List.cons.inj hin).1 (by decide)
        | cons d middle => exact .inl (h.braces middle inner (List.cons.inj hin).2)
      · cases middle with
        | nil => exact absurd (List.cons.inj hout).1 (by decide)
        | cons d middle =>
            refine .inr ?_
            rw [(List.cons.inj hout).2]
            simp
    have hany : (inner.any fun c => c == '\x7d' || c == '<' || c == '>') = true := by
      rw [List.any_eq_true]
      exact hmark.elim (fun hmem => ⟨_, hmem, rfl⟩) fun hmem => ⟨_, hmem, rfl⟩
    simp [hany]
  rw [behind, hopen]
  dsimp only
  rw [behindLast?_append h.angles.1]
  dsimp only
  rw [if_neg (by simpa using h.angles.2)]

/-- The context in a tag that is no end tag, comment or instruction. -/
theorem inTag_cons (hc : c ∉ ['/', '!', '?']) (rest : List Char) :
    inTag (c :: rest) =
      if !(c :: rest).any isBlank then .tagName (String.ofList (c :: rest))
      else if (c :: rest).count '"' % 2 = 1 ∨ (c :: rest).count (Char.ofNat 0x27) % 2 = 1 then
        .text
      else if (endingWhile (fun c => !isBlank c) (c :: rest)).contains '=' then .text
      else .attributeName
        (String.ofList (((c :: rest).dropWhile isBlank).takeWhile fun c => !isBlank c))
        (String.ofList (endingWhile (fun c => !isBlank c) (c :: rest))) := by
  rw [inTag]
  all_goals
    rintro others ⟨⟩
    simp at hc

end Searches

end CompletionContext

open CompletionContext

section Written

variable {text : List Char} {quote : Char}

theorem count_eq_zero_of_no_quote (hquote : isQuote quote = true)
    (h : ∀ c ∈ text, isQuote c = false) : text.count quote = 0 :=
  List.count_eq_zero.mpr fun hmem => Bool.false_ne_true ((h quote hmem).symm.trans hquote)

theorem IsGap.stays (h : IsGap text) : Stays text :=
  stays_of_plain fun c hc => (marks_of_isBlank (h.blank c hc)).1

theorem IsGap.count (h : IsGap text) (hquote : isQuote quote = true) : text.count quote = 0 :=
  count_eq_zero_of_no_quote hquote fun c hc => (marks_of_isBlank (h.blank c hc)).2

theorem IsAttributeName.stays (h : IsAttributeName text) : Stays text :=
  stays_of_plain fun c hc => (h c hc).2

theorem IsAttributeName.count (h : IsAttributeName text) (hquote : isQuote quote = true) :
    text.count quote = 0 :=
  count_eq_zero_of_no_quote hquote fun c hc => isQuote_of_isAttributeChar (h c hc).1

theorem WrittenValue.Legal.stays {v : WrittenValue} (h : v.Legal) : Stays v.text := by
  have hequals : Stays ['='] := stays_of_plain (by simp [isPlainChar])
  cases v with
  | missing => exact stays_of_plain fun c hc => nomatch hc
  | bare body => exact hequals.append (stays_of_plain fun c hc => (h c hc).2)
  | braced body => exact hequals.append (stays_braced h)
  | quoted q body =>
      obtain ⟨hq, hbody⟩ := h
      refine hequals.append (stays_of_plain fun c hc => ?_)
      have hplain := isPlainChar_of_isQuote hq
      rcases List.mem_cons.mp hc with rfl | hc
      · exact hplain
      · rcases List.mem_append.mp hc with hc | hc
        · exact (hbody c hc).2
        · exact List.mem_singleton.mp hc ▸ hplain

/-- A value in quotes has two more quotes than there are inside, any other value as many. -/
theorem WrittenValue.count_text (v : WrittenValue) (hquote : isQuote quote = true) :
    v.text.count quote % 2 = v.body.count quote % 2 := by
  have hmarks : ∀ d ∈ ['=', '\x7b', '\x7d'], d ≠ quote := by
    rintro d hd rfl
    have hall : ∀ d ∈ ['=', '\x7b', '\x7d'], isQuote d = false := by simp [isQuote]
    exact Bool.false_ne_true ((hall d hd).symm.trans hquote)
  simp only [List.forall_mem_cons, List.not_mem_nil, false_implies, implies_true, and_true]
    at hmarks
  obtain ⟨hequals, hopen, hclose⟩ := hmarks
  cases v with
  | missing => rfl
  | bare inner => simp [text, body, hequals]
  | braced inner => simp [text, body, hequals, hopen, hclose]
  | quoted q inner =>
      simp only [text, body, List.count_cons, List.count_append, List.count_nil, beq_iff_eq,
        if_neg hequals]
      omega

theorem WrittenAttribute.Legal.stays {a : WrittenAttribute} (h : a.Legal) : Stays a.text :=
  h.blank.stays.append (h.name.stays.append h.value.stays)

theorem WrittenAttribute.Legal.count_text {a : WrittenAttribute} (h : a.Legal)
    (hquote : isQuote quote = true) :
    a.text.count quote % 2 = a.value.body.count quote % 2 := by
  rw [WrittenAttribute.text, List.count_append, List.count_append, h.blank.count hquote,
    h.name.count hquote, Nat.zero_add, Nat.zero_add, a.value.count_text hquote]

theorem count_attributes {attributes : List WrittenAttribute} (h : ∀ a ∈ attributes, a.Legal)
    (hquote : isQuote quote = true) :
    (attributes.flatMap WrittenAttribute.text).count quote % 2 =
      (attributes.flatMap fun a => a.value.body).count quote % 2 := by
  induction attributes with
  | nil => rfl
  | cons a rest ih =>
      have hhead := (h a List.mem_cons_self).count_text hquote
      have htail := ih fun b hb => h b (List.mem_cons_of_mem _ hb)
      simp only [List.flatMap_cons, List.count_append]
      omega

end Written

namespace OpenTag

variable {t : OpenTag} (h : t.Legal)
include h

theorem Legal.stays : Stays t.text :=
  (stays_of_plain fun c hc => (marks_of_isNameChar (h.name c hc)).1.1).append
    ((stays_flatMap fun a ha => (h.attributes a ha).stays).append
      (h.blank.stays.append h.typed.stays))

/-- The quotes in a start tag are as even or odd as those inside its values. -/
theorem Legal.count_text (quote : Char) (hquote : isQuote quote = true) :
    t.text.count quote % 2 = t.bodies.count quote % 2 := by
  have hname : t.name.count quote = 0 :=
    count_eq_zero_of_no_quote hquote fun c hc => (marks_of_isNameChar (h.name c hc)).1.2
  have hattributes := count_attributes h.attributes hquote
  have hblank := h.blank.count hquote
  have htyped := h.typed.count hquote
  simp only [text, bodies, List.count_append] at hattributes ⊢
  omega

/-- What follows the name of a tag starts with white space. -/
theorem Legal.exists_gap : ∃ c rest, t.text = t.name ++ c :: rest ∧ isBlank c = true := by
  have hgap : ∀ {gap : List Char}, IsGap gap → ∀ back, ∃ c rest,
      gap ++ back = c :: rest ∧ isBlank c = true := by
    intro gap hgap back
    obtain ⟨c, rest, rfl⟩ := List.exists_cons_of_ne_nil hgap.ne_nil
    exact ⟨c, rest ++ back, rfl, hgap.blank c List.mem_cons_self⟩
  cases hattributes : t.attributes with
  | nil =>
      obtain ⟨c, rest, hsplit, hc⟩ := hgap h.blank t.typed
      exact ⟨c, rest, by simp [text, hattributes, hsplit], hc⟩
  | cons a more =>
      have ha := h.attributes a (hattributes ▸ List.mem_cons_self)
      obtain ⟨c, rest, hsplit, hc⟩ := hgap ha.blank (a.name ++ (a.value.text ++
        (more.flatMap WrittenAttribute.text ++ (t.blank ++ t.typed))))
      exact ⟨c, rest, by simp [text, hattributes, WrittenAttribute.text, ← hsplit], hc⟩

/-- The name of a tag is its part in front of the first white space. -/
theorem Legal.name_eq :
    (t.text.dropWhile isBlank).takeWhile (fun c => !isBlank c) = t.name := by
  obtain ⟨c, rest, hsplit, hc⟩ := h.exists_gap
  have hname : ∀ d ∈ t.name, isBlank d = false :=
    fun d hd => (marks_of_isNameChar (h.name d hd)).2.1
  have hdrop : t.text.dropWhile isBlank = t.name ++ c :: rest := by
    obtain ⟨d, name, hcons⟩ := List.exists_cons_of_ne_nil h.name_ne
    have hd := hname d (hcons ▸ List.mem_cons_self)
    rw [hsplit, hcons, List.cons_append, List.dropWhile_cons_of_neg (by simp [hd])]
  have hstop : (c :: rest).takeWhile (fun c => !isBlank c) = [] :=
    List.takeWhile_cons_of_neg (by simp [hc])
  rw [hdrop, List.takeWhile_append_of_pos fun d hd => by simp [hname d hd], hstop,
    List.append_nil]

/-- The part behind the last white space lies in the name that is being typed. -/
theorem Legal.endingWhile_text :
    endingWhile (fun c => !isBlank c) t.text = endingWhile (fun c => !isBlank c) t.typed := by
  obtain hnil | ⟨front, c, hgap⟩ := List.eq_nil_or_concat t.blank
  · exact absurd hnil h.blank.ne_nil
  · have hc := h.blank.blank c (by simp [hgap])
    have hsplit : t.text =
        (t.name ++ (t.attributes.flatMap WrittenAttribute.text ++ front)) ++ c :: t.typed := by
      simp [text, hgap]
    rw [hsplit, endingWhile_append_cons (by simp [hc])]

/-- The context in a start tag: that of an attribute name, if the quotes inside the values are
even of either kind. -/
theorem Legal.inTag_text :
    inTag t.text =
      if t.bodies.count '"' % 2 = 0 ∧ t.bodies.count (Char.ofNat 0x27) % 2 = 0 then
        .attributeName (String.ofList t.name)
          (String.ofList (endingWhile (fun c => !isBlank c) t.typed))
      else .text := by
  have hdouble := h.count_text '"' (by decide)
  have hsingle := h.count_text (Char.ofNat 0x27) (by decide)
  have hblank : t.text.any isBlank = true := by
    obtain ⟨c, rest, hsplit, hc⟩ := h.exists_gap
    rw [hsplit]
    simp [hc]
  have htyped : (endingWhile (fun c => !isBlank c) t.typed).contains '=' = false := by
    rw [List.contains_eq_mem, decide_eq_false_iff_not]
    intro hmem
    exact ne_equals_of_isAttributeChar (h.typed _ (mem_of_mem_endingWhile hmem)).1 rfl
  obtain ⟨d, name, hcons⟩ := List.exists_cons_of_ne_nil h.name_ne
  have hfirst : t.text = d :: (name ++ (t.attributes.flatMap WrittenAttribute.text ++
      (t.blank ++ t.typed))) := by
    rw [text, hcons, List.cons_append]
  have hread := inTag_cons (marks_of_isNameChar (h.name d (hcons ▸ List.mem_cons_self))).2.2
    (name ++ (t.attributes.flatMap WrittenAttribute.text ++ (t.blank ++ t.typed)))
  rw [← hfirst] at hread
  rw [hread, hblank, h.endingWhile_text, h.name_eq, htyped, hdouble, hsingle]
  simp only [Bool.not_true, Bool.false_eq_true, if_false]
  by_cases heven : t.bodies.count '"' % 2 = 0 ∧ t.bodies.count (Char.ofNat 0x27) % 2 = 0
  · rw [if_pos heven, if_neg (by omega)]
  · rw [if_neg heven, if_pos (by omega)]

end OpenTag

/-- Behind any text and an open start tag, whatever follows, the context is that of an attribute
name exactly if the quotes inside the values are even of either kind; what is typed is then the
name behind its last white space, which a name holds outside of ASCII only. With an odd number of
quotes of one kind inside closed values the context is text. -/
theorem OpenTag.Legal.context_at_end {t : OpenTag} (h : t.Legal) (pre rest : List Char) :
    let front := pre ++ '<' :: t.text
    let context := CompletionContext.ofOffset (front ++ rest) (byteSize front)
    let even := ∀ q, isQuote q = true → t.bodies.count q % 2 = 0
    (even → context = .attributeName (String.ofList t.name)
        (String.ofList (endingWhile (fun c => !isBlank c) t.typed))) ∧
      (¬even → context = .text) ∧
      (context = .attributeName (String.ofList t.name) (String.ofList t.typed) ↔
        even ∧ ∀ c ∈ t.typed, isBlank c = false) := by
  intro front context even
  have hcontext : context = inTag t.text := by
    rw [← behind_of_stays h.stays pre]
    exact congrArg behind (takeBytes_byteSize front rest)
  have heven : even ↔
      t.bodies.count '"' % 2 = 0 ∧ t.bodies.count (Char.ofNat 0x27) % 2 = 0 := by
    refine ⟨fun hall => ⟨hall _ (by decide), hall _ (by decide)⟩, fun hboth q hq => ?_⟩
    obtain rfl | rfl := eq_of_isQuote hq
    · exact hboth.1
    · exact hboth.2
  have hname : even → context = .attributeName (String.ofList t.name)
      (String.ofList (endingWhile (fun c => !isBlank c) t.typed)) := by
    intro hall
    rw [hcontext, h.inTag_text, if_pos (heven.mp hall)]
  have htext : ¬even → context = .text := by
    intro hodd
    rw [hcontext, h.inTag_text, if_neg fun hboth => hodd (heven.mpr hboth)]
  have hwhole : endingWhile (fun c => !isBlank c) t.typed = t.typed ↔
      ∀ c ∈ t.typed, isBlank c = false := by
    rw [endingWhile, List.reverse_eq_iff, List.takeWhile_eq_self_iff]
    simp
  refine ⟨hname, htext, fun hclaim => ?_, fun ⟨hall, hblank⟩ => ?_⟩
  · by_cases hall : even
    · have hsame := (hname hall).symm.trans hclaim
      injection hsame with _ htyped
      exact ⟨hall, hwhole.mp (String.ofList_injective htyped)⟩
    · exact nomatch (htext hall).symm.trans hclaim
  · rw [hname hall, hwhole.mpr hblank]

/-- An apostrophe in a closed value hides the position of an attribute, two of them do not. -/
theorem OpenTag.Legal.context_at_end_apostrophe :
    let odd : OpenTag :=
      ⟨"p".toList, [⟨[' '], "title".toList, .quoted '"' "it\x27s".toList⟩], [' '], []⟩
    let even : OpenTag :=
      ⟨"p".toList, [⟨[' '], "title".toList, .quoted '"' "\x27tis Ada\x27s".toList⟩,
        ⟨['\n'], "id".toList, .braced "key".toList⟩], [' '], "na".toList⟩
    odd.Legal ∧ even.Legal ∧
      CompletionContext.ofOffset "<p title=\"it\x27s\" >".toList 16 = .text ∧
      CompletionContext.ofOffset "<p title=\"\x27tis Ada\x27s\"\nid=\x7bkey\x7d na".toList 33 =
        .attributeName "p" "na" := by
  intro odd even
  have hodd : odd.Legal := by decide +kernel
  have heven : even.Legal := by decide +kernel
  have hfirst : "<p title=\"it\x27s\" >".toList = [] ++ '<' :: odd.text ++ ['>'] := by
    decide +kernel
  have hsecond : "<p title=\"\x27tis Ada\x27s\"\nid=\x7bkey\x7d na".toList =
      [] ++ '<' :: even.text ++ [] := by
    decide +kernel
  have hlengths : 16 = byteSize ([] ++ '<' :: odd.text) ∧
      33 = byteSize ([] ++ '<' :: even.text) := by
    decide +kernel
  refine ⟨hodd, heven, ?_, ?_⟩
  · rw [hfirst, hlengths.1]
    refine (hodd.context_at_end [] ['>']).2.1 fun hall => ?_
    exact absurd (hall (Char.ofNat 0x27) (by decide)) (by decide +kernel)
  · rw [hsecond, hlengths.2]
    refine ((heven.context_at_end [] []).2.2).mpr ⟨fun q hq => ?_, ?_⟩
    · obtain rfl | rfl := eq_of_isQuote hq <;> decide +kernel
    · simp [even, isBlank]

end ComponentAtlas
