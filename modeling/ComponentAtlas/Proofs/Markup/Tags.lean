import ComponentAtlas.Proofs.Markup.Attributes
import ComponentAtlas.Proofs.Text.Conventions

/-!
# Reading tags

The parts of a tag are laid out behind its name. A start tag ends behind its attributes, or where
no text begins. An end tag has a name, also the one that ends a script or a style sheet.
-/

namespace ComponentAtlas.Markup

open ComponentAtlas.Text

section Tags

variable {text : List Char} {c d next : Cursor} {parts front : List Node} {ending : TagEnd}

theorem Solid.imp {p q : Kind → Bool} (h : Solid text p c front d)
    (hpq : ∀ k, p k = true → q k = true) : Solid text q c front d :=
  ⟨h.on, h.laid, fun n hn => ⟨hpq _ (h.kinds n hn).1, (h.kinds n hn).2⟩⟩

theorem Solid.append {p : Kind → Bool} {e : Cursor} {back : List Node}
    (h : Solid text p c front d) (h' : Solid text p d back e) :
    Solid text p c (front ++ back) e := by
  refine ⟨h'.on, h.laid.append (fun n hn => (h.kinds n hn).2) h'.laid, fun n hn => ?_⟩
  exact (List.mem_append.mp hn).elim (h.kinds n) (h'.kinds n)

/-- The parts of a tag behind its name. Its end is the end of its last part; it stands behind all
attributes, or no text begins there. -/
structure TagRest (text : List Char) (c : Cursor) (parts : List Node) (ending : TagEnd)
    (next : Cursor) : Prop where
  on : On text next
  laid : Laid text c.offset parts next.offset
  kinds : ∀ n ∈ parts, n.kind.isPart = true
  last : ending ≠ .unfinished → ∃ n ∈ parts.getLast?, n.range.stop = next.offset
  closed : ending ≠ .unfinished → ending ≠ .cut → c.offset < next.offset ∧
    ∀ n ∈ parts, n.kind = .attribute → n.range.stop < next.offset
  cut : ending = .cut → NoText text next.offset

theorem Solid.tagRest (h : Solid text Kind.isPart c front d)
    (h' : TagRest text d parts ending next) : TagRest text c (front ++ parts) ending next := by
  have hle := h.laid.le
  refine ⟨h'.on, h.laid.append (fun n hn => (h.kinds n hn).2) h'.laid, ?_, ?_, ?_, h'.cut⟩
  · intro n hn
    obtain hn | hn := List.mem_append.mp hn
    · exact (h.kinds n hn).1
    · exact h'.kinds n hn
  · intro hfinished
    obtain ⟨n, hn, hstop⟩ := h'.last hfinished
    exact ⟨n, by rw [List.getLast?_append, Option.mem_def.mp hn]; rfl, hstop⟩
  · intro hfinished hcut
    obtain ⟨hlt, hparts⟩ := h'.closed hfinished hcut
    refine ⟨by omega, fun n hn hattribute => ?_⟩
    obtain hn | hn := List.mem_append.mp hn
    · have := (h.laid.of_mem hn).2.1
      omega
    · exact hparts n hn hattribute

theorem tagRest_mark {sign : String} (hrest : sign.toList <+: c.rest) (hc : On text c)
    (hlt : c.offset < (c.past sign.toList).offset) (hcut : ending ≠ .cut) :
    TagRest text c [markNode c sign] ending (c.past sign.toList) := by
  have hnext := hc.past hrest
  refine ⟨hnext, laid_leaf hc hnext hlt rfl, ?_, fun _ => ⟨_, rfl, rfl⟩, ?_, fun h => absurd h hcut⟩
  · intro n hn
    obtain rfl := List.mem_singleton.mp hn
    rfl
  · intro _ _
    refine ⟨hlt, fun n hn hattribute => ?_⟩
    obtain rfl := List.mem_singleton.mp hn
    cases hattribute

theorem tagRest_unfinished (hc : On text c) : TagRest text c [] .unfinished c :=
  ⟨hc, .nil (Nat.le_refl _), fun _ h => (nomatch h), fun h => absurd rfl h,
    fun h => absurd rfl h, fun h => (nomatch h)⟩

/-- No text begins where blanks and comments lead to a bracket. -/
theorem noText_of_extras {rest : List Char} (hc : On text c) (h : (extras c).2.rest = '<' :: rest) :
    NoText text c.offset := by
  refine noText_of_head hc fun e he => ?_
  obtain ⟨more, hmore⟩ := List.head?_eq_some_iff.mp he
  by_contra hstarts
  rw [extras_eq hmore (by simpa using hstarts), hmore] at h
  obtain ⟨rfl, -⟩ := List.cons.inj h
  exact hstarts rfl

theorem tagRest_cut (hc : On text c) (h : NoText text c.offset) :
    TagRest text c [missingMark c.offset ">"] .cut c := by
  have hsound : (missingMark c.offset ">").Sound text := sound_leaf rfl hc.boundary hc.boundary
  refine ⟨hc, .empty (Nat.le_refl _) rfl (Nat.le_refl _) hsound rfl, fun n hn => ?_,
    fun _ => ⟨_, rfl, rfl⟩, fun _ h => absurd rfl h, fun _ => h⟩
  obtain rfl := List.mem_singleton.mp hn
  rfl

theorem solid_leaf {k : Kind} {p : Kind → Bool} (hc : On text c) (hd : On text d)
    (hlt : c.offset < d.offset) (hk : k.isPlain = true) (hp : p k = true) :
    Solid text p c [.leaf k (c.rangeTo d)] d := by
  refine ⟨hd, laid_leaf hc hd hlt hk, fun n hn => ?_⟩
  obtain rfl := List.mem_singleton.mp hn
  exact ⟨hp, hlt⟩

theorem readTagRest_spec {mayClose : Bool} {fuel : Nat} (hc : On text c)
    (h : readTagRest mayClose fuel c = (parts, ending, next)) :
    TagRest text c parts ending next := by
  induction fuel generalizing c parts ending next with
  | zero =>
      obtain ⟨rfl, rfl, rfl⟩ : [] = parts ∧ .unfinished = ending ∧ c = next := by
        simpa [readTagRest] using h
      exact tagRest_unfinished hc
  | succ fuel ih =>
      have hcomments : Solid text Kind.isPart c (extras c).1 (extras c).2 := by
        refine (extras_spec hc).imp fun k hk => ?_
        obtain rfl := eq_of_beq hk
        rfl
      have hahead : ∀ rest, (extras c).2.rest = '<' :: rest → NoText text c.offset :=
        fun rest hrest => noText_of_extras hc hrest
      rw [readTagRest] at h
      generalize extras c = found at *
      obtain ⟨comments, d⟩ := found
      have hd := hcomments.on
      simp only at h hcomments hahead
      split at h
      · obtain ⟨rfl, rfl, rfl⟩ : comments = parts ∧ .unfinished = ending ∧ d = next := by
          simpa using h
        have := hcomments.tagRest (tagRest_unfinished hd)
        rwa [List.append_nil] at this
      · next rest hrest =>
        obtain ⟨rfl, rfl, rfl⟩ : comments ++ [markNode d ">"] = parts ∧ .closed = ending ∧
            d.tail = next := by simpa using h
        have htail : d.tail = d.past ">".toList := by
          rw [Cursor.tail, hrest]
          rfl
        have hlt := offset_lt_tail hrest
        rw [htail] at hlt ⊢
        exact hcomments.tagRest (tagRest_mark ⟨rest, hrest.symm⟩ hd hlt (by simp))
      · next rest hrest =>
        obtain ⟨rfl, rfl, rfl⟩ : [missingMark c.offset ">"] = parts ∧ .cut = ending ∧
            c = next := by simpa using h
        exact tagRest_cut hc (hahead rest hrest)
      · next e more _ _ hrest =>
        have herror : Solid text Kind.isPart d [.leaf .error (d.rangeTo d.tail)] d.tail :=
          solid_leaf hd hd.tail (offset_lt_tail hrest) rfl rfl
        split at h
        · next hself =>
          obtain ⟨rfl, rfl, rfl⟩ : comments ++ [markNode d "/>"] = parts ∧ .selfClosed = ending ∧
              d.past ['/', '>'] = next := by simpa using h
          simp only [Bool.and_eq_true, beq_iff_eq] at hself
          obtain ⟨⟨-, rfl⟩, hhead⟩ := hself
          obtain ⟨back, rfl⟩ := List.head?_eq_some_iff.mp hhead
          have hlt := offset_lt_past d (show "/>".toList ≠ [] by simp)
          exact hcomments.tagRest (tagRest_mark ⟨back, hrest.symm⟩ hd hlt (by simp))
        · split at h
          · next hname =>
            split at h
            · obtain ⟨rfl, rfl, rfl⟩ :
                  comments ++ [.leaf .error (d.rangeTo (d.past d.rest))] = parts ∧
                    .unfinished = ending ∧ d.past d.rest = next := by simpa using h
              have hall : On text (d.past d.rest) := hd.past (List.prefix_refl _)
              have hlt : d.offset < (d.past d.rest).offset := offset_lt_past d (by simp [hrest])
              exact hcomments.tagRest
                ((solid_leaf hd hall hlt rfl rfl).tagRest (tagRest_unfinished hall))
            · next node after hread =>
              generalize hmore : readTagRest mayClose fuel after = found at h
              obtain ⟨others, ending', last⟩ := found
              obtain ⟨rfl, rfl, rfl⟩ : comments ++ node :: others = parts ∧ ending' = ending ∧
                  last = next := by simpa using h
              have hnode := readAttribute?_spec hd hrest hname hread
              refine hcomments.tagRest ((hnode.imp fun k hk => ?_).tagRest (ih hnode.on hmore))
              obtain rfl := eq_of_beq hk
              rfl
          · generalize hmore : readTagRest mayClose fuel d.tail = found at h
            obtain ⟨others, ending', last⟩ := found
            obtain ⟨rfl, rfl, rfl⟩ : comments ++ .leaf .error (d.rangeTo d.tail) :: others = parts ∧
                ending' = ending ∧ last = next := by simpa using h
            exact hcomments.tagRest (herror.tagRest (ih hd.tail hmore))

end Tags

section Spans

variable {text : List Char} {c d next : Cursor} {parts : List Node} {first : Node}

/-- A node may span nodes that begin with one that is not empty. -/
theorem laid_span {hi : Nat} (h : Laid text c.offset (first :: parts) hi)
    (hfirst : first.range.start < first.range.stop) :
    Laid text c.offset (first :: parts) (spanNodes c (first :: parts)).stop ∧
      (spanNodes c (first :: parts)).stop ∈ boundaries 0 text ∧
      c.offset < (spanNodes c (first :: parts)).stop ∧
      (spanNodes c (first :: parts)).stop ≤ hi := by
  obtain ⟨n, hn⟩ : ∃ n, (first :: parts).getLast? = some n :=
    ⟨_, List.getLast?_eq_some_getLast (List.cons_ne_nil first parts)⟩
  have hstop : (spanNodes c (first :: parts)).stop = n.range.stop := by
    simp only [spanNodes, hn, Option.map_some, Option.getD_some]
  obtain ⟨hlaid, hle⟩ := h.to_last hn
  rw [hstop]
  obtain ⟨hlo, hhi, -⟩ := hlaid.of_mem (List.mem_cons_self ..)
  exact ⟨hlaid, (h.of_mem (List.mem_of_getLast? hn)).2.2.1.stop, by omega, hle⟩

theorem spanNodes_concat (c : Cursor) (parts : List Node) (n : Node) :
    spanNodes c (parts ++ [n]) = ⟨c.offset, n.range.stop⟩ := by
  simp [spanNodes]

theorem solid_span {k : Kind} (hc : On text c) (hnext : On text next)
    (h : Laid text c.offset (first :: parts) next.offset)
    (hfirst : first.range.start < first.range.stop) (hk : k.isPlain = true)
    (hholds : ∀ n ∈ first :: parts, k.mayHold n.kind = true) :
    Solid text (· == k) c [.mk k (spanNodes c (first :: parts)) (first :: parts)] next := by
  obtain ⟨hlaid, hstop, hlt, hle⟩ := laid_span h hfirst
  refine ⟨hnext, .cons (Nat.le_refl _) hlt (sound_plain hk hc.boundary hstop hholds) hlaid
    (.nil hle), fun n hn => ?_⟩
  obtain rfl := List.mem_singleton.mp hn
  exact ⟨beq_self_eq_true k, hlt⟩

theorem Solid.node {p : Kind → Bool} {k : Kind} (hc : On text c)
    (h : Solid text p c (first :: parts) next) (hk : k.isPlain = true)
    (hmay : ∀ l, p l = true → k.mayHold l = true) :
    Solid text (· == k) c [.mk k (c.rangeTo next) (first :: parts)] next := by
  obtain ⟨-, hlt⟩ := h.kinds first (List.mem_cons_self ..)
  obtain ⟨hlo, hhi, -⟩ := h.laid.of_mem (List.mem_cons_self ..)
  refine ⟨h.on, laid_plain hc h.on (by omega) hk (fun n hn => hmay _ (h.kinds n hn).1) h.laid,
    fun n hn => ?_⟩
  obtain rfl := List.mem_singleton.mp hn
  exact ⟨beq_self_eq_true k, by simp only [Node.range, Cursor.rangeTo]; omega⟩

/-- The parts of an end tag. -/
structure EndParts (text : List Char) (c : Cursor) (parts : List Node) (next : Cursor) :
    Prop where
  on : On text next
  laid : Laid text c.offset parts next.offset
  kinds : ∀ n ∈ parts, Kind.endTag.mayHold n.kind = true
  first : ∃ n rest, parts = n :: rest ∧ n.range.start < n.range.stop

theorem readEndTag_spec {k : Kind} {rest : List Char} (hc : On text c)
    (hrest : c.rest = '<' :: '/' :: rest)
    (hname : ((c.past ['<', '/']).skip isSourceBlank).while_ TagName.isNameChar ≠ [])
    (hk : k = .tagName ∨ k = .strayTagName) :
    EndParts text c (readEndTag k c).1 (readEndTag k c).2 := by
  simp only [readEndTag]
  generalize hopen : c.past ['<', '/'] = opened at *
  generalize hword : opened.skip isSourceBlank = word at *
  generalize hletters : word.while_ TagName.isNameChar = name at *
  generalize hnamed : word.past name = named
  have ho : On text opened := hopen ▸ hc.past ⟨rest, hrest.symm⟩
  have hw : On text word := hword ▸ ho.skip
  have hn : On text named := hnamed ▸ hw.past (hletters ▸ List.takeWhile_prefix _)
  have h₁ : c.offset < opened.offset := hopen ▸ offset_lt_past c (by simp)
  have h₂ : opened.offset ≤ word.offset := hword ▸ offset_le_skip _ _
  have h₃ : word.offset < named.offset := hnamed ▸ offset_lt_past word hname
  have hplain : k.isPlain = true := by obtain rfl | rfl := hk <;> rfl
  have hmay : Kind.endTag.mayHold k = true := by obtain rfl | rfl := hk <;> rfl
  have hmark : markNode c "</" = .leaf (.mark "</") (c.rangeTo opened) := by
    rw [markNode, Cursor.rangeOf, ← hopen]
    rfl
  have hnode : word.rangeOf name = word.rangeTo named := by rw [Cursor.rangeOf, hnamed]
  have hfront : ∀ {hi : Nat} {more : List Node}, Laid text named.offset more hi →
      Laid text c.offset (.leaf (.mark "</") (c.rangeTo opened) ::
        .leaf k (word.rangeTo named) :: more) hi := fun hmore =>
    laid_cons_leaf hc ho h₁ rfl ((laid_cons_leaf hw hn h₃ hplain hmore).mono h₂ (Nat.le_refl _))
  have hcomments := extras_spec hn
  generalize extras named = found at *
  obtain ⟨comments, after⟩ := found
  have ha : On text after := hcomments.on
  simp only at hcomments
  rw [hmark, hnode]
  split
  · next hend =>
    obtain ⟨more, hmore⟩ := List.head?_eq_some_iff.mp hend
    have hclose : markNode after ">" = .leaf (.mark ">") (after.rangeTo after.tail) := by
      rw [markNode, Cursor.rangeOf, Cursor.tail, hmore]
      rfl
    rw [hclose]
    have hlast := laid_leaf (k := .mark ">") ha ha.tail (offset_lt_tail hmore) rfl
    have hlaid := hfront (hcomments.laid.append (fun n hn => (hcomments.kinds n hn).2) hlast)
    refine ⟨ha.tail, hlaid, fun n hn => ?_, _, _, rfl, h₁⟩
    simp only [List.cons_append, List.nil_append, List.mem_cons, List.mem_append,
      List.not_mem_nil, or_false] at hn
    obtain rfl | rfl | hn | rfl := hn
    · rfl
    · exact hmay
    · rw [eq_of_beq (hcomments.kinds n hn).1]
      rfl
    · rfl
  · have hsound : (missingMark named.offset ">").Sound text :=
      sound_leaf rfl hn.boundary hn.boundary
    have hlast : Laid text named.offset [missingMark named.offset ">"] named.offset :=
      .empty (Nat.le_refl _) rfl (Nat.le_refl _) hsound rfl
    refine ⟨hn, hfront hlast, fun n hn => ?_, _, _, rfl, h₁⟩
    simp only [List.cons_append, List.nil_append, List.mem_cons, List.not_mem_nil, or_false] at hn
    obtain rfl | rfl | rfl := hn
    · rfl
    · exact hmay
    · rfl

end Spans

section Elements

variable {text : List Char} {c word next : Cursor} {parts : List Node} {ending : TagEnd}
  {letters : List Char}

/-- The parts of a tag with its bracket and its name. -/
def tagParts (c word : Cursor) (letters : List Char) (parts : List Node) : List Node :=
  markNode c "<" :: .leaf .tagName (word.rangeOf letters) :: parts

/-- The name of a tag behind its bracket. -/
structure Opened (text : List Char) (c word : Cursor) (letters : List Char) : Prop where
  on : On text c
  bracket : ∃ rest, c.rest = '<' :: rest
  behind : word = c.tail.skip isSourceBlank
  front : letters <+: word.rest
  ne_nil : letters ≠ []

theorem Opened.named (h : Opened text c word letters) :
    On text (word.past letters) ∧ c.offset < (word.past letters).offset ∧
      ∀ {parts : List Node} {hi : Nat}, Laid text (word.past letters).offset parts hi →
        Laid text c.offset (tagParts c word letters parts) hi := by
  obtain ⟨rest, hrest⟩ := h.bracket
  have hw : On text word := h.behind ▸ h.on.tail.skip
  have hn : On text (word.past letters) := hw.past h.front
  have hopen := offset_lt_tail hrest
  have hle : c.tail.offset ≤ word.offset := h.behind ▸ offset_le_skip _ _
  have hname : word.offset < (word.past letters).offset := offset_lt_past word h.ne_nil
  have hmark : markNode c "<" = .leaf (.mark "<") (c.rangeTo c.tail) := by
    rw [markNode, Cursor.rangeOf, Cursor.tail, hrest]
    rfl
  refine ⟨hn, by omega, fun hparts => ?_⟩
  rw [tagParts, hmark]
  exact laid_cons_leaf h.on h.on.tail hopen rfl
    ((laid_cons_leaf hw hn hname rfl hparts).mono hle (Nat.le_refl _))

theorem isPart_of_mem_tagParts (h : TagRest text (word.past letters) parts ending next) :
    ∀ n ∈ tagParts c word letters parts, n.kind.isPart = true := by
  intro n hn
  simp only [tagParts, List.mem_cons] at hn
  obtain rfl | rfl | hn := hn
  · rfl
  · rfl
  · exact h.kinds n hn

/-- A tag that is finished stands between its cursors. -/
theorem solid_tag {k : Kind} (hn : Opened text c word letters)
    (h : TagRest text (word.past letters) parts ending next) (hk : k.isTag = true)
    (hfinished : ending ≠ .unfinished) :
    spanNodes c (tagParts c word letters parts) = c.rangeTo next ∧
      Solid text (· == k) c [.mk k (c.rangeTo next) (tagParts c word letters parts)] next := by
  obtain ⟨hnamed, hlt, hlaid⟩ := hn.named
  have hsize : c.offset < next.offset := Nat.lt_of_lt_of_le hlt h.laid.le
  obtain ⟨n, hlast, hstop⟩ := h.last hfinished
  have hspan : spanNodes c (tagParts c word letters parts) = c.rangeTo next := by
    have : (tagParts c word letters parts).getLast? = some n := by
      rw [tagParts, ← List.singleton_append, List.getLast?_append, List.getLast?_cons,
        Option.mem_def.mp hlast]
      rfl
    rw [spanNodes, this, Option.map_some, Option.getD_some, hstop, Cursor.rangeTo]
  have hattribute : ∀ a ∈ tagParts c word letters parts, a.kind = .attribute → a ∈ parts := by
    intro a ha hkind
    simp only [tagParts, List.mem_cons] at ha
    obtain rfl | rfl | ha := ha
    · cases hkind
    · cases hkind
    · exact ha
  have hsound : (Node.mk k (c.rangeTo next) (tagParts c word letters parts)).Sound text := by
    refine ⟨hn.on.boundary, h.on.boundary, fun m hm => ?_, fun hkind => ?_, fun hkind => ?_,
      fun _ => ⟨hsize, fun a ha hkind => ?_, ?_⟩⟩
    · have hpart := isPart_of_mem_tagParts h m hm
      cases k <;> first | exact hpart | cases hk
    · obtain rfl : k = .text := hkind
      cases hk
    · obtain rfl : k = .attribute := hkind
      cases hk
    · have := (h.laid.of_mem (hattribute a ha hkind)).1
      exact Nat.lt_of_lt_of_le hlt this
    · by_cases hcut : ending = .cut
      · exact .inr (h.cut hcut)
      · exact .inl fun a ha hkind => (h.closed hfinished hcut).2 a (hattribute a ha hkind) hkind
  refine ⟨hspan, h.on, .cons (Nat.le_refl _) hsize hsound (hlaid h.laid) (.nil (Nat.le_refl _)),
    fun m hm => ?_⟩
  obtain rfl := List.mem_singleton.mp hm
  exact ⟨beq_self_eq_true k, hsize⟩

end Elements

section Raw

variable {text : List Char} {c inner : Cursor}

theorem eq_or_isLower_of_toUpper {c d : Char} (h : c.toUpper = d) : c = d ∨ c.isLower = true := by
  by_cases hlower : c.isLower = true
  · exact .inr hlower
  · left
    rw [← h, Char.toUpper, dif_neg]
    simpa [Char.isLower] using hlower

theorem eq_of_toUpper_mark {c d : Char} (h : c.toUpper = d) (hd : d.isUpper = false) : c = d := by
  obtain h' | hlower := eq_or_isLower_of_toUpper h
  · exact h'
  · have hascii : c.toNat < 128 := (isJoined_of_isLower hlower).1
    rw [← h, toUpper_ascii hascii hlower] at hd
    cases hd

theorem eq_of_toUpper_S {c : Char} (h : c.toUpper = 'S') : c = 's' ∨ c = 'S' := by
  obtain rfl | hlower := eq_or_isLower_of_toUpper h
  · exact .inr rfl
  · have hascii : c.toNat < 128 := (isJoined_of_isLower hlower).1
    refine forall_ascii (P := fun c => c.toUpper = 'S' → c = 's' ∨ c = 'S') ?_ c hascii h
    decide

theorem rawBody_front (ending rest : List Char) : rawBody ending rest <+: rest := by
  induction rest with
  | nil => exact List.prefix_refl _
  | cons c rest ih =>
      rw [rawBody]
      split
      · exact List.nil_prefix
      · exact List.cons_prefix_cons.mpr ⟨rfl, ih⟩

/-- Raw text goes on up to its end tag, or to the end of the text. -/
theorem rawBody_rest (ending rest : List Char) :
    rest.drop (rawBody ending rest).length = [] ∨
      ending <+: (rest.drop (rawBody ending rest).length).map Char.toUpper := by
  induction rest with
  | nil => exact .inl rfl
  | cons c rest ih =>
      rw [rawBody]
      split
      · next hends => exact .inr (List.isPrefixOf_iff_prefix.mp hends)
      · exact ih

/-- The end tag of a script or a style sheet has a name. -/
theorem rawEnd {name : TagName} (hname : name = "SCRIPT" ∨ name = "STYLE") {rest : List Char}
    (h : '<' :: '/' :: name.toList <+: rest.map Char.toUpper) :
    ∃ d more, rest = '<' :: '/' :: d :: more ∧ (d = 's' ∨ d = 'S') := by
  obtain ⟨letters, hletters⟩ : ∃ letters, name.toList = 'S' :: letters := by
    obtain rfl | rfl := hname
    · exact ⟨_, rfl⟩
    · exact ⟨_, rfl⟩
  obtain ⟨back, hback⟩ := h
  rw [hletters] at hback
  cases rest with
  | nil => cases hback
  | cons a rest =>
      obtain ⟨ha, htail⟩ := List.cons.inj hback
      cases rest with
      | nil => cases htail
      | cons b rest =>
          obtain ⟨hb, hlast⟩ := List.cons.inj htail
          cases rest with
          | nil => cases hlast
          | cons d more =>
              rw [eq_of_toUpper_mark ha.symm rfl, eq_of_toUpper_mark hb.symm rfl]
              exact ⟨d, more, rfl, eq_of_toUpper_S (List.cons.inj hlast).1.symm⟩

theorem readRaw_spec {kind : Kind} {name : TagName} {head : Node} (hc : On text c)
    (hhead : Solid text (· == .startTag) c [head] inner)
    (hkind : kind = .scriptElement ∨ kind = .styleElement)
    (hname : name = "SCRIPT" ∨ name = "STYLE") :
    Solid text Kind.isContent c [(readRaw kind name c head inner).1]
      (readRaw kind name c head inner).2 := by
  have hp : kind.isPlain = true := by obtain rfl | rfl := hkind <;> rfl
  have hcontent : ∀ k : Kind, (k == kind) = true → k.isContent = true := by
    rintro k hk
    obtain rfl := eq_of_beq hk
    obtain rfl | rfl := hkind <;> rfl
  have hi := hhead.on
  simp only [readRaw]
  have hfront := rawBody_front ('<' :: '/' :: name.toList) inner.rest
  have hrest := rawBody_rest ('<' :: '/' :: name.toList) inner.rest
  generalize rawBody ('<' :: '/' :: name.toList) inner.rest = body at *
  have hl : On text (inner.past body) := hi.past hfront
  have hraw : Solid text (· == .rawText) inner
      (if body = [] then [] else [.leaf .rawText (inner.rangeOf body)]) (inner.past body) := by
    split
    · next hempty =>
      subst hempty
      exact ⟨hi, .nil (Nat.le_refl _), by simp⟩
    · next hempty =>
      exact solid_leaf hi hl (offset_lt_past inner hempty) rfl rfl
  generalize (if body = [] then [] else [Node.leaf .rawText (inner.rangeOf body)]) = raw at *
  have hmay : ∀ k : Kind, (k == .startTag || k == .rawText || k == .endTag) = true →
      kind.mayHold k = true := by
    obtain rfl | rfl := hkind <;> exact fun k hk => hk
  have hparts : Solid text kind.mayHold c (head :: raw) (inner.past body) :=
    (hhead.imp fun k hk => hmay k (by simp [eq_of_beq hk])).append
      (hraw.imp fun k hk => hmay k (by simp [eq_of_beq hk]))
  obtain ⟨-, hlt⟩ := hhead.kinds head (List.mem_singleton_self head)
  split
  · exact (hparts.node hc hp fun k hk => hk).imp hcontent
  · next hmore =>
    obtain ⟨d, more, hbracket, hd⟩ := rawEnd hname (hrest.resolve_left hmore)
    have hletters : (((inner.past body).past ['<', '/']).skip isSourceBlank).while_
        TagName.isNameChar ≠ [] := by
      have hd' : isSourceBlank d = false ∧ TagName.isNameChar d = true := by
        obtain rfl | rfl := hd <;> decide
      have hpast : ((inner.past body).past ['<', '/']).rest = d :: more := by
        show List.drop 2 (inner.rest.drop body.length) = d :: more
        rw [hbracket]
        rfl
      rw [skip_of_neg hpast hd'.1, Cursor.while_, hpast, List.takeWhile_cons_of_pos hd'.2]
      exact List.cons_ne_nil _ _
    have hend := readEndTag_spec (k := .tagName) hl hbracket hletters (.inl rfl)
    generalize readEndTag .tagName (inner.past body) = found at *
    obtain ⟨parts, next⟩ := found
    obtain ⟨first, others, rfl, hfirst⟩ := hend.first
    have hending := solid_span hl hend.on hend.laid hfirst rfl hend.kinds
    generalize hnode : Node.mk .endTag (spanNodes (inner.past body) (first :: others))
      (first :: others) = ending at *
    have hall : Solid text kind.mayHold c (head :: (raw ++ [ending])) next :=
      hparts.append (hending.imp fun k hk => hmay k (by simp [eq_of_beq hk]))
    have hspan := solid_span hc hend.on hall.laid hlt hp fun n hn => (hall.kinds n hn).1
    rw [show spanNodes c (head :: (raw ++ [ending])) = ⟨c.offset, ending.range.stop⟩ from
      spanNodes_concat c (head :: raw) ending] at hspan
    simp only
    exact hspan.imp hcontent

end Raw

end ComponentAtlas.Markup
