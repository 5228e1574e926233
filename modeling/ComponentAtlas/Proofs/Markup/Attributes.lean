import ComponentAtlas.Proofs.Markup.Trees
import ComponentAtlas.Proofs.Text.Cursors

/-!
# Reading attributes

Comments and attributes lie between the cursor where they start and the cursor behind them, and the
nodes made of them are sound. Where blanks and comments lead to a bracket, no text begins.
-/

namespace ComponentAtlas.Markup

open ComponentAtlas.Text

section Texts

variable {text : List Char} {c : Cursor}

theorem noText_of_head (h : On text c) (hhead : ∀ e ∈ c.rest.head?, startsText e = false) :
    NoText text c.offset := by
  intro front e back htext hsize
  exact hhead e (by rw [h.rest_eq htext hsize]; rfl)

theorem textAt_of_head {e : Char} {rest : List Char} (h : On text c) (hrest : c.rest = e :: rest)
    (he : startsText e = true) : TextAt text c.offset := by
  obtain ⟨front, htext, hsize⟩ := h
  exact ⟨front, e, rest, hrest ▸ htext, hsize, he⟩

end Texts

section Nodes

variable {text : List Char} {k : Kind} {r : ByteRange} {n : Node} {cs : List Node}

theorem sound_plain (hk : k.isPlain = true) (hstart : r.start ∈ boundaries 0 text)
    (hstop : r.stop ∈ boundaries 0 text) (hholds : ∀ c ∈ cs, k.mayHold c.kind = true) :
    (Node.mk k r cs).Sound text := by
  simp only [Kind.isPlain, Bool.and_eq_true, Bool.not_eq_true', bne_iff_ne] at hk
  obtain ⟨⟨htag, htext⟩, hattribute⟩ := hk
  exact ⟨hstart, hstop, hholds, fun h => absurd h htext, fun h => absurd h hattribute,
    fun h => absurd h (by simp [Node.kind, htag])⟩

theorem sound_leaf (hk : k.isPlain = true) (hstart : r.start ∈ boundaries 0 text)
    (hstop : r.stop ∈ boundaries 0 text) : (Node.leaf k r).Sound text :=
  sound_plain hk hstart hstop fun _ h => nomatch h

theorem laid_plain {c d : Cursor} (hc : On text c) (hd : On text d) (hlt : c.offset < d.offset)
    (hk : k.isPlain = true) (hholds : ∀ n ∈ cs, k.mayHold n.kind = true)
    (hinner : Laid text c.offset cs d.offset) :
    Laid text c.offset [.mk k (c.rangeTo d) cs] d.offset :=
  .cons (Nat.le_refl _) hlt (sound_plain hk hc.boundary hd.boundary hholds) hinner
    (.nil (Nat.le_refl _))

theorem laid_cons_leaf {c d : Cursor} {rest : List Node} {hi : Nat} (hc : On text c)
    (hd : On text d) (hlt : c.offset < d.offset) (hk : k.isPlain = true)
    (hrest : Laid text d.offset rest hi) :
    Laid text c.offset (.leaf k (c.rangeTo d) :: rest) hi :=
  .cons (Nat.le_refl _) hlt (sound_leaf hk hc.boundary hd.boundary) (.nil (Nat.le_of_lt hlt)) hrest

theorem laid_leaf {c d : Cursor} (hc : On text c) (hd : On text d) (hlt : c.offset < d.offset)
    (hk : k.isPlain = true) : Laid text c.offset [.leaf k (c.rangeTo d)] d.offset :=
  laid_cons_leaf hc hd hlt hk (.nil (Nat.le_refl _))

end Nodes

section Extras

variable {text : List Char} {c next : Cursor} {n : Node}

theorem commentBody_front {dashes : Nat} {rest body : List Char}
    (h : commentBody dashes rest = some body) : body <+: rest := by
  induction rest generalizing dashes body with
  | nil => cases h
  | cons c rest ih =>
      rw [commentBody] at h
      split at h
      · next hc =>
        obtain rfl := Option.some.inj h
        exact ⟨rest, by simp [hc.1]⟩
      · obtain ⟨tail, htail, rfl⟩ := Option.map_eq_some_iff.mp h
        obtain ⟨back, hback⟩ := ih htail
        exact ⟨back, by simp [hback]⟩

theorem head?_of_readComment? (h : readComment? c = some (n, next)) :
    c.rest.head? = some '<' := by
  rw [readComment?] at h
  split at h
  · next hstarts =>
    obtain ⟨back, hback⟩ := List.isPrefixOf_iff_prefix.mp hstarts
    rw [← hback]
    rfl
  · cases h

/-- A comment stands between its cursors. -/
theorem readComment?_spec (hc : On text c) (h : readComment? c = some (n, next)) :
    On text next ∧ c.offset < next.offset ∧ n = .leaf .comment (c.rangeTo next) := by
  rw [readComment?] at h
  split at h
  · next hstarts =>
    obtain ⟨body, hbody, heq⟩ := Option.map_eq_some_iff.mp h
    obtain ⟨rfl, rfl⟩ := Prod.mk.inj heq
    obtain ⟨back, hback⟩ := List.isPrefixOf_iff_prefix.mp hstarts
    have hdrop : c.rest.drop "<!--".toList.length = back := by rw [← hback, List.drop_left]
    obtain ⟨more, hmore⟩ := commentBody_front hbody
    have hfront : "<!--".toList ++ body <+: c.rest :=
      ⟨more, by rw [List.append_assoc, hmore, hdrop, hback]⟩
    exact ⟨hc.past hfront, offset_lt_past c (by simp), rfl⟩
  · cases h

/-- Nodes of some kinds that lie one after the other, none of them empty. -/
structure Solid (text : List Char) (p : Kind → Bool) (c : Cursor) (nodes : List Node)
    (next : Cursor) : Prop where
  on : On text next
  laid : Laid text c.offset nodes next.offset
  kinds : ∀ n ∈ nodes, p n.kind = true ∧ n.range.start < n.range.stop

theorem readExtras_spec {fuel : Nat} (hc : On text c) :
    Solid text (· == .comment) c (readExtras fuel c).1 (readExtras fuel c).2 := by
  induction fuel generalizing c with
  | zero => exact ⟨hc, .nil (Nat.le_refl _), by simp [readExtras]⟩
  | succ fuel ih =>
      have hskip := offset_le_skip c isSourceBlank
      rw [readExtras]
      cases hread : readComment? (c.skip isSourceBlank) with
      | none => exact ⟨hc.skip, .nil hskip, by simp⟩
      | some found =>
          obtain ⟨comment, next⟩ := found
          obtain ⟨hnext, hlt, rfl⟩ := readComment?_spec hc.skip hread
          obtain ⟨hlast, hlaid, hkinds⟩ := ih hnext
          refine ⟨hlast, ?_, ?_⟩
          · exact .cons hskip hlt (sound_leaf rfl hc.skip.boundary hnext.boundary)
              (.nil (Nat.le_of_lt hlt)) hlaid
          · rintro n hn
            obtain rfl | hn := List.mem_cons.mp hn
            · exact ⟨rfl, hlt⟩
            · exact hkinds n hn

theorem extras_spec (hc : On text c) :
    Solid text (· == .comment) c (extras c).1 (extras c).2 :=
  readExtras_spec hc

/-- A cursor in front of a text stays where it is. -/
theorem extras_eq {e : Char} {rest : List Char} (h : c.rest = e :: rest)
    (he : startsText e = true) : extras c = ([], c) := by
  have hblank : isSourceBlank e = false := by
    simp only [startsText, Bool.and_eq_true, Bool.not_eq_true'] at he
    exact he.1
  have hskip : c.skip isSourceBlank = c := skip_of_neg h hblank
  have hcomment : readComment? c = none := by
    by_contra hsome
    obtain ⟨⟨n, next⟩, hread⟩ := Option.ne_none_iff_exists'.mp hsome
    have hmark := head?_of_readComment? hread
    rw [h, List.head?_cons] at hmark
    rw [Option.some.inj hmark] at he
    exact absurd he (by decide)
  rw [extras, readExtras, hskip, hcomment]

end Extras

section Attributes

variable {text : List Char} {c next : Cursor} {n : Node}

/-- The value of an attribute between two cursors. -/
structure Value (text : List Char) (c : Cursor) (n : Node) (next : Cursor) : Prop where
  on : On text next
  laid : Laid text c.offset [n] next.offset
  kind : n.kind = .attributeValue ∨ n.kind = .quotedValue
  range : ∀ q r, (Node.mk .attribute q [n]).valueRange? = some r → r.start ∈ boundaries 0 text ∧
    r.stop ∈ boundaries 0 text ∧ c.offset ≤ r.start ∧ r.start ≤ r.stop ∧ r.stop ≤ next.offset

theorem value_leaf (hc : On text c) (hnext : On text next) (hle : c.offset ≤ next.offset) :
    Value text c (.leaf .attributeValue (c.rangeTo next)) next := by
  refine ⟨hnext, ?_, .inl rfl, ?_⟩
  · have hsound : (Node.leaf .attributeValue (c.rangeTo next)).Sound text :=
      sound_leaf rfl hc.boundary hnext.boundary
    obtain hlt | heq := Nat.lt_or_eq_of_le hle
    · exact laid_leaf hc hnext hlt rfl
    · exact .empty (Nat.le_refl _) heq (Nat.le_refl _) hsound rfl
  · rintro q r ⟨⟩
    exact ⟨hc.boundary, hnext.boundary, Nat.le_refl _, hle, Nat.le_refl _⟩

theorem readQuoted?_spec {quote : Char} {rest : List Char} (hc : On text c)
    (hrest : c.rest = quote :: rest) (hquote : quote.utf8Size = 1)
    (h : readQuoted? c quote = some (n, next)) : Value text c n next := by
  simp only [readQuoted?] at h
  generalize hinner : c.tail = inner at h
  generalize hbody : inner.while_ (· != quote) = body at h
  generalize hlast : inner.past body = last at h
  have hi : On text inner := hinner ▸ hc.tail
  have hl : On text last := hlast ▸ hi.past (hbody ▸ List.takeWhile_prefix _)
  have hopen : c.offset + 1 = inner.offset := by
    rw [← hinner, Cursor.tail, hrest, offset_past]
    simp [hquote]
  have hmid : inner.offset + byteSize body = last.offset := by rw [← hlast, offset_past]
  split at h
  · cases h
  · next d back hd =>
    obtain ⟨rfl, rfl⟩ := Prod.mk.inj (Option.some.inj h)
    have hclose : last.offset < last.tail.offset := offset_lt_tail hd
    have hsecond := laid_leaf (k := .mark quote.toString) hl hl.tail hclose rfl
    by_cases hempty : body = []
    · subst hempty
      obtain rfl : inner = last := hlast
      rw [if_pos rfl]
      have hinside := laid_cons_leaf (k := .mark quote.toString) hc hi (by omega) rfl hsecond
      refine ⟨hl.tail, laid_plain hc hl.tail (by omega) rfl ?_ hinside, .inr rfl, ?_⟩
      · simp [Kind.mayHold, Kind.isInner, Kind.isPart, Node.leaf, Node.kind]
      · intro q r hr
        have hmin : min (c.offset + 1) inner.tail.offset = inner.offset := by omega
        obtain rfl : (⟨min (c.offset + 1) inner.tail.offset,
          min (c.offset + 1) inner.tail.offset⟩ : ByteRange) = r := Option.some.inj hr
        rw [hmin]
        exact ⟨hi.boundary, hi.boundary, by simp only; omega, Nat.le_refl _, Nat.le_of_lt hclose⟩
    · rw [if_neg hempty]
      have hsize := byteSize_pos hempty
      have hwhole : inner.rangeOf body = inner.rangeTo last := by rw [Cursor.rangeOf, hlast]
      have hvalue := laid_cons_leaf (k := .attributeValue) hi hl (by omega) rfl hsecond
      have hinside := laid_cons_leaf (k := .mark quote.toString) hc hi (by omega) rfl hvalue
      rw [hwhole]
      refine ⟨hl.tail, laid_plain hc hl.tail (by omega) rfl ?_ hinside, .inr rfl, ?_⟩
      · simp [Kind.mayHold, Kind.isInner, Kind.isPart, Node.leaf, Node.kind]
      · intro q r hr
        obtain rfl : inner.rangeTo last = r := Option.some.inj hr
        simp only [Cursor.rangeTo]
        exact ⟨hi.boundary, hl.boundary, by omega, by omega, Nat.le_of_lt hclose⟩

theorem readValue?_spec (hc : On text c) (h : readValue? c = some (n, next)) :
    ∃ d, On text d ∧ c.offset ≤ d.offset ∧ Value text d n next := by
  rw [readValue?] at h
  split at h
  · cases h
  · next d hhead =>
    obtain ⟨rest, hrest⟩ := List.head?_eq_some_iff.mp hhead
    have hle := offset_le_skip c isSourceBlank
    split at h
    · next hquote =>
      have hsize : d.utf8Size = 1 := by
        obtain rfl | rfl := hquote <;> rfl
      exact ⟨_, hc.skip, hle, readQuoted?_spec hc.skip hrest hsize h⟩
    · split at h
      · obtain ⟨rfl, rfl⟩ := Prod.mk.inj (Option.some.inj h)
        exact ⟨_, hc.skip, hle, value_leaf hc.skip (hc.skip.past (List.takeWhile_prefix _))
          (Nat.le_add_right _ _)⟩
      · obtain ⟨rfl, rfl⟩ := Prod.mk.inj (Option.some.inj h)
        exact ⟨c, hc, Nat.le_refl _, value_leaf hc hc (Nat.le_refl _)⟩

theorem readAttribute?_spec {d : Char} {rest : List Char} (hc : On text c)
    (hrest : c.rest = d :: rest) (hd : isAttributeChar d = true)
    (h : readAttribute? c = some (n, next)) : Solid text (· == .attribute) c [n] next := by
  simp only [readAttribute?] at h
  generalize hname : c.while_ isAttributeChar = name at h
  have hnamed : On text (c.past name) := hc.past (hname ▸ List.takeWhile_prefix _)
  have hlt : c.offset < (c.past name).offset := by
    refine offset_lt_past c ?_
    rw [← hname, Cursor.while_, hrest, List.takeWhile_cons_of_pos hd]
    exact List.cons_ne_nil _ _
  split at h
  · next hsign =>
    obtain ⟨⟨value, after⟩, hvalue, heq⟩ := Option.map_eq_some_iff.mp h
    obtain ⟨rfl, rfl⟩ := Prod.mk.inj heq
    obtain ⟨more, hmore⟩ := List.head?_eq_some_iff.mp hsign
    have hs : On text ((c.past name).skip isSourceBlank) := hnamed.skip
    have hle := offset_le_skip (c.past name) isSourceBlank
    have hmark := offset_lt_tail hmore
    obtain ⟨e, he, hgap, hlast⟩ := readValue?_spec hs.tail hvalue
    have hend := hlast.laid.le
    have htail : ((c.past name).skip isSourceBlank).past "=".toList =
        ((c.past name).skip isSourceBlank).tail := by
      rw [Cursor.tail, hmore]
      rfl
    have hinner : Laid text c.offset [.leaf .attributeName (c.rangeTo (c.past name)),
        .leaf (.mark "=") (((c.past name).skip isSourceBlank).rangeTo
          ((c.past name).skip isSourceBlank).tail), value] after.offset :=
      laid_cons_leaf hc hnamed hlt rfl ((laid_cons_leaf hs hs.tail hmark rfl
        (hlast.laid.mono hgap (Nat.le_refl _))).mono hle (Nat.le_refl _))
    rw [markNode, Cursor.rangeOf, Cursor.rangeOf, htail]
    refine ⟨hlast.on, .cons (Nat.le_refl _) ?_ ?_ hinner (.nil (Nat.le_refl _)), ?_⟩
    · simp only [Node.range, Cursor.rangeTo]
      omega
    · refine ⟨hc.boundary, hlast.on.boundary, ?_, fun h => (nomatch h), fun _ r hr => ?_,
        fun h => (nomatch h)⟩
      · intro m hm
        simp only [Node.children, List.mem_cons, List.not_mem_nil, or_false] at hm
        obtain rfl | rfl | rfl := hm
        · rfl
        · rfl
        · obtain hk | hk := hlast.kind <;> rw [hk] <;> rfl
      · obtain ⟨hstart, hstop, hfrom, hto, hin⟩ := hlast.range (c.rangeTo after) r hr
        exact ⟨hstart, hstop, by simp only [Node.range, Cursor.rangeTo]; omega, hto, hin⟩
    · rintro m hm
      obtain rfl := List.mem_singleton.mp hm
      exact ⟨rfl, by simp only [Node.range, Cursor.rangeTo]; omega⟩
  · obtain ⟨rfl, rfl⟩ := Prod.mk.inj (Option.some.inj h)
    have hinner := laid_leaf (k := .attributeName) hc hnamed hlt rfl
    refine ⟨hnamed, .cons (Nat.le_refl _) hlt ?_ hinner (.nil (Nat.le_refl _)), ?_⟩
    · refine ⟨hc.boundary, hnamed.boundary, ?_, fun h => (nomatch h), fun _ r hr => (nomatch hr),
        fun h => (nomatch h)⟩
      intro m hm
      obtain rfl := List.mem_singleton.mp hm
      rfl
    · intro m hm
      obtain rfl := List.mem_singleton.mp hm
      exact ⟨rfl, hlt⟩

end Attributes

end ComponentAtlas.Markup
