import ComponentAtlas.Proofs.Markup.Tags

/-!
# Reading lays out a tree

The open elements, with the nodes outside all elements, are laid out up to the cursor after each
step of reading, so the document of every text is laid out in the whole text.
-/

namespace ComponentAtlas.Markup

open ComponentAtlas.Text

section Content

variable {text : List Char} {c next : Cursor} {n : Node}

/-- What is added to a document: a node of its content that is not empty. -/
def Content (n : Node) : Prop :=
  n.kind.isContent = true ∧ n.range.start < n.range.stop

/-- The open elements, innermost first, and the nodes outside them are laid out up to an offset. -/
def Stacked (text : List Char) (top : List Node) : List Frame → Nat → Prop
  | [], o => Laid text 0 top.reverse o ∧ ∀ n ∈ top, Content n
  | f :: outer, o => f.head.kind = .startTag ∧ f.head.range.start < f.head.range.stop ∧
      Laid text f.head.range.start (f.head :: f.children.reverse) o ∧
      (∀ n ∈ f.children, Content n) ∧ Stacked text top outer f.head.range.start

/-- What was read so far is laid out up to an offset. -/
def Progress.Fits (text : List Char) (p : Progress) (o : Nat) : Prop :=
  Stacked text p.top p.frames o

theorem Progress.Fits.mono {p : Progress} {o o' : Nat} (h : p.Fits text o) (hle : o ≤ o') :
    p.Fits text o' := by
  obtain ⟨frames, top⟩ := p
  cases frames with
  | nil => exact ⟨h.1.mono (Nat.le_refl _) hle, h.2⟩
  | cons f outer =>
      obtain ⟨hkind, hlt, hlaid, hrest⟩ := h
      exact ⟨hkind, hlt, hlaid.mono (Nat.le_refl _) hle, hrest⟩

theorem Progress.Fits.add {p : Progress} {o o' : Nat} (h : p.Fits text o)
    (hn : Laid text o [n] o') (hcontent : Content n) : (p.add n).Fits text o' := by
  obtain ⟨frames, top⟩ := p
  cases frames with
  | nil =>
      obtain ⟨hlaid, htop⟩ := h
      refine ⟨?_, List.forall_mem_cons.mpr ⟨hcontent, htop⟩⟩
      simp only [Progress.add, List.reverse_cons]
      exact hlaid.append (fun m hm => (htop m (List.mem_reverse.mp hm)).2) hn
  | cons f outer =>
      obtain ⟨hkind, hlt, hlaid, hchildren, houter⟩ := h
      refine ⟨hkind, hlt, ?_, List.forall_mem_cons.mpr ⟨hcontent, hchildren⟩, houter⟩
      simp only [List.reverse_cons, ← List.cons_append]
      refine hlaid.append (fun m hm => ?_) hn
      obtain rfl | hm := List.mem_cons.mp hm
      · exact hlt
      · exact (hchildren m (List.mem_reverse.mp hm)).2

theorem Progress.Fits.addSolid {p : Progress} (h : p.Fits text c.offset)
    (hn : Solid text Kind.isContent c [n] next) : (p.add n).Fits text next.offset :=
  h.add hn.laid (hn.kinds n (List.mem_singleton_self n))

theorem Progress.Fits.push {p : Progress} {name : TagName} {head : Node}
    (h : p.Fits text c.offset) (hhead : Solid text (· == .startTag) c [head] next)
    (hstart : head.range.start = c.offset) :
    (⟨⟨name, head, []⟩ :: p.frames, p.top⟩ : Progress).Fits text next.offset := by
  obtain ⟨hkind, hlt⟩ := hhead.kinds head (List.mem_singleton_self head)
  refine ⟨eq_of_beq hkind, hlt, ?_, fun n hn => (nomatch hn), ?_⟩
  · rw [hstart]
    exact hhead.laid
  · rw [hstart]
    exact h

/-- Ending the innermost element makes it a node of what is around it. -/
theorem Progress.Fits.close {p : Progress} {f : Frame} {outer : List Frame} {o stop : Nat}
    {last : List Node} (hframes : p.frames = f :: outer) (h : p.Fits text o)
    (hlast : Laid text o last stop) (hkinds : ∀ n ∈ last, n.kind = .endTag)
    (hstop : stop ∈ boundaries 0 text) : (p.close stop last).Fits text stop := by
  obtain ⟨frames, top⟩ := p
  obtain rfl : frames = f :: outer := hframes
  obtain ⟨hkind, hlt, hlaid, hchildren, houter⟩ := h
  have hinner : Laid text f.head.range.start (f.head :: f.children.reverse ++ last) stop := by
    refine hlaid.append (fun m hm => ?_) hlast
    obtain rfl | hm := List.mem_cons.mp hm
    · exact hlt
    · exact (hchildren m (List.mem_reverse.mp hm)).2
  obtain ⟨-, hhi, hhead, -⟩ := hinner.of_mem (List.mem_cons_self ..)
  have hsize : f.head.range.start < stop := by omega
  have hholds : ∀ m ∈ f.head :: f.children.reverse ++ last,
      Kind.element.mayHold m.kind = true := by
    intro m hm
    simp only [List.cons_append, List.mem_cons, List.mem_append, List.mem_reverse] at hm
    obtain rfl | hm | hm := hm
    · rw [hkind]
      rfl
    · simp [Kind.mayHold, (hchildren m hm).1]
    · rw [hkinds m hm]
      rfl
  have helement : Laid text f.head.range.start [f.element stop last] stop :=
    .cons (Nat.le_refl _) hsize (sound_plain rfl hhead.start hstop hholds) hinner
      (.nil (Nat.le_refl _))
  exact Progress.Fits.add (p := ⟨outer, top⟩) houter helement ⟨rfl, hsize⟩

end Content

section Steps

variable {text : List Char} {c word : Cursor} {p : Progress} {letters : List Char}

/-- A step that reads on: its nodes fit up to the cursor behind it. -/
def Advances (text : List Char) (r : Progress × Cursor) : Prop :=
  On text r.2 ∧ r.1.Fits text r.2.offset

theorem advances_add {n : Node} {next : Cursor} {k : Kind} (h : p.Fits text c.offset)
    (hn : Solid text (· == k) c [n] next) (hk : k.isContent = true) :
    Advances text (p.add n, next) :=
  ⟨hn.on, h.addSolid (hn.imp fun l hl => by rw [eq_of_beq hl, hk])⟩

/-- A start tag is the head of a raw element, or it opens an element. -/
theorem advances_head {head : Node} {next : Cursor} {name : TagName} (hc : On text c)
    (h : p.Fits text c.offset) (hhead : Solid text (· == .startTag) c [head] next)
    (hstart : head.range.start = c.offset) :
    Advances text (if (name == "SCRIPT" || name == "STYLE") = true then
      (p.add
        (readRaw (if name = "SCRIPT" then .scriptElement else .styleElement) name c head next).1,
        (readRaw (if name = "SCRIPT" then .scriptElement else .styleElement) name c head next).2)
      else (⟨⟨name, head, []⟩ :: p.frames, p.top⟩, next)) := by
  split
  · next hraw =>
    simp only [Bool.or_eq_true, beq_iff_eq] at hraw
    have hkind : (if name = "SCRIPT" then Kind.scriptElement else .styleElement) = .scriptElement ∨
        (if name = "SCRIPT" then Kind.scriptElement else .styleElement) = .styleElement := by
      split
      · exact .inl rfl
      · exact .inr rfl
    have hnode := readRaw_spec hc hhead hkind hraw
    exact ⟨hnode.on, h.addSolid hnode⟩
  · exact ⟨hhead.on, h.push hhead hstart⟩

theorem readStartTag_spec (h : p.Fits text c.offset) (hopen : Opened text c word letters) :
    Advances text (readStartTag p c word letters) := by
  obtain ⟨hnamed, hlt, hlaid⟩ := hopen.named
  simp only [readStartTag]
  generalize hread : readTagRest _ _ (word.past letters) = found
  obtain ⟨parts, ending, next⟩ := found
  have hrest := readTagRest_spec hnamed hread
  have hparts : markNode c "<" :: .leaf .tagName (word.rangeOf letters) :: parts =
    tagParts c word letters parts := rfl
  simp only [hparts]
  have hkinds := isPart_of_mem_tagParts (c := c) hrest
  have hfirst : (markNode c "<").range.start < (markNode c "<").range.stop :=
    offset_lt_past c (by simp)
  cases ending with
  | unfinished =>
      exact advances_add h (solid_span hopen.on hrest.on (hlaid hrest.laid) hfirst rfl hkinds) rfl
  | selfClosed =>
      obtain ⟨hspan, htag⟩ := solid_tag (k := .selfClosingTag) hopen hrest rfl (by simp)
      rw [hspan]
      refine advances_add h (htag.node hopen.on rfl fun l hl => ?_) rfl
      rw [eq_of_beq hl]
      rfl
  | closed =>
      obtain ⟨hspan, htag⟩ := solid_tag (k := .startTag) hopen hrest rfl (by simp)
      rw [hspan]
      exact advances_head hopen.on h htag rfl
  | cut =>
      obtain ⟨hspan, htag⟩ := solid_tag (k := .startTag) hopen hrest rfl (by simp)
      rw [hspan]
      exact advances_head hopen.on h htag rfl

theorem strayMark_spec {sign : String} (hc : On text c) (h : p.Fits text c.offset)
    (hsign : sign.toList <+: c.rest) (hne : sign.toList ≠ []) :
    Advances text (strayMark p c sign) := by
  have hnext := hc.past hsign
  have hlt := offset_lt_past c hne
  have hmark : Solid text Kind.isPart c [markNode c sign] (c.past sign.toList) :=
    solid_leaf hc hnext hlt rfl rfl
  exact advances_add h (hmark.node hc rfl fun l hl => hl) rfl

theorem trimEnd_cons {q : Char → Bool} {e : Char} (he : q e = false) (run : List Char) :
    ∃ body, trimEnd q (e :: run) = e :: body := by
  rw [trimEnd]
  split
  · exact ⟨[], by simp [he]⟩
  · exact ⟨_, rfl⟩

/-- The run of a text goes on up to a mark. -/
def isRunChar (d : Char) : Bool :=
  d != '<' && d != '>' && d != '&'

theorem startsText_iff {d : Char} : startsText d = true ↔
    isSourceBlank d = false ∧ isRunChar d = true := by
  simp [startsText, isRunChar]
  tauto

theorem readText_spec {e : Char} {rest : List Char} (hc : On text c) (h : p.Fits text c.offset)
    (hrest : c.rest = e :: rest) (he : startsText e = true) : Advances text (readText p c) := by
  obtain ⟨hblank, hchar⟩ := startsText_iff.mp he
  have hread : readText p c = (p.add (.leaf .text
      (c.rangeOf (trimEnd isSourceBlank (c.while_ isRunChar)))), c.past (c.while_ isRunChar)) := rfl
  rw [hread]
  have hwhile : c.while_ isRunChar = e :: rest.takeWhile isRunChar := by
    rw [Cursor.while_, hrest, List.takeWhile_cons_of_pos hchar]
  obtain ⟨body, hbody⟩ := trimEnd_cons hblank (rest.takeWhile isRunChar)
  obtain ⟨blanks, hrun, hblanks⟩ := exists_trimEnd isSourceBlank (c.while_ isRunChar)
  rw [← hwhile] at hbody
  generalize htrim : trimEnd isSourceBlank (c.while_ isRunChar) = trimmed at *
  have hfront : trimmed <+: c.while_ isRunChar := ⟨blanks, hrun.symm⟩
  have hstop : On text (c.past trimmed) := hc.past (hfront.trans (List.takeWhile_prefix _))
  have hnext : On text (c.past (c.while_ isRunChar)) := hc.past (List.takeWhile_prefix _)
  have hlt : c.offset < (c.past trimmed).offset :=
    offset_lt_past c (hbody ▸ List.cons_ne_nil e body)
  have hle : (c.past trimmed).offset ≤ (c.past (c.while_ isRunChar)).offset := by
    rw [offset_past, offset_past, hrun, byteSize_append]
    omega
  have hend : NoText text (c.past trimmed).offset := by
    refine noText_of_head hstop fun d hd => ?_
    by_contra hstarts
    obtain ⟨hd₁, hd₂⟩ := startsText_iff.mp (by simpa using hstarts)
    have hrest' : (c.past trimmed).rest = blanks ++ c.rest.dropWhile isRunChar := by
      have hsplit : c.rest = trimmed ++ (blanks ++ c.rest.dropWhile isRunChar) := by
        rw [← List.append_assoc, ← hrun, Cursor.while_, List.takeWhile_append_dropWhile]
      show c.rest.drop trimmed.length = _
      conv_lhs => rw [hsplit]
      exact List.drop_left
    rw [hrest'] at hd
    cases blanks with
    | nil =>
        have := List.head?_dropWhile_not isRunChar c.rest
        rw [List.nil_append, Option.mem_def] at hd
        rw [hd] at this
        exact absurd hd₂ (by simp [this])
    | cons b blanks =>
        obtain rfl : b = d := Option.some.inj hd
        exact absurd (hblanks b (List.mem_cons_self ..)) (by simp [hd₁])
  have hsound : (Node.leaf .text (c.rangeOf trimmed)).Sound text :=
    ⟨hc.boundary, hstop.boundary, fun _ hm => (by cases hm),
      fun _ => ⟨hlt, textAt_of_head hc hrest he, hend⟩, fun hk => (by cases hk),
      fun hk => (by cases hk)⟩
  have hlaid : Laid text c.offset [.leaf .text (c.rangeOf trimmed)] (c.past trimmed).offset :=
    .cons (Nat.le_refl _) hlt hsound (.nil (Nat.le_of_lt hlt)) (.nil (Nat.le_refl _))
  exact ⟨hnext, (h.add hlaid ⟨rfl, hlt⟩).mono hle⟩

/-- The characters up to a limit that pass a test. -/
theorem limited_front (q : Char → Bool) (limit : Nat) (cs : List Char) :
    (cs.takeWhile q).take limit <+: cs :=
  (List.take_prefix _ _).trans (List.takeWhile_prefix q)

theorem semicolon_front {body rest : List Char} (h : body <+: rest) :
    (if body = [] then [] else if (rest.drop body.length).head? = some ';' then body ++ [';']
      else body) <+: rest := by
  split
  · exact List.nil_prefix
  · split
    · next hsemicolon =>
      obtain ⟨back, rfl⟩ := h
      rw [List.drop_left] at hsemicolon
      obtain ⟨more, rfl⟩ := List.head?_eq_some_iff.mp hsemicolon
      exact ⟨more, by simp⟩
    · exact h

theorem entityBody_front (rest : List Char) : entityBody rest <+: rest := by
  simp only [entityBody]
  apply semicolon_front
  split
  · next x rest =>
    split
    · split
      · exact List.nil_prefix
      · exact List.cons_prefix_cons.mpr ⟨rfl, List.cons_prefix_cons.mpr
          ⟨rfl, limited_front _ 6 rest⟩⟩
    · split
      · exact List.nil_prefix
      · exact List.cons_prefix_cons.mpr ⟨rfl, limited_front _ 5 (x :: rest)⟩
  · exact limited_front _ 30 rest

theorem readEntity_spec {rest : List Char} (hc : On text c) (h : p.Fits text c.offset)
    (hrest : c.rest = '&' :: rest) : Advances text (readEntity p c) := by
  have htail : c.tail.rest = rest := by
    rw [Cursor.tail, hrest, Cursor.past, hrest]
    rfl
  simp only [readEntity, htail]
  split
  · exact advances_add h (solid_leaf (k := .error) hc hc.tail (offset_lt_tail hrest) rfl
      (beq_self_eq_true _)) rfl
  · have hfront : '&' :: entityBody rest <+: c.rest := by
      rw [hrest]
      exact List.cons_prefix_cons.mpr ⟨rfl, entityBody_front rest⟩
    have hlt := offset_lt_past c (List.cons_ne_nil '&' (entityBody rest))
    exact advances_add h (solid_leaf (k := .entity) hc (hc.past hfront) hlt rfl
      (beq_self_eq_true _)) rfl

theorem readDoctype?_spec {n : Node} {next : Cursor} {rest : List Char} (hc : On text c)
    (hrest : c.rest = '<' :: '!' :: rest) (h : readDoctype? c = some (n, next)) :
    Solid text (· == .doctype) c [n] next := by
  simp only [readDoctype?] at h
  have hopen : On text (c.past ['<', '!']) := hc.past ⟨rest, hrest.symm⟩
  have hmark : markNode c "<!" = .leaf (.mark "<!") (c.rangeTo (c.past ['<', '!'])) := rfl
  have h₁ : c.offset < (c.past ['<', '!']).offset := offset_lt_past c (by simp)
  have h₂ := offset_le_skip (c.past ['<', '!']) isSourceBlank
  rw [hmark] at h
  have hword := hopen.skip (p := isSourceBlank)
  generalize (c.past ['<', '!']).skip isSourceBlank = word at *
  split at h
  · next hletters =>
    have hnamed : On text (word.past (word.rest.take 7)) := hword.past (List.take_prefix 7 _)
    have hne : word.rest.take 7 ≠ [] := fun hnil => by
      rw [hnil] at hletters
      cases hletters
    have h₃ := offset_lt_past word hne
    have hname : word.rangeOf (word.rest.take 7) = word.rangeTo (word.past (word.rest.take 7)) :=
      rfl
    rw [hname] at h
    generalize word.past (word.rest.take 7) = named at *
    have hbody := hnamed.skip (p := (· != '>'))
    have h₄ := offset_le_skip named (· != '>')
    generalize named.skip (· != '>') = body at *
    split at h
    · next hend =>
      obtain ⟨more, hmore⟩ := List.head?_eq_some_iff.mp hend.2
      have hclose : markNode body ">" = .leaf (.mark ">") (body.rangeTo body.tail) := by
        rw [markNode, Cursor.rangeOf, Cursor.tail, hmore]
        rfl
      rw [hclose] at h
      obtain ⟨rfl, rfl⟩ := Prod.mk.inj (Option.some.inj h)
      have h₅ := offset_lt_tail hmore
      have hlast := laid_leaf (k := .mark ">") hbody hbody.tail h₅ rfl
      have hlaid := laid_cons_leaf (k := .mark "<!") hc hopen h₁ rfl
        ((laid_cons_leaf (k := .mark "doctype") hword hnamed h₃ rfl
          (hlast.mono h₄ (Nat.le_refl _))).mono h₂ (Nat.le_refl _))
      refine ⟨hbody.tail, laid_plain hc hbody.tail (by omega) rfl ?_ hlaid, fun m hm => ?_⟩
      · simp [Kind.mayHold, Kind.isPart, Node.leaf, Node.kind]
      · obtain rfl := List.mem_singleton.mp hm
        exact ⟨rfl, by simp only [Node.range, Cursor.rangeTo]; omega⟩
    · cases h
  · cases h

theorem closeTag_spec {name : TagName} {rest : List Char} (hc : On text c)
    (h : p.Fits text c.offset) (hrest : c.rest = '<' :: '/' :: rest)
    (hname : ((c.past ['<', '/']).skip isSourceBlank).while_ TagName.isNameChar ≠ []) :
    Advances text (closeTag p c name) := by
  rw [closeTag]
  split
  · next hopen =>
    obtain ⟨names, hnames⟩ := List.head?_eq_some_iff.mp hopen
    obtain ⟨f, outer, hframes, -, -⟩ := List.map_eq_cons_iff.mp hnames
    have hend := readEndTag_spec (k := .tagName) hc hrest hname (.inl rfl)
    generalize readEndTag .tagName c = found at *
    obtain ⟨parts, next⟩ := found
    obtain ⟨first, others, rfl, hfirst⟩ := hend.first
    have hending := solid_span hc hend.on hend.laid hfirst rfl hend.kinds
    obtain ⟨hlaid, hle⟩ := hending.laid.to_last (n := .mk .endTag _ _) rfl
    obtain ⟨-, -, hsound, -⟩ := hending.laid.of_mem (List.mem_singleton_self _)
    refine ⟨hend.on, (Progress.Fits.close hframes h hlaid (fun n hn => ?_) hsound.stop).mono hle⟩
    obtain rfl := List.mem_singleton.mp hn
    rfl
  · have hend := readEndTag_spec (k := .strayTagName) hc hrest hname (.inr rfl)
    generalize readEndTag .strayTagName c = found at *
    obtain ⟨parts, next⟩ := found
    obtain ⟨first, others, rfl, hfirst⟩ := hend.first
    exact advances_add h (solid_span (k := .strayEndTag) hc hend.on hend.laid hfirst rfl hend.kinds)
      rfl

theorem readBracket_spec {rest : List Char} (hc : On text c) (h : p.Fits text c.offset)
    (hrest : c.rest = '<' :: rest) : Advances text (readBracket p c) := by
  rw [readBracket]
  split
  · next comment next hread =>
    obtain ⟨hnext, hlt, rfl⟩ := readComment?_spec hc hread
    exact advances_add (k := .comment) h (solid_leaf hc hnext hlt rfl rfl) rfl
  · split
    · next more hmore =>
      split
      · next n next hread => exact advances_add h (readDoctype?_spec hc hmore hread) rfl
      · exact strayMark_spec hc h ⟨more, hmore.symm⟩ (by simp)
    · next more hmore =>
      dsimp only
      split
      · exact strayMark_spec hc h ⟨more, hmore.symm⟩ (by simp)
      · next hname => exact closeTag_spec hc h hmore hname
    · dsimp only
      split
      · exact strayMark_spec hc h ⟨rest, hrest.symm⟩ (by simp)
      · next hname =>
        exact readStartTag_spec h ⟨hc, ⟨rest, hrest⟩, rfl, List.takeWhile_prefix _, hname⟩

end Steps

section Documents

variable {text : List Char} {c : Cursor} {p : Progress}

theorem Progress.Fits.top {o : Nat} (h : p.Fits text o) :
    Laid text 0 p.top.reverse o ∧ ∀ n ∈ p.top, Content n := by
  obtain ⟨frames, top⟩ := p
  induction frames generalizing o with
  | nil => exact h
  | cons f outer ih =>
      obtain ⟨-, hlt, hlaid, -, houter⟩ := h
      obtain ⟨htop, hcontent⟩ := ih houter
      exact ⟨htop.mono (Nat.le_refl _) hlaid.le, hcontent⟩

/-- The end of what an open element holds so far. -/
theorem Progress.Fits.contentEnd {f : Frame} {outer : List Frame} {o : Nat}
    (hframes : p.frames = f :: outer) (h : p.Fits text o) :
    p.Fits text f.contentEnd ∧ f.contentEnd ≤ o ∧ f.contentEnd ∈ boundaries 0 text := by
  obtain ⟨frames, top⟩ := p
  obtain rfl : frames = f :: outer := hframes
  obtain ⟨hkind, hlt, hlaid, hchildren, houter⟩ := h
  obtain ⟨n, hn, hend⟩ : ∃ n ∈ (f.head :: f.children.reverse).getLast?,
      f.contentEnd = n.range.stop := by
    rw [Frame.contentEnd]
    split
    · next hempty => exact ⟨f.head, by rw [hempty]; rfl, rfl⟩
    · next last more hmore =>
      refine ⟨last, ?_, rfl⟩
      rw [hmore, List.reverse_cons, ← List.cons_append, List.getLast?_append]
      rfl
  obtain ⟨htrimmed, hle⟩ := hlaid.to_last hn
  rw [hend]
  exact ⟨⟨hkind, hlt, htrimmed, hchildren, houter⟩, hle,
    (hlaid.of_mem (List.mem_of_getLast? hn)).2.2.1.stop⟩

theorem readContent_spec {fuel : Nat} (hc : On text c) (h : p.Fits text c.offset) :
    Laid text 0 (readContent fuel p c) (byteSize text) ∧
      ∀ n ∈ readContent fuel p c, Content n := by
  have hdone : ∀ {p : Progress} {c : Cursor}, On text c → p.Fits text c.offset →
      Laid text 0 p.top.reverse (byteSize text) ∧ ∀ n ∈ p.top.reverse, Content n := by
    intro p c hc h
    obtain ⟨hlaid, hcontent⟩ := h.top
    exact ⟨hlaid.mono (Nat.le_refl _) hc.offset_le, fun n hn =>
      hcontent n (List.mem_reverse.mp hn)⟩
  induction fuel generalizing p c with
  | zero => exact hdone hc h
  | succ fuel ih =>
      rw [readContent]
      have hs : On text (c.skip isSourceBlank) := hc.skip
      replace h := h.mono (offset_le_skip c isSourceBlank)
      generalize hskip : c.skip isSourceBlank = d at *
      simp only
      have hclose : (p.close d.offset []).Fits text d.offset := by
        cases hframes : p.frames with
        | nil => simpa only [Progress.close, hframes] using h
        | cons f outer =>
            exact Progress.Fits.close hframes h (.nil (Nat.le_refl _)) (fun n hn => nomatch hn)
              hs.boundary
      split
      · split
        · exact hdone hs h
        · next f outer hframes =>
          split
          · exact ih hs hclose
          · obtain ⟨hfits, hle, hboundary⟩ := h.contentEnd hframes
            exact ih hs ((Progress.Fits.close hframes hfits (.nil (Nat.le_refl _))
              (fun n hn => nomatch hn) hboundary).mono hle)
      · next rest hrest =>
        split
        · exact ih hs hclose
        · obtain ⟨hon, hfits⟩ := readBracket_spec hs h hrest
          exact ih hon hfits
      · next rest hrest =>
        have hmark : ">".toList <+: d.rest := ⟨rest, hrest.symm⟩
        obtain ⟨hon, hfits⟩ := strayMark_spec hs h hmark (by simp)
        exact ih hon hfits
      · next rest hrest =>
        obtain ⟨hon, hfits⟩ := readEntity_spec hs h hrest
        exact ih hon hfits
      · next e rest h₁ h₂ h₃ hrest =>
        have he : startsText e = true := by
          refine startsText_iff.mpr ⟨?_, ?_⟩
          · have := List.head?_dropWhile_not isSourceBlank c.rest
            rw [← rest_skip, hskip, hrest] at this
            exact this
          · simp only [isRunChar, Bool.and_eq_true, bne_iff_ne]
            exact ⟨⟨h₁, h₂⟩, h₃⟩
        obtain ⟨hon, hfits⟩ := readText_spec hs h hrest he
        exact ih hon hfits

/-- The document of every text is laid out in the text. -/
theorem readNode_formed (text : List Char) : (readNode text).Formed text := by
  have hstart : On text (.start text) := ⟨[], rfl, rfl⟩
  have hempty : Progress.start.Fits text (Cursor.start text).offset :=
    ⟨.nil (Nat.le_refl _), fun n hn => nomatch hn⟩
  obtain ⟨hlaid, hcontent⟩ := readContent_spec hstart hempty
  rw [readNode]
  generalize readContent (2 * text.length + 2) .start (.start text) = nodes at *
  refine ⟨rfl, ?_, fun n hn => (hcontent n hn).1⟩
  cases nodes with
  | nil => exact .nil (Nat.le_refl _)
  | cons n rest =>
      cases hlaid with
      | empty _ hempty hhi hn hleaf => exact .empty (Nat.le_refl _) hempty hhi hn hleaf
      | cons _ hlt hn hinner hrest => exact .cons (Nat.le_refl _) hlt hn hinner hrest

end Documents

end ComponentAtlas.Markup
