import ComponentAtlas.Proofs.Markup.Trees

/-!
# Shapes of nodes

The kind of a node lays down the kinds of its children: those with which they begin, and those that
may follow. An element begins with its tag and has no other one. The name of an attribute begins an
attribute, and attributes follow in tags and in tags that were left unfinished. Reading gives every
node its shape.
-/

namespace ComponentAtlas.Markup

open ComponentAtlas.Text

namespace Kind

/-- The kinds that stand in the value of an attribute or in front of it. -/
def isValue : Kind → Bool
  | .mark _ | .attributeValue | .quotedValue => true
  | _ => false

/-- The kinds that stand in an end tag or a document type. -/
def isEndPart : Kind → Bool
  | .mark _ | .tagName | .strayTagName | .comment => true
  | _ => false

/-- The kinds with which the children of a node begin. -/
def isFront : Kind → List Kind → Bool
  | .element, front => front.length == 1 && front.all isTag
  | .scriptElement, front | .styleElement, front => front == [.startTag]
  | .startTag, front | .selfClosingTag, front => front == [.mark "<", .tagName]
  | .attribute, front => front == [.attributeName]
  | _, front => front == []

/-- The kinds that may follow behind the first children of a node. -/
def mayFollow : Kind → Kind → Bool
  | .document, k => k.isContent
  | .element, k => k.isContent || k == .endTag
  | .scriptElement, k | .styleElement, k => k == .rawText || k == .endTag
  | .startTag, k | .selfClosingTag, k | .error, k => k.isPart
  | .endTag, k | .strayEndTag, k | .doctype, k => k.isEndPart
  | .attribute, k | .quotedValue, k => k.isValue
  | _, _ => false

theorem eq_attribute_of_name {k : Kind} {front : List Kind} (h : k.isFront front = true)
    (hname : .attributeName ∈ front ∨ k.mayFollow .attributeName = true) : k = .attribute := by
  cases k <;> simp_all [isFront, mayFollow, isContent, isPart, isEndPart, isValue]
  exact absurd (h.2 _ hname) Bool.false_ne_true

theorem holder_of_attribute {k : Kind} {front : List Kind} (h : k.isFront front = true)
    (hattribute : .attribute ∈ front ∨ k.mayFollow .attribute = true) :
    k.isTag = true ∨ k = .error := by
  cases k <;> simp_all [isFront, mayFollow, isContent, isPart, isEndPart, isValue, isTag]
  exact absurd (h.2 _ hattribute) Bool.false_ne_true

theorem ne_of_isTag {k l : Kind} (h : k.isTag = true) (hl : l.isTag = false) : k ≠ l := by
  rintro rfl
  exact absurd (h.symm.trans hl) (by decide)

theorem not_mayFollow_tag {k tag : Kind} (htag : tag.isTag = true) : k.mayFollow tag = false := by
  cases tag <;> simp only [isTag, Bool.false_eq_true] at htag <;> cases k <;> rfl

/-- A tag begins an element, a script or a style sheet. -/
theorem eq_front_of_tag {k tag : Kind} {front : List Kind} (htag : tag.isTag = true)
    (h : k.isFront front = true) (hmem : tag ∈ front) :
    front = [tag] ∧ (k = .element ∨ k = .scriptElement ∨ k = .styleElement) := by
  cases k
  case element =>
    simp only [isFront, Bool.and_eq_true, beq_iff_eq] at h
    obtain ⟨l, rfl⟩ := List.length_eq_one_iff.mp h.1
    exact ⟨by rw [List.mem_singleton.mp hmem], .inl rfl⟩
  case scriptElement | styleElement =>
    obtain rfl : front = [.startTag] := eq_of_beq h
    exact ⟨by rw [List.mem_singleton.mp hmem], by simp⟩
  all_goals
    have hnone : ∀ l ∈ front, l.isTag = false := by
      obtain rfl := eq_of_beq h
      simp [isTag]
    exact absurd htag (by simp [hnone tag hmem])

end Kind

/-- A node whose children have the kinds that its own kind lays down, and likewise below it. -/
inductive Node.Shaped : Node → Prop where
  | mk {k : Kind} {r : ByteRange} {front back : List Node}
      (hfront : k.isFront (front.map Node.kind) = true)
      (hback : ∀ c ∈ back, k.mayFollow c.kind = true) (hall : ∀ c ∈ front ++ back, c.Shaped) :
      Shaped (.mk k r (front ++ back))

namespace Node.Shaped

variable {n c x : Node}

theorem of_mem (h : n.Shaped) (hc : c ∈ n.children) : c.Shaped := by
  cases h with
  | mk _ _ hall => exact hall c hc

theorem of_within (h : n.Shaped) (hx : n.Within x) : x.Shaped := by
  induction hx with
  | self => exact h
  | child _ hc ih => exact ih.of_mem hc

/-- A child is of a kind with which the children begin, or which may follow. -/
theorem exists_front (h : n.Shaped) (hc : c ∈ n.children) : ∃ front,
    n.kind.isFront front = true ∧ (c.kind ∈ front ∨ n.kind.mayFollow c.kind = true) := by
  cases h with
  | mk hfront hback _ =>
      refine ⟨_, hfront, (List.mem_append.mp hc).imp (List.mem_map_of_mem) (hback c)⟩

/-- The name of an attribute stands in an attribute. -/
theorem attribute_of_name (h : n.Shaped) (hc : c ∈ n.children) (hkind : c.kind = .attributeName) :
    n.kind = .attribute := by
  obtain ⟨front, hfront, hmem⟩ := h.exists_front hc
  exact Kind.eq_attribute_of_name hfront (hkind ▸ hmem)

/-- An attribute stands in a tag, or in one that was left unfinished. -/
theorem holder_of_attribute (h : n.Shaped) (hc : c ∈ n.children) (hkind : c.kind = .attribute) :
    n.kind.isTag = true ∨ n.kind = .error := by
  obtain ⟨front, hfront, hmem⟩ := h.exists_front hc
  exact Kind.holder_of_attribute hfront (hkind ▸ hmem)

/-- A tag is the first child of its element, script or style sheet, and the only tag there. -/
theorem startTag?_of_tag (h : n.Shaped) (hc : c ∈ n.children) (htag : c.kind.isTag = true) :
    n.startTag? = some c ∧
      (n.kind = .element ∨ n.kind = .scriptElement ∨ n.kind = .styleElement) := by
  cases h with
  | @mk k r front back hfront hback hall =>
      have hnot : c ∉ back := fun hmem => by
        simpa [Kind.not_mayFollow_tag htag] using hback c hmem
      have hmem : c ∈ front := (List.mem_append.mp hc).resolve_right hnot
      obtain ⟨hkinds, hkind⟩ := Kind.eq_front_of_tag htag hfront (List.mem_map_of_mem hmem)
      refine ⟨?_, hkind⟩
      obtain ⟨d, rfl⟩ := List.length_eq_one_iff.mp ((List.length_map _).symm.trans
        (congrArg List.length hkinds))
      obtain rfl := List.mem_singleton.mp hmem
      rw [startTag?, children, List.singleton_append, List.find?_cons_of_pos]
      cases hk : c.kind <;> simp_all [Kind.isTag, is]

/-- An element begins with its tag. -/
theorem exists_tag (h : n.Shaped) (hkind : n.kind = .element) :
    ∃ t ∈ n.children, t.kind.isTag = true := by
  cases h with
  | @mk k r front back hfront hback hall =>
      obtain rfl : k = .element := hkind
      simp only [Kind.isFront, Bool.and_eq_true, beq_iff_eq, List.length_map] at hfront
      obtain ⟨t, rfl⟩ := List.length_eq_one_iff.mp hfront.1
      exact ⟨t, List.mem_cons_self, by simpa using hfront.2⟩

/-- A tag has a name. -/
theorem exists_tagName (h : n.Shaped) (htag : n.kind.isTag = true) :
    ∃ name, n.child? .tagName = some name := by
  cases h with
  | @mk k r front back hfront hback hall =>
      have hkinds : front.map kind = [.mark "<", .tagName] := by
        change k.isTag = true at htag
        cases k <;> simp_all [Kind.isTag, Kind.isFront]
      obtain ⟨name, hname, hkind⟩ : ∃ name ∈ front, name.kind = .tagName :=
        List.mem_map.mp (by simp [hkinds])
      rw [← Option.isSome_iff_exists, child?, List.find?_isSome]
      exact ⟨name, List.mem_append_left back hname, beq_iff_eq.mpr hkind⟩

end Node.Shaped

/-- Shaped nodes of some kinds. -/
def Parts (p : Kind → Bool) (nodes : List Node) : Prop :=
  ∀ n ∈ nodes, n.Shaped ∧ p n.kind = true

section Parts

variable {p q : Kind → Bool} {k : Kind} {r : ByteRange} {n : Node} {nodes more : List Node}

theorem Parts.nil : Parts p [] :=
  fun _ h => nomatch h

theorem Parts.cons (h : n.Shaped) (hn : p n.kind = true) (hmore : Parts p more) :
    Parts p (n :: more) :=
  List.forall_mem_cons.mpr ⟨⟨h, hn⟩, hmore⟩

theorem Parts.append (h : Parts p nodes) (hmore : Parts p more) : Parts p (nodes ++ more) :=
  List.forall_mem_append.mpr ⟨h, hmore⟩

theorem Parts.imp (h : Parts p nodes) (hpq : ∀ k, p k = true → q k = true) : Parts q nodes :=
  fun n hn => ⟨(h n hn).1, hpq _ (h n hn).2⟩

theorem Parts.reverse (h : Parts p nodes) : Parts p nodes.reverse :=
  fun n hn => h n (List.mem_reverse.mp hn)

theorem shaped_front (front back : List Node) (hfront : k.isFront (front.map Node.kind) = true)
    (hshaped : ∀ c ∈ front, c.Shaped) (hback : Parts k.mayFollow back) :
    (Node.mk k r (front ++ back)).Shaped :=
  .mk hfront (fun c hc => (hback c hc).2)
    (List.forall_mem_append.mpr ⟨hshaped, fun c hc => (hback c hc).1⟩)

theorem Parts.shaped (h : Parts k.mayFollow nodes) (hk : k.isFront [] = true) :
    (Node.mk k r nodes).Shaped :=
  shaped_front [] nodes hk (List.forall_mem_nil _) h

theorem shaped_leaf (hk : k.isFront [] = true) : (Node.leaf k r).Shaped :=
  Parts.nil.shaped hk

theorem parts_leaf (hk : k.isFront [] = true) (hp : p k = true) : Parts p [.leaf k r] :=
  .cons (shaped_leaf hk) hp .nil

end Parts

section Tags

variable {c next : Cursor} {n : Node} {parts : List Node} {ending : TagEnd}

theorem parts_of_readComment? {p : Kind → Bool} (hp : p .comment = true)
    (h : readComment? c = some (n, next)) : Parts p [n] := by
  rw [readComment?] at h
  split at h
  · obtain ⟨body, -, heq⟩ := Option.map_eq_some_iff.mp h
    obtain ⟨rfl, -⟩ := Prod.mk.inj heq
    exact parts_leaf rfl hp
  · cases h

theorem parts_readExtras (fuel : Nat) (c : Cursor) :
    Parts (· == .comment) (readExtras fuel c).1 := by
  induction fuel generalizing c with
  | zero => exact .nil
  | succ fuel ih =>
      rw [readExtras]
      cases hread : readComment? (c.skip isSourceBlank) with
      | none => exact .nil
      | some found => exact (parts_of_readComment? rfl hread).append (ih found.2)

theorem parts_extras {p : Kind → Bool} (hp : p .comment = true) (c : Cursor) :
    Parts p (extras c).1 :=
  (parts_readExtras _ c).imp fun _ hk => eq_of_beq hk ▸ hp

theorem parts_of_readQuoted? {quote : Char} (h : readQuoted? c quote = some (n, next)) :
    Parts Kind.isValue [n] := by
  simp only [readQuoted?] at h
  split at h
  · cases h
  · obtain ⟨rfl, -⟩ := Prod.mk.inj (Option.some.inj h)
    refine .cons (Parts.shaped ?_ rfl) rfl .nil
    refine .cons (shaped_leaf rfl) rfl (.append ?_ (parts_leaf rfl rfl))
    split
    · exact .nil
    · exact parts_leaf rfl rfl

theorem parts_of_readValue? (h : readValue? c = some (n, next)) : Parts Kind.isValue [n] := by
  rw [readValue?] at h
  split at h
  · cases h
  · split at h
    · exact parts_of_readQuoted? h
    · split at h <;> obtain ⟨rfl, -⟩ := Prod.mk.inj (Option.some.inj h)
      · exact parts_leaf rfl rfl
      · exact parts_leaf rfl rfl

theorem parts_of_readAttribute? (h : readAttribute? c = some (n, next)) :
    Parts Kind.isPart [n] := by
  simp only [readAttribute?] at h
  split at h
  · obtain ⟨⟨value, after⟩, hvalue, heq⟩ := Option.map_eq_some_iff.mp h
    obtain ⟨rfl, -⟩ := Prod.mk.inj heq
    refine .cons (shaped_front [_] [_, _] rfl ?_ ?_) rfl .nil
    · exact List.forall_mem_singleton.mpr (shaped_leaf rfl)
    · exact .cons (shaped_leaf rfl) rfl (parts_of_readValue? hvalue)
  · obtain ⟨rfl, -⟩ := Prod.mk.inj (Option.some.inj h)
    exact .cons (shaped_front [_] [] rfl
      (List.forall_mem_singleton.mpr (shaped_leaf rfl)) .nil) rfl .nil

theorem parts_of_readTagRest {mayClose : Bool} {fuel : Nat}
    (h : readTagRest mayClose fuel c = (parts, ending, next)) : Parts Kind.isPart parts := by
  induction fuel generalizing c parts ending next with
  | zero =>
      obtain ⟨rfl, -⟩ := Prod.mk.inj h
      exact .nil
  | succ fuel ih =>
      have hcomments := parts_extras (p := Kind.isPart) rfl c
      rw [readTagRest] at h
      generalize extras c = found at *
      obtain ⟨comments, d⟩ := found
      simp only at h hcomments
      split at h
      · obtain ⟨rfl, -⟩ := Prod.mk.inj h
        exact hcomments
      · obtain ⟨rfl, -⟩ := Prod.mk.inj h
        exact hcomments.append (parts_leaf rfl rfl)
      · obtain ⟨rfl, -⟩ := Prod.mk.inj h
        exact parts_leaf rfl rfl
      · split at h
        · obtain ⟨rfl, -⟩ := Prod.mk.inj h
          exact hcomments.append (parts_leaf rfl rfl)
        · split at h
          · split at h
            · obtain ⟨rfl, -⟩ := Prod.mk.inj h
              exact hcomments.append (parts_leaf rfl rfl)
            · next node after hread =>
              obtain ⟨rfl, -⟩ := Prod.mk.inj h
              exact hcomments.append ((parts_of_readAttribute? hread).append (ih rfl))
          · obtain ⟨rfl, -⟩ := Prod.mk.inj h
            exact hcomments.append (.cons (shaped_leaf rfl) rfl (ih rfl))

theorem parts_readEndTag {k : Kind} (hk : k = .tagName ∨ k = .strayTagName) (c : Cursor) :
    Parts Kind.isEndPart (readEndTag k c).1 := by
  have hfront : Parts Kind.isEndPart
      [markNode c "</", .leaf k (((c.past ['<', '/']).skip isSourceBlank).rangeOf
        (((c.past ['<', '/']).skip isSourceBlank).while_ TagName.isNameChar))] := by
    obtain rfl | rfl := hk <;> exact .cons (shaped_leaf rfl) rfl (parts_leaf rfl rfl)
  simp only [readEndTag]
  split
  · exact (hfront.append (parts_extras rfl _)).append (parts_leaf rfl rfl)
  · exact hfront.append (parts_leaf rfl rfl)

/-- A tag is shaped when its parts behind the name are. -/
theorem shaped_tag {k : Kind} {r r' : ByteRange} (hk : k.isTag = true)
    (hparts : Parts Kind.isPart parts) :
    (Node.mk k r (markNode c "<" :: .leaf .tagName r' :: parts)).Shaped := by
  have hfront : ∀ n ∈ [markNode c "<", .leaf .tagName r'], n.Shaped :=
    List.forall_mem_cons.mpr ⟨shaped_leaf rfl, List.forall_mem_singleton.mpr (shaped_leaf rfl)⟩
  obtain rfl | rfl : k = .startTag ∨ k = .selfClosingTag := by
    cases k <;> simp_all [Kind.isTag]
  · exact shaped_front [_, _] parts rfl hfront hparts
  · exact shaped_front [_, _] parts rfl hfront hparts

theorem parts_readRaw {kind : Kind} {name : TagName} {head : Node} {inner : Cursor}
    (hkind : kind = .scriptElement ∨ kind = .styleElement) (h : head.Shaped)
    (hhead : head.kind = .startTag) :
    Parts Kind.isContent [(readRaw kind name c head inner).1] := by
  have hfront : kind.isFront ([head].map Node.kind) = true := by
    obtain rfl | rfl := hkind <;> simp [hhead, Kind.isFront]
  have hcontent : kind.isContent = true := by obtain rfl | rfl := hkind <;> rfl
  have hraw : ∀ body : List Char, Parts kind.mayFollow
      (if body = [] then [] else [.leaf .rawText (inner.rangeOf body)]) := by
    intro body
    split
    · exact .nil
    · obtain rfl | rfl := hkind <;> exact parts_leaf rfl rfl
  have hend : ∀ (r : ByteRange) (d : Cursor),
      Parts kind.mayFollow [.mk .endTag r (readEndTag .tagName d).1] := by
    intro r d
    have := (parts_readEndTag (.inl rfl) d).shaped (k := .endTag) (r := r) rfl
    obtain rfl | rfl := hkind <;> exact .cons this rfl .nil
  simp only [readRaw]
  split
  · exact .cons (shaped_front [head] _ hfront (List.forall_mem_singleton.mpr h) (hraw _))
      hcontent .nil
  · exact .cons (shaped_front [head] _ hfront (List.forall_mem_singleton.mpr h)
      ((hraw _).append (hend _ _))) hcontent .nil

end Tags

/-- The open elements have shaped tags and children, and so have the nodes outside of them. -/
structure Progress.Shaped (p : Progress) : Prop where
  frames : ∀ f ∈ p.frames, f.head.Shaped ∧ f.head.kind = .startTag ∧
    Parts Kind.isContent f.children
  top : Parts Kind.isContent p.top

namespace Progress.Shaped

variable {p : Progress} {c : Cursor} {n : Node}

theorem add (h : p.Shaped) (hn : Parts Kind.isContent [n]) : (p.add n).Shaped := by
  obtain ⟨frames, top⟩ := p
  cases frames with
  | nil => exact ⟨h.frames, hn.append h.top⟩
  | cons f outer =>
      obtain ⟨⟨hhead, hkind, hchildren⟩, houter⟩ := List.forall_mem_cons.mp h.frames
      exact ⟨List.forall_mem_cons.mpr ⟨⟨hhead, hkind, hn.append hchildren⟩, houter⟩, h.top⟩

theorem close (h : p.Shaped) (stop : Nat) {last : List Node}
    (hlast : Parts (· == .endTag) last) : (p.close stop last).Shaped := by
  obtain ⟨frames, top⟩ := p
  cases frames with
  | nil => exact h
  | cons f outer =>
      obtain ⟨⟨hhead, hkind, hchildren⟩, houter⟩ := List.forall_mem_cons.mp h.frames
      refine add (p := ⟨outer, top⟩) ⟨houter, h.top⟩ (.cons ?_ rfl .nil)
      refine shaped_front [f.head] (f.children.reverse ++ last) ?_
        (List.forall_mem_singleton.mpr hhead) (.append ?_ ?_)
      · simp [hkind, Kind.isFront, Kind.isTag]
      · exact hchildren.reverse.imp fun k hk => by simp [Kind.mayFollow, hk]
      · exact hlast.imp fun k hk => by simp [Kind.mayFollow, eq_of_beq hk]

/-- A start tag is the head of a raw element, or it opens an element. -/
theorem head {tag : Node} {name : TagName} {next : Cursor} (h : p.Shaped) (htag : tag.Shaped)
    (hkind : tag.kind = .startTag) :
    (if (name == "SCRIPT" || name == "STYLE") = true then
      (p.add
        (readRaw (if name = "SCRIPT" then .scriptElement else .styleElement) name c tag next).1,
        (readRaw (if name = "SCRIPT" then .scriptElement else .styleElement) name c tag next).2)
      else (⟨⟨name, tag, []⟩ :: p.frames, p.top⟩, next)).1.Shaped := by
  split
  · refine h.add (parts_readRaw ?_ htag hkind)
    split
    · exact .inl rfl
    · exact .inr rfl
  · exact ⟨List.forall_mem_cons.mpr ⟨⟨htag, hkind, .nil⟩, h.frames⟩, h.top⟩

theorem readStartTag (h : p.Shaped) (c word : Cursor) (letters : List Char) :
    (readStartTag p c word letters).1.Shaped := by
  simp only [Markup.readStartTag]
  generalize hread : readTagRest _ _ (word.past letters) = found
  obtain ⟨parts, ending, next⟩ := found
  have hparts := parts_of_readTagRest hread
  cases ending with
  | unfinished =>
      have hall : Parts Kind.isPart
          (markNode c "<" :: .leaf .tagName (word.rangeOf letters) :: parts) :=
        .cons (shaped_leaf rfl) rfl (.cons (shaped_leaf rfl) rfl hparts)
      exact h.add (.cons (hall.shaped (k := .error) rfl) rfl .nil)
  | selfClosed =>
      exact h.add (.cons (shaped_front [_] [] rfl
        (List.forall_mem_singleton.mpr (shaped_tag rfl hparts)) .nil) rfl .nil)
  | closed => exact h.head (shaped_tag rfl hparts) rfl
  | cut => exact h.head (shaped_tag rfl hparts) rfl

theorem strayMark (h : p.Shaped) (c : Cursor) (sign : String) :
    (strayMark p c sign).1.Shaped :=
  h.add (.cons ((parts_leaf rfl rfl).shaped rfl) rfl .nil)

theorem closeTag (h : p.Shaped) (c : Cursor) (name : TagName) : (closeTag p c name).1.Shaped := by
  rw [Markup.closeTag]
  split
  · exact h.close _ (.cons ((parts_readEndTag (.inl rfl) c).shaped (k := .endTag) rfl) rfl .nil)
  · exact h.add (.cons ((parts_readEndTag (.inr rfl) c).shaped (k := .strayEndTag) rfl) rfl .nil)

theorem readDoctype? {next : Cursor} (h : p.Shaped) (hread : readDoctype? c = some (n, next)) :
    (p.add n).Shaped := by
  simp only [Markup.readDoctype?] at hread
  split at hread
  · split at hread
    · obtain ⟨rfl, -⟩ := Prod.mk.inj (Option.some.inj hread)
      exact h.add (.cons (Parts.shaped (k := .doctype) (.cons (shaped_leaf rfl) rfl
        (.cons (shaped_leaf rfl) rfl (parts_leaf rfl rfl))) rfl) rfl .nil)
    · cases hread
  · cases hread

theorem readBracket (h : p.Shaped) (c : Cursor) : (readBracket p c).1.Shaped := by
  rw [Markup.readBracket]
  split
  · next comment next hread => exact h.add (parts_of_readComment? rfl hread)
  · split
    · split
      · next n next hread => exact h.readDoctype? hread
      · exact h.strayMark c "<!"
    · dsimp only
      split
      · exact h.strayMark c "</"
      · exact h.closeTag c _
    · dsimp only
      split
      · exact h.strayMark c "<"
      · exact h.readStartTag c _ _

theorem readText (h : p.Shaped) (c : Cursor) : (readText p c).1.Shaped :=
  h.add (parts_leaf rfl rfl)

theorem readEntity (h : p.Shaped) (c : Cursor) : (readEntity p c).1.Shaped := by
  simp only [Markup.readEntity]
  split
  · exact h.add (parts_leaf rfl rfl)
  · exact h.add (parts_leaf rfl rfl)

theorem readContent (h : p.Shaped) (fuel : Nat) (c : Cursor) :
    Parts Kind.isContent (readContent fuel p c) := by
  induction fuel generalizing p c with
  | zero => exact h.top.reverse
  | succ fuel ih =>
      rw [Markup.readContent]
      dsimp only
      split
      · split
        · exact h.top.reverse
        · exact ih (h.close _ .nil) _
      · split
        · exact ih (h.close _ .nil) _
        · exact ih (h.readBracket _) _
      · exact ih (h.strayMark _ _) _
      · exact ih (h.readEntity _) _
      · exact ih (h.readText _) _

end Progress.Shaped

/-- The document of every text is shaped. -/
theorem readNode_shaped (text : List Char) : (readNode text).Shaped := by
  have hstart : Progress.start.Shaped := ⟨List.forall_mem_nil _, .nil⟩
  exact Parts.shaped (k := .document) (hstart.readContent _ _) rfl

end ComponentAtlas.Markup
