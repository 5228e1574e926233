import ComponentAtlas.Binding.Scan
import ComponentAtlas.Proofs.Text.Conventions
import ComponentAtlas.Proofs.Text.Patterns
import ComponentAtlas.Proofs.Text.Positions

/-!
# The bindings of a text

`TemplateBinding` and `AuraBinding` are the grammars of the two dialects, read at one brace. The
scanners find exactly what the grammars allow at the braces of a text, from left to right: a brace
is never inside an expression, so nothing is lost to the expressions in front of it.
-/

namespace ComponentAtlas.Binding

open ComponentAtlas.Text ComponentAtlas.Text.Pattern

/-- A text of white space. -/
def Blanks (text : List Char) : Prop :=
  ∀ c ∈ text, isBlank c = true

/-- A property name: a letter, an underscore or a dollar sign, and characters of names. -/
def IsName (name : List Char) : Prop :=
  ∃ c rest, name = c :: rest ∧ isNameStart c = true ∧ ∀ d ∈ rest, isNameChar d = true

/-- Runs of characters of names, each with a dot in front. -/
inductive IsPath : List Char → Prop where
  | nil : IsPath []
  | run {name path : List Char} (hname : ∀ c ∈ name, isNameChar c = true) (hpath : IsPath path) :
      IsPath ('.' :: (name ++ path))

/-- The binding of a name at an offset. -/
def named (offset : Nat) (name : List Char) : Binding :=
  ⟨String.ofList name, ⟨offset, offset + byteSize name⟩⟩

/-- A binding of a template whose braces hold a property and its path; `back` are the characters
behind the brace. -/
def TemplateBinding (offset : Nat) (back : List Char) (b : Binding) : Prop :=
  ∃ ws name path ws' rest, back = ws ++ name ++ path ++ ws' ++ '\x7d' :: rest ∧
    Blanks ws ∧ IsName name ∧ IsPath path ∧ path.getLast? ≠ some '.' ∧ Blanks ws' ∧
    b = named (offset + byteSize ws) name

/-- What stands between the brace of aura markup and the property. -/
def IsScope (scope : List Char) : Prop :=
  ∃ sign ws bang ws' v, scope = sign :: (ws ++ bang ++ ws' ++ [v, '.']) ∧ sign ∈ ['!', '#'] ∧
    Blanks ws ∧ (bang = [] ∨ bang = ['!']) ∧ Blanks ws' ∧ v ∈ ['v', 'm', 'c']

/-- The characters that go on with a path. -/
def isPathChar (c : Char) : Bool :=
  isNameChar c || c == '.'

/-- A binding of aura markup: the scope, a property, and a path that ends where no further
character belongs to it. -/
def AuraBinding (offset : Nat) (back : List Char) (b : Binding) : Prop :=
  ∃ scope name path rest, back = scope ++ name ++ path ++ rest ∧ IsScope scope ∧ IsName name ∧
    IsPath path ∧ Stops isPathChar rest ∧ path.getLast? ≠ some '.' ∧
    b = named (offset + byteSize scope) name

/-- The bindings that a dialect allows behind a brace. -/
def Binds : Dialect → Nat → List Char → Binding → Prop
  | .lwc => TemplateBinding
  | .aura => AuraBinding

section Characters

variable {c : Char}

theorem isNameChar_of_isNameStart (h : isNameStart c = true) : isNameChar c = true := by
  simp only [isNameStart, isNameChar, Bool.or_eq_true, beq_iff_eq] at h ⊢
  obtain (h | rfl) | rfl := h
  · have hword : c.isAlphanum = true := by simp [Char.isAlphanum, h]
    have hascii : c.toNat < 128 := (isJoined_of_isAlphanum hword).1.1
    exact .inl (by simp [isWordChar, hascii, hword])
  · exact .inl (by decide)
  · exact .inr rfl

/-- The code points of white space. -/
def blankPoints : List Nat :=
  [0x9, 0xA, 0xB, 0xC, 0xD, 0x20, 0x85, 0xA0, 0x1680, 0x2000, 0x2001, 0x2002, 0x2003, 0x2004,
    0x2005, 0x2006, 0x2007, 0x2008, 0x2009, 0x200A, 0x2028, 0x2029, 0x202F, 0x205F, 0x3000]

theorem toNat_of_isBlank (h : isBlank c = true) : c.toNat ∈ blankPoints := by
  simp [isBlank] at h
  simp [blankPoints]
  omega

theorem isNameChar_of_isBlank (h : isBlank c = true) : isNameChar c = false := by
  have hall : ∀ n ∈ blankPoints, isNameChar (Char.ofNat n) = false := by decide +kernel
  have := hall c.toNat (toNat_of_isBlank h)
  rwa [Char.ofNat_toNat] at this

theorem isPathChar_of_isBlank (h : isBlank c = true) : isPathChar c = false := by
  have hdot : c ≠ '.' := by
    rintro rfl
    exact absurd h (by decide)
  simp [isPathChar, isNameChar_of_isBlank h, hdot]

theorem isBlank_of_isNameStart (h : isNameStart c = true) : isBlank c = false := by
  by_contra hblank
  have := isNameChar_of_isBlank (Bool.not_eq_false _ ▸ hblank)
  simp [isNameChar_of_isNameStart h] at this

theorem isNameChar_of_not_isPathChar (h : isPathChar c = false) : isNameChar c = false := by
  simp only [isPathChar, Bool.or_eq_false_iff] at h
  exact h.1

theorem isNameChar_dot : isNameChar '.' = false := by decide +kernel

theorem isPathChar_closing : isPathChar '\x7d' = false := by decide +kernel

end Characters

section Parts

variable {name path front back : List Char} {offset : Nat} {gs : List Group}

theorem IsName.isNameChar (h : IsName name) : ∀ c ∈ name, isNameChar c = true := by
  obtain ⟨c, rest, rfl, hc, hrest⟩ := h
  exact List.forall_mem_cons.mpr ⟨isNameChar_of_isNameStart hc, hrest⟩

theorem IsName.stops_blank (h : IsName name) (back : List Char) : Stops isBlank (name ++ back) := by
  obtain ⟨c, rest, rfl, hc, -⟩ := h
  rintro d ⟨⟩
  exact isBlank_of_isNameStart hc

theorem IsPath.isPathChar (h : IsPath path) : ∀ c ∈ path, isPathChar c = true := by
  induction h with
  | nil => exact fun c hc => nomatch hc
  | run hname _ ih =>
      refine List.forall_mem_cons.mpr ⟨by decide +kernel, fun c hc => ?_⟩
      obtain hc | hc := List.mem_append.mp hc
      · simp [Binding.isPathChar, hname c hc]
      · exact ih c hc

theorem IsPath.stops (h : IsPath path) (hback : Stops isNameChar back) :
    Stops isNameChar (path ++ back) := by
  cases h with
  | nil => exact hback
  | run =>
      rintro d ⟨⟩
      exact isNameChar_dot

theorem stops_isNameChar (h : Stops isPathChar back) : Stops isNameChar back :=
  fun c hc => isNameChar_of_not_isPathChar (h c hc)

theorem Blanks.stops {ws : List Char} (h : Blanks ws) (hback : Stops isPathChar back) :
    Stops isPathChar (ws ++ back) := by
  cases ws with
  | nil => exact hback
  | cons c ws =>
      rintro d ⟨⟩
      exact isPathChar_of_isBlank (h c (List.mem_cons_self ..))

theorem reads_char {c : Char} : Reads (.char c) offset front gs ↔ front = [c] ∧ gs = [] := by
  simp only [Pattern.char, reads_one, beq_iff_eq]
  exact ⟨fun ⟨d, hf, hg, hd⟩ => ⟨hd ▸ hf, hg⟩, fun ⟨hf, hg⟩ => ⟨c, hf, hg, rfl⟩⟩

theorem char_reads (c : Char) (offset : Nat) : Reads (.char c) offset [c] [] :=
  reads_char.mpr ⟨rfl, rfl⟩

theorem reads_name : Reads namePattern offset front gs ↔ gs = [] ∧ IsName front := by
  rw [namePattern, reads_seq]
  constructor
  · rintro ⟨first, rest, fs, ss, rfl, rfl, hfirst, hrest⟩
    obtain ⟨c, rfl, rfl, hc⟩ := reads_one.mp hfirst
    obtain ⟨rfl, hall⟩ := reads_many_one.mp hrest
    exact ⟨rfl, c, rest, rfl, hc, hall⟩
  · rintro ⟨rfl, c, rest, rfl, hc, hall⟩
    exact ⟨[c], rest, [], [], rfl, rfl, .one _ hc, reads_many_one.mpr ⟨rfl, hall⟩⟩

theorem reads_path : Reads pathPattern offset front gs ↔ gs = [] ∧ IsPath front := by
  constructor
  · rw [pathPattern]
    generalize hq : Pattern.many _ = q
    intro h
    induction h with
    | done => exact ⟨rfl, .nil⟩
    | more hp _ _ _ ih =>
        cases hq
        obtain ⟨dot, name, fs, ss, rfl, rfl, hdot, hname⟩ := reads_seq.mp hp
        obtain ⟨rfl, rfl⟩ := reads_char.mp hdot
        obtain ⟨rfl, hall⟩ := reads_many_one.mp hname
        obtain ⟨rfl, hpath⟩ := ih rfl
        exact ⟨rfl, .run hall hpath⟩
    | one => cases hq
    | seq => cases hq
    | without => cases hq
    | within => cases hq
    | group => cases hq
  · rintro ⟨rfl, h⟩
    induction h generalizing offset with
    | nil => exact .done _ offset
    | run hname _ ih =>
        have hrun := Reads.seq (char_reads '.' offset) (reads_many_one.mpr ⟨rfl, hname⟩)
        exact .more hrun (List.cons_ne_nil _ _) ih

end Parts

/-- The groups of a property and its path. -/
def groupsOf (offset : Nat) (name path : List Char) : List Group :=
  [(⟨offset, offset + byteSize name⟩, name),
    (⟨offset + byteSize name, offset + byteSize name + byteSize path⟩, path)]

theorem ofReading?_groupsOf {offset : Nat} {name path : List Char} {next : Cursor} :
    ofReading? ⟨groupsOf offset name path, next⟩ =
      if path.getLast? = some '.' then none else some (named offset name) :=
  rfl

section Template

variable {offset : Nat} {front back : List Char} {gs : List Group}

theorem reads_template : Reads templatePattern offset front gs ↔
    ∃ ws name path ws', front = '\x7b' :: (ws ++ name ++ path ++ ws' ++ ['\x7d']) ∧ Blanks ws ∧
      IsName name ∧ IsPath path ∧ Blanks ws' ∧
      gs = groupsOf (offset + 1 + byteSize ws) name path := by
  simp only [templatePattern, inOrder, List.foldr_cons, List.foldr_nil]
  constructor
  · intro h
    obtain ⟨opening, r₁, _, _, rfl, rfl, h₁, t₁⟩ := reads_seq.mp h
    obtain ⟨ws, r₂, _, _, rfl, rfl, h₂, t₂⟩ := reads_seq.mp t₁
    obtain ⟨name, r₃, _, _, rfl, rfl, h₃, t₃⟩ := reads_seq.mp t₂
    obtain ⟨path, r₄, _, _, rfl, rfl, h₄, t₄⟩ := reads_seq.mp t₃
    obtain ⟨ws', closing, _, _, rfl, rfl, h₅, h₆⟩ := reads_seq.mp t₄
    obtain ⟨_, inner₃, rfl⟩ := reads_group.mp h₃
    obtain ⟨_, inner₄, rfl⟩ := reads_group.mp h₄
    obtain ⟨rfl, rfl⟩ := reads_char.mp h₁
    obtain ⟨rfl, hws⟩ := reads_many_one.mp h₂
    obtain ⟨rfl, hname⟩ := reads_name.mp inner₃
    obtain ⟨rfl, hpath⟩ := reads_path.mp inner₄
    obtain ⟨rfl, hws'⟩ := reads_many_one.mp h₅
    obtain ⟨rfl, rfl⟩ := reads_char.mp h₆
    exact ⟨ws, name, path, ws', by simp, hws, hname, hpath, hws', rfl⟩
  · rintro ⟨ws, name, path, ws', rfl, hws, hname, hpath, hws', rfl⟩
    have h := Reads.seq (char_reads '\x7b' offset)
      (.seq (reads_many_one.mpr ⟨rfl, hws⟩) (.seq (.group (reads_name.mpr ⟨rfl, hname⟩))
        (.seq (.group (reads_path.mpr ⟨rfl, hpath⟩)) (.seq (reads_many_one.mpr ⟨rfl, hws'⟩)
          (char_reads '\x7d' _)))))
    simpa [groupsOf, show '\x7b'.utf8Size = 1 from rfl] using h

/-- An expression can be read in one way only. -/
theorem template_unique {ws name path ws₁ ws' name' path' ws₁' rest rest' : List Char}
    (h : ws ++ name ++ path ++ ws₁ ++ '\x7d' :: rest =
      ws' ++ name' ++ path' ++ ws₁' ++ '\x7d' :: rest')
    (hws : Blanks ws) (hname : IsName name) (hpath : IsPath path) (hws₁ : Blanks ws₁)
    (hws' : Blanks ws') (hname' : IsName name') (hpath' : IsPath path') (hws₁' : Blanks ws₁') :
    ws = ws' ∧ name = name' ∧ path = path' := by
  have hclosing : ∀ rest : List Char, Stops isPathChar ('\x7d' :: rest) := by
    rintro rest c ⟨⟩
    exact isPathChar_closing
  simp only [List.append_assoc] at h
  obtain ⟨rfl, h₁⟩ := eq_of_stops h hws hws' (hname.stops_blank _) (hname'.stops_blank _)
  have hback := hws₁.stops (hclosing rest)
  have hback' := hws₁'.stops (hclosing rest')
  obtain ⟨rfl, h₂⟩ := eq_of_stops h₁ hname.isNameChar hname'.isNameChar
    (hpath.stops (stops_isNameChar hback)) (hpath'.stops (stops_isNameChar hback'))
  obtain ⟨rfl, -⟩ := eq_of_stops h₂ hpath.isPathChar hpath'.isPathChar hback hback'
  exact ⟨rfl, rfl, rfl⟩

theorem template_binding_iff {c : Cursor} {b : Binding} :
    (templatePattern.matchAt? c).bind ofReading? = some b ↔
      ∃ back, c.rest = '\x7b' :: back ∧ TemplateBinding (c.offset + 1) back b := by
  constructor
  · intro h
    obtain ⟨m, hm, hb⟩ := Option.bind_eq_some_iff.mp h
    obtain ⟨front, back, gs, hrest, hreads, rfl⟩ := allows_of_matchAt? hm
    obtain ⟨ws, name, path, ws', rfl, hws, hname, hpath, hws', rfl⟩ := reads_template.mp hreads
    rw [after, List.nil_append, ofReading?_groupsOf] at hb
    split at hb
    · cases hb
    · next hlast =>
      exact ⟨_, hrest, ws, name, path, ws', back, by simp, hws, hname, hpath, hlast, hws',
        (Option.some.inj hb).symm⟩
  · rintro ⟨_, hrest, ws, name, path, ws', rest, rfl, hws, hname, hpath, hlast, hws', rfl⟩
    have hreads : Reads templatePattern c.offset
        ('\x7b' :: (ws ++ name ++ path ++ ws' ++ ['\x7d']))
        (groupsOf (c.offset + 1 + byteSize ws) name path) :=
      reads_template.mpr ⟨ws, name, path, ws', rfl, hws, hname, hpath, hws', rfl⟩
    cases hm : templatePattern.matchAt? c with
    | none =>
        exact absurd ⟨_, rest, _, by simp [hrest], hreads, rfl⟩ (matchAt?_eq_none_iff.mp hm _)
    | some m =>
        obtain ⟨front, back, gs, hfront, hreads, rfl⟩ := allows_of_matchAt? hm
        obtain ⟨ws₂, name₂, path₂, ws₂', rfl, hws₂, hname₂, hpath₂, hws₂', rfl⟩ :=
          reads_template.mp hreads
        have heq : ws ++ name ++ path ++ ws' ++ '\x7d' :: rest =
            ws₂ ++ name₂ ++ path₂ ++ ws₂' ++ '\x7d' :: back := by
          simpa using hrest.symm.trans hfront
        obtain ⟨rfl, rfl, rfl⟩ :=
          template_unique heq hws hname hpath hws' hws₂ hname₂ hpath₂ hws₂'
        rw [Option.bind_some, after, List.nil_append, ofReading?_groupsOf, if_neg hlast]

end Template

section Aura

variable {offset : Nat} {front back : List Char} {gs : List Group}

theorem reads_oneOf {cs : List Char} : Reads (.oneOf cs) offset front gs ↔
    ∃ c, front = [c] ∧ gs = [] ∧ c ∈ cs := by
  simp [Pattern.oneOf, reads_one]

theorem reads_scope : Reads scopePattern offset front gs ↔
    gs = [] ∧ ∃ scope, front = '\x7b' :: scope ∧ IsScope scope := by
  simp only [scopePattern, inOrder, List.foldr_cons, List.foldr_nil]
  constructor
  · intro h
    obtain ⟨opening, r₁, _, _, rfl, rfl, h₁, t₁⟩ := reads_seq.mp h
    obtain ⟨sign, r₂, _, _, rfl, rfl, h₂, t₂⟩ := reads_seq.mp t₁
    obtain ⟨ws, r₃, _, _, rfl, rfl, h₃, t₃⟩ := reads_seq.mp t₂
    obtain ⟨bang, r₄, _, _, rfl, rfl, h₄, t₄⟩ := reads_seq.mp t₃
    obtain ⟨ws', r₅, _, _, rfl, rfl, h₅, t₅⟩ := reads_seq.mp t₄
    obtain ⟨v, dot, _, _, rfl, rfl, h₆, h₇⟩ := reads_seq.mp t₅
    obtain ⟨rfl, rfl⟩ := reads_char.mp h₁
    obtain ⟨sign, rfl, rfl, hsign⟩ := reads_oneOf.mp h₂
    obtain ⟨rfl, hws⟩ := reads_many_one.mp h₃
    obtain ⟨rfl, hws'⟩ := reads_many_one.mp h₅
    obtain ⟨v, rfl, rfl, hv⟩ := reads_oneOf.mp h₆
    obtain ⟨rfl, rfl⟩ := reads_char.mp h₇
    obtain ⟨rfl, rfl⟩ | h₄ := reads_maybe.mp h₄
    · exact ⟨rfl, _, rfl, sign, ws, [], ws', v, by simp, hsign, hws, .inl rfl, hws', hv⟩
    · obtain ⟨rfl, rfl⟩ := reads_char.mp h₄
      exact ⟨rfl, _, rfl, sign, ws, ['!'], ws', v, by simp, hsign, hws, .inr rfl, hws', hv⟩
  · rintro ⟨rfl, scope, rfl, sign, ws, bang, ws', v, rfl, hsign, hws, hbang, hws', hv⟩
    have hmaybe : ∀ o, Reads (.maybe (.char '!')) o bang [] := fun o =>
      reads_maybe.mpr (hbang.imp (fun h => ⟨h, rfl⟩) fun h => reads_char.mpr ⟨h, rfl⟩)
    have h := Reads.seq (char_reads '\x7b' offset) (.seq (reads_oneOf.mpr ⟨sign, rfl, rfl, hsign⟩)
      (.seq (reads_many_one.mpr ⟨rfl, hws⟩) (.seq (hmaybe _) (.seq (reads_many_one.mpr ⟨rfl, hws'⟩)
        (.seq (reads_oneOf.mpr ⟨v, rfl, rfl, hv⟩) (char_reads '.' _))))))
    simpa using h

/-- A scope can be read in one way only. -/
theorem scope_unique {scope scope' rest rest' : List Char} (h : scope ++ rest = scope' ++ rest')
    (hscope : IsScope scope) (hscope' : IsScope scope') : scope = scope' ∧ rest = rest' := by
  let test : Char → Bool := fun c => isBlank c || c == '!'
  have hmid : ∀ {ws bang ws' : List Char}, Blanks ws → (bang = [] ∨ bang = ['!']) → Blanks ws' →
      ∀ c ∈ ws ++ bang ++ ws', test c = true := by
    intro ws bang ws' hws hbang hws' c hc
    simp only [List.mem_append] at hc
    obtain (hc | hc) | hc := hc
    · simp [test, hws c hc]
    · obtain rfl | rfl := hbang
      · cases hc
      · obtain rfl := List.mem_singleton.mp hc
        rfl
    · simp [test, hws' c hc]
  have hstop : ∀ {v : Char} {back : List Char}, v ∈ ['v', 'm', 'c'] →
      Stops test ([v, '.'] ++ back) := by
    rintro v back hv c ⟨⟩
    simp only [List.mem_cons, List.not_mem_nil, or_false] at hv
    obtain rfl | rfl | rfl := hv <;> rfl
  obtain ⟨sign, ws, bang, ws', v, rfl, -, hws, hbang, hws', hv⟩ := hscope
  obtain ⟨sign', ws₂, bang₂, ws₂', v', rfl, -, hws₂, hbang₂, hws₂', hv'⟩ := hscope'
  simp only [List.cons_append, List.append_assoc (_ ++ _ ++ _)] at h
  obtain ⟨rfl, htail⟩ := List.cons.inj h
  obtain ⟨hsame, hback⟩ := eq_of_stops htail (hmid hws hbang hws') (hmid hws₂ hbang₂ hws₂')
    (hstop hv) (hstop hv')
  obtain ⟨rfl, hdot⟩ := List.cons.inj hback
  exact ⟨by rw [hsame], (List.cons.inj hdot).2⟩

theorem head?_name {r : Reading} {name : List Char} (hrest : r.next.rest = name ++ back)
    (hname : IsName name) (hstop : Stops isNameChar back) :
    (namePattern.run r).head? = some (after r name back []) := by
  obtain ⟨c, rest, rfl, hc, hall⟩ := hname
  have hfirst : (Pattern.one isNameStart).run r = [after r [c] (rest ++ back) []] :=
    run_one_cons hrest hc
  have hmany := head?_many_one (r := after r [c] (rest ++ back) []) rfl hall hstop
  rw [after_after] at hmany
  exact head?_seq (by rw [hfirst]; rfl) hmany

/-- A path is read as far as it goes. -/
theorem head?_path {r : Reading} {path : List Char} (hrest : r.next.rest = path ++ back)
    (hpath : IsPath path) (hstop : Stops isPathChar back) :
    (pathPattern.run r).head? = some (after r path back []) := by
  suffices h : ∀ n, r.next.rest.length ≤ n →
      (repeated (Pattern.run (.seq (.char '.') (.many (.one isNameChar)))) n r).head? =
        some (after r path back []) from h _ (Nat.le_refl _)
  induction hpath generalizing r with
  | nil =>
      obtain rfl : r.next.rest = back := hrest
      intro n _
      have hdot : Stops (· == '.') r.next.rest := by
        intro c hc
        have := hstop c hc
        simp only [isPathChar, Bool.or_eq_false_iff] at this
        exact this.2
      rw [after_nil]
      refine head?_repeated_done n ?_
      show ((Pattern.one (· == '.')).run r).flatMap _ = []
      rw [run_one_nil hdot, List.flatMap_nil]
  | @run name path hall hpath ih =>
      intro n hn
      cases n with
      | zero => simp [hrest] at hn
      | succ n =>
          have hsplit : r.next.rest = ('.' :: name) ++ (path ++ back) := by simp [hrest]
          have hfirst : (Pattern.char '.').run r = [after r ['.'] (name ++ (path ++ back)) []] :=
            run_one_cons hsplit rfl
          have hname := head?_many_one (r := after r ['.'] (name ++ (path ++ back)) []) rfl hall
            (hpath.stops (stops_isNameChar hstop))
          rw [after_after] at hname
          have hrun : ((Pattern.seq (.char '.') (.many (.one isNameChar))).run r).head? = _ :=
            head?_seq (by rw [hfirst]; rfl) hname
          have hnext := ih (r := after r ('.' :: name) (path ++ back) []) rfl n
            (by simp only [hsplit, List.length_append, List.length_cons] at hn; simp [after]; omega)
          rw [after_after] at hnext
          exact head?_repeated_more hrun ((follows_after hsplit).mpr (List.cons_ne_nil _ _)) hnext

theorem exists_path (text : List Char) (h : Stops isNameChar text) :
    ∃ path back, text = path ++ back ∧ IsPath path ∧ Stops isPathChar back := by
  induction hn : text.length using Nat.strongRecOn generalizing text with
  | ind n ih =>
      cases text with
      | nil => exact ⟨[], [], rfl, .nil, stops_nil⟩
      | cons c text =>
          by_cases hc : c = '.'
          · subst hc
            obtain ⟨name, more, rfl, hall, hstop⟩ := exists_stops isNameChar text
            obtain ⟨path, back, rfl, hpath, hback⟩ := ih more.length
              (by rw [← hn, List.length_cons, List.length_append]; omega) more hstop rfl
            exact ⟨_, back, by simp, .run hall hpath, hback⟩
          · refine ⟨[], c :: text, rfl, .nil, ?_⟩
            rintro d ⟨⟩
            simp [isPathChar, h c rfl, hc]

theorem head?_property {r : Reading} {name path rest : List Char}
    (hrest : r.next.rest = name ++ (path ++ rest)) (hname : IsName name) (hpath : IsPath path)
    (hstop : Stops isPathChar rest) :
    ((Pattern.seq (.group namePattern) (.group pathPattern)).run r).head? =
      some (after r (name ++ path) rest (groupsOf r.next.offset name path)) := by
  have hfirst := head?_group hrest
    (head?_name hrest hname (hpath.stops (stops_isNameChar hstop)))
  have hsecond := head?_group rfl
    (head?_path (r := after r name (path ++ rest)
      [(⟨r.next.offset, r.next.offset + byteSize name⟩, name)]) rfl hpath hstop)
  rw [after_after] at hsecond
  exact head?_seq hfirst hsecond

/-- The match of aura markup behind a scope is as long as it can be. -/
theorem aura_matchAt? {c : Cursor} {scope name path rest : List Char}
    (hrest : c.rest = '\x7b' :: (scope ++ name ++ path ++ rest)) (hscope : IsScope scope)
    (hname : IsName name) (hpath : IsPath path) (hstop : Stops isPathChar rest) :
    auraPattern.matchAt? c = some ⟨groupsOf (c.offset + 1 + byteSize scope) name path,
      ⟨rest, c.offset + byteSize ('\x7b' :: scope ++ name ++ path)⟩⟩ := by
  have hsplit : c.rest = ('\x7b' :: scope) ++ (name ++ (path ++ rest)) := by simp [hrest]
  have hallows : scopePattern.Allows ⟨[], c⟩
      (after ⟨[], c⟩ ('\x7b' :: scope) (name ++ (path ++ rest)) []) :=
    ⟨_, _, _, hsplit, reads_scope.mpr ⟨rfl, scope, rfl, hscope⟩, rfl⟩
  have hfirst : (scopePattern.run ⟨[], c⟩).head? =
      some (after ⟨[], c⟩ ('\x7b' :: scope) (name ++ (path ++ rest)) []) := by
    cases hs : scopePattern.matchAt? c with
    | none => exact absurd hallows (matchAt?_eq_none_iff.mp hs _)
    | some s =>
        obtain ⟨front, back, gs, hfront, hreads, rfl⟩ := allows_of_matchAt? hs
        obtain ⟨rfl, scope', rfl, hscope'⟩ := reads_scope.mp hreads
        obtain ⟨-, htail⟩ := List.cons.inj (hsplit.symm.trans hfront)
        obtain ⟨rfl, rfl⟩ := scope_unique htail hscope hscope'
        exact hs
  have hlast := head?_property (r := after ⟨[], c⟩ ('\x7b' :: scope) (name ++ (path ++ rest)) [])
    rfl hname hpath hstop
  rw [after_after] at hlast
  rw [matchAt?, auraPattern, inOrder, List.foldr_cons, List.foldr_cons, List.foldr_nil,
    head?_seq hfirst hlast]
  simp [after, Nat.add_assoc, show '\x7b'.utf8Size = 1 from rfl]

theorem exists_of_aura_matchAt? {c : Cursor} {m : Reading} (h : auraPattern.matchAt? c = some m) :
    ∃ scope name path rest, c.rest = '\x7b' :: (scope ++ name ++ path ++ rest) ∧ IsScope scope ∧
      IsName name ∧ IsPath path ∧ Stops isPathChar rest := by
  obtain ⟨front, back, gs, (hrest : c.rest = _), hreads, -⟩ := allows_of_matchAt? h
  obtain ⟨opening, r₁, _, _, rfl, -, h₁, t₁⟩ := reads_seq.mp hreads
  obtain ⟨name, path, _, _, rfl, -, h₂, -⟩ := reads_seq.mp t₁
  obtain ⟨-, scope, rfl, hscope⟩ := reads_scope.mp h₁
  obtain ⟨_, h₂, -⟩ := reads_group.mp h₂
  obtain ⟨-, d, first, rfl, hd, hfirst⟩ := reads_name.mp h₂
  -- the name goes on as far as there are characters of names, and the path behind it
  obtain ⟨more, rest, hmore, hall, hstop⟩ := exists_stops isNameChar (first ++ (path ++ back))
  obtain ⟨path', rest', rfl, hpath, hstop'⟩ := exists_path rest hstop
  refine ⟨scope, d :: more, path', rest', ?_, hscope, ⟨d, more, rfl, hd, hall⟩, hpath, hstop'⟩
  simp only [hrest, List.cons_append, List.append_assoc, hmore]

theorem aura_binding_iff {c : Cursor} {b : Binding} :
    (auraPattern.matchAt? c).bind ofReading? = some b ↔
      ∃ back, c.rest = '\x7b' :: back ∧ AuraBinding (c.offset + 1) back b := by
  constructor
  · intro h
    obtain ⟨m, hm, hb⟩ := Option.bind_eq_some_iff.mp h
    obtain ⟨scope, name, path, rest, hrest, hscope, hname, hpath, hstop⟩ :=
      exists_of_aura_matchAt? hm
    rw [aura_matchAt? hrest hscope hname hpath hstop] at hm
    obtain rfl := Option.some.inj hm
    rw [ofReading?_groupsOf] at hb
    split at hb
    · cases hb
    · next hlast =>
      exact ⟨_, hrest, scope, name, path, rest, rfl, hscope, hname, hpath, hstop, hlast,
        (Option.some.inj hb).symm⟩
  · rintro ⟨_, hrest, scope, name, path, rest, rfl, hscope, hname, hpath, hstop, hlast, rfl⟩
    rw [aura_matchAt? hrest hscope hname hpath hstop, Option.bind_some, ofReading?_groupsOf,
      if_neg hlast]

end Aura

section Scan

variable {d : Dialect}

theorem binding_iff {c : Cursor} {b : Binding} :
    ((pattern d).matchAt? c).bind ofReading? = some b ↔
      ∃ back, c.rest = '\x7b' :: back ∧ Binds d (c.offset + 1) back b := by
  cases d with
  | lwc => exact template_binding_iff
  | aura => exact aura_binding_iff

theorem Blanks.opening_not_mem {ws : List Char} (h : Blanks ws) : '\x7b' ∉ ws :=
  fun hmem => absurd (h _ hmem) (by decide)

theorem IsName.opening_not_mem {name : List Char} (h : IsName name) : '\x7b' ∉ name :=
  fun hmem => absurd (h.isNameChar _ hmem) (by decide +kernel)

theorem IsPath.opening_not_mem {path : List Char} (h : IsPath path) : '\x7b' ∉ path :=
  fun hmem => absurd (h.isPathChar _ hmem) (by decide +kernel)

theorem IsScope.opening_not_mem {scope : List Char} (h : IsScope scope) : '\x7b' ∉ scope := by
  obtain ⟨sign, ws, bang, ws', v, rfl, hsign, hws, hbang, hws', hv⟩ := h
  have hmarks : '\x7b' ∉ ['!', '#'] ∧ '\x7b' ∉ ['v', 'm', 'c'] := by decide
  have hbang' : '\x7b' ∉ bang := by
    obtain rfl | rfl := hbang <;> decide
  have hsign' : '\x7b' ≠ sign := fun h => hmarks.1 (h ▸ hsign)
  have hv' : '\x7b' ≠ v := fun h => hmarks.2 (h ▸ hv)
  simp [hsign', hv', hws.opening_not_mem, hws'.opening_not_mem, hbang']

/-- An expression begins with the only opening brace that it has. -/
theorem opens_pattern (d : Dialect) : (pattern d).Opens '\x7b' := by
  cases d with
  | lwc =>
      intro offset front gs h
      obtain ⟨ws, name, path, ws', rfl, hws, hname, hpath, hws', -⟩ := reads_template.mp h
      exact ⟨_, rfl, by simp [hws.opening_not_mem, hname.opening_not_mem, hpath.opening_not_mem,
        hws'.opening_not_mem]⟩
  | aura =>
      intro offset front gs h
      obtain ⟨opening, r₁, _, _, rfl, -, h₁, t₁⟩ := reads_seq.mp h
      obtain ⟨name, path, _, _, rfl, -, h₂, h₃⟩ := reads_seq.mp t₁
      obtain ⟨-, scope, rfl, hscope⟩ := reads_scope.mp h₁
      obtain ⟨_, h₂, -⟩ := reads_group.mp h₂
      obtain ⟨_, h₃, -⟩ := reads_group.mp h₃
      obtain ⟨-, hname⟩ := reads_name.mp h₂
      obtain ⟨-, hpath⟩ := reads_path.mp h₃
      exact ⟨_, rfl, by simp [hscope.opening_not_mem, hname.opening_not_mem,
        hpath.opening_not_mem]⟩

/-- The name of a binding stands behind its brace, and no other brace in front of it. -/
theorem Binds.inside {offset : Nat} {back : List Char} {b : Binding} (h : Binds d offset back b) :
    ∃ front rest, back = front ++ rest ∧ '\x7b' ∉ front ∧ offset ≤ b.range.start ∧
      b.range.start ≤ b.range.stop ∧ b.range.stop = offset + byteSize front := by
  cases d with
  | lwc =>
      obtain ⟨ws, name, path, ws', rest, rfl, hws, hname, -, -, -, rfl⟩ := h
      exact ⟨ws ++ name, path ++ ws' ++ '\x7d' :: rest, by simp,
        by simp [hws.opening_not_mem, hname.opening_not_mem], by simp [named], by simp [named],
        by simp [named, Nat.add_assoc]⟩
  | aura =>
      obtain ⟨scope, name, path, rest, rfl, hscope, hname, -, -, -, rfl⟩ := h
      exact ⟨scope ++ name, path ++ rest, by simp,
        by simp [hscope.opening_not_mem, hname.opening_not_mem], by simp [named], by simp [named],
        by simp [named, Nat.add_assoc]⟩

/-- The bindings of two braces stand in the order of the braces. -/
theorem Binds.lt {front front' back back' : List Char} {b b' : Binding}
    (h : Binds d (byteSize front + 1) back b) (h' : Binds d (byteSize front' + 1) back' b')
    (htext : front ++ '\x7b' :: back = front' ++ '\x7b' :: back')
    (hlt : byteSize front < byteSize front') : b.range.stop < b'.range.start := by
  obtain ⟨inner, rest, rfl, hnot, -, -, hstop⟩ := h.inside
  obtain ⟨-, -, -, -, hstart, -, -⟩ := h'.inside
  by_contra hge
  obtain ⟨mid, rfl, hmid⟩ | ⟨mid, rfl, -⟩ := List.append_eq_append_iff.mp htext
  · cases mid with
    | nil => simp at hlt
    | cons e mid =>
        obtain ⟨rfl, hinner⟩ := List.cons.inj hmid
        refine hnot (mem_of_byteSize_lt hinner.symm ?_)
        simp only [byteSize_append, byteSize_cons, show '\x7b'.utf8Size = 1 from rfl] at hstart
        omega
  · rw [byteSize_append] at hlt
    omega

theorem scan_eq (d : Dialect) (text : List Char) :
    scan d text = (places 0 text).filterMap fun c =>
      ((pattern d).matchAt? c).bind ofReading? := by
  rw [scan, (opens_pattern d).matchesIn_eq, List.filterMap_filterMap]

theorem mem_scan {text : List Char} {b : Binding} : b ∈ scan d text ↔
    ∃ front back, text = front ++ '\x7b' :: back ∧ Binds d (byteSize front + 1) back b := by
  simp only [scan_eq, List.mem_filterMap, mem_places, binding_iff, Nat.zero_add]
  constructor
  · rintro ⟨c, ⟨front, htext, hoffset⟩, back, hrest, hbinds⟩
    exact ⟨front, back, hrest ▸ htext, hoffset ▸ hbinds⟩
  · rintro ⟨front, back, htext, hbinds⟩
    exact ⟨⟨'\x7b' :: back, byteSize front⟩, ⟨front, htext, rfl⟩, back, rfl, hbinds⟩

theorem scan_pairwise (d : Dialect) (text : List Char) :
    (scan d text).Pairwise fun b b' => b.range.stop < b'.range.start := by
  rw [scan_eq, List.pairwise_filterMap]
  refine (places_pairwise 0 text).imp_of_mem fun {c c'} hc hc' hlt b hb b' hb' => ?_
  obtain ⟨front, htext, hoffset⟩ := mem_places.mp hc
  obtain ⟨front', htext', hoffset'⟩ := mem_places.mp hc'
  obtain ⟨back, hrest, hbinds⟩ := binding_iff.mp hb
  obtain ⟨back', hrest', hbinds'⟩ := binding_iff.mp hb'
  rw [Nat.zero_add] at hoffset hoffset'
  rw [hoffset] at hbinds
  rw [hoffset'] at hbinds'
  exact hbinds.lt hbinds' (by rw [← hrest, ← hrest', ← htext, ← htext']) (by omega)

/-- A brace has at most one binding. -/
theorem Binds.unique {offset : Nat} {back : List Char} {b b' : Binding}
    (h : Binds d (offset + 1) back b) (h' : Binds d (offset + 1) back b') : b = b' := by
  have hb := (binding_iff (c := ⟨'\x7b' :: back, offset⟩)).mpr ⟨back, rfl, h⟩
  have hb' := (binding_iff (c := ⟨'\x7b' :: back, offset⟩)).mpr ⟨back, rfl, h'⟩
  exact Option.some.inj (hb.symm.trans hb')

/-- A scan finds exactly the bindings that the grammar allows at the braces of a text, from left to
right: each brace has at most one, and no two braces share one. -/
theorem scan_exact (d : Dialect) (text : List Char) :
    ((scan d text).Pairwise fun b b' => b.range.stop < b'.range.start) ∧
    (∀ b, b ∈ scan d text ↔
      ∃ front back, text = front ++ '\x7b' :: back ∧ Binds d (byteSize front + 1) back b) ∧
    ∀ front back front' back' b b', text = front ++ '\x7b' :: back →
      text = front' ++ '\x7b' :: back' → Binds d (byteSize front + 1) back b →
      Binds d (byteSize front' + 1) back' b' → (front = front' ↔ b = b') := by
  refine ⟨scan_pairwise d text, fun b => mem_scan, ?_⟩
  intro front back front' back' b b' htext htext' h h'
  have heq := htext.symm.trans htext'
  constructor
  · rintro rfl
    obtain ⟨-, rfl⟩ := List.cons.inj (List.append_cancel_left heq)
    exact h.unique h'
  · rintro rfl
    obtain ⟨-, -, -, -, -, hle, -⟩ := h.inside
    obtain hlt | hsize | hlt := Nat.lt_trichotomy (byteSize front) (byteSize front')
    · exact absurd (h.lt h' heq hlt) (by omega)
    · have hfront : takeBytes (byteSize front) text = front :=
        takeBytes_of_front ⟨_, htext.symm⟩
      have hfront' : takeBytes (byteSize front') text = front' :=
        takeBytes_of_front ⟨_, htext'.symm⟩
      rw [← hfront, hsize, hfront']
    · exact absurd (h'.lt h heq.symm hlt) (by omega)

/-- A path that ends in a dot hides no later expression. -/
example : scan .lwc "\x7bcard.\x7d \x7b card.name \x7d".toList = [⟨"card", ⟨10, 14⟩⟩] := by
  decide +kernel

end Scan

end ComponentAtlas.Binding
