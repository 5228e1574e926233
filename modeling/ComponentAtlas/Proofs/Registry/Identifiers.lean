import ComponentAtlas.Proofs.Registry.Events
import ComponentAtlas.Proofs.Registry.Mirrors
import ComponentAtlas.Proofs.Text.Conventions
import ComponentAtlas.Provider.Basic
import Mathlib.Data.List.TakeWhile

/-!
# What identifiers stand for

An identifier with hyphens may be read in several ways. When the names of the tags are plain and no
namespace goes on from another behind a hyphen, only the reading at the end of the tag's own
namespace finds anything, so each spelling of a tag leads to that tag and no other.
-/

namespace ComponentAtlas

open ComponentAtlas.Text

namespace Identity

/-- The identifiers for a component: either mark, and the local name in either convention. -/
def spellings (i : Identity) : List String :=
  [i.space ++ ":" ++ i.localName, i.space ++ ":" ++ kebabOfCamel i.localName,
    i.space ++ "-" ++ i.localName, i.space ++ "-" ++ kebabOfCamel i.localName]

/-- Markup of the component's own dialect writes one of them. -/
theorem render_mem_spellings (i : Identity) : i.render ∈ i.spellings := by
  unfold render spellings
  cases i.delimiter <;> simp

/-- Behind a namespace without a colon the key shows the local name. -/
theorem eq_of_key {i : Identity} {space localName : String} (hi : ':' ∉ i.space.toList)
    (hspace : ':' ∉ space.toList) (h : i.key = keyOf space localName) :
    i.space = space ∧ i.localName = localName := by
  have hsame : i.space = space :=
    space_eq_of_key (j := ⟨space, localName, .colon⟩) hi hspace h
  refine ⟨hsame, ?_⟩
  rw [key, keyOf, keyOf, hsame] at h
  have hchars := congrArg String.toList h
  exact String.toList_inj.mp (by simpa using hchars)

end Identity

namespace Registry

section Splits

/-- A colon is found behind what has none. -/
theorem splitColon?_append {front rest : List Char} (h : ':' ∉ front) :
    splitColon? (front ++ ':' :: rest) = some (front, rest) := by
  have hinside : ∀ c ∈ front, (c != ':') = true :=
    fun c hc => bne_iff_ne.mpr fun e => h (e ▸ hc)
  have htake : (front ++ ':' :: rest).takeWhile (· != ':') = front := by
    rw [List.takeWhile_append_of_pos hinside]
    simp
  simp only [splitColon?, htake, List.drop_left]

theorem splitColon?_eq_none {text : List Char} (h : ':' ∉ text) : splitColon? text = none := by
  have hinside : ∀ c ∈ text, (c != ':') = true :=
    fun c hc => bne_iff_ne.mpr fun e => h (e ▸ hc)
  have htake : text.takeWhile (· != ':') = text :=
    List.takeWhile_eq_self_iff.mpr hinside
  simp only [splitColon?, htake, List.drop_length]

theorem eq_of_splitColon? {text front rest : List Char}
    (h : splitColon? text = some (front, rest)) :
    text = front ++ ':' :: rest ∧ ':' ∉ front := by
  unfold splitColon? at h
  dsimp only at h
  split at h
  · next hdrop =>
      obtain ⟨rfl, rfl⟩ := Prod.mk.inj (Option.some.inj h)
      refine ⟨?_, fun hmem => ?_⟩
      · rw [← hdrop]
        conv_lhs => rw [← List.take_append_drop (text.takeWhile (· != ':')).length text]
        congr 1
        exact (List.prefix_iff_eq_take.mp (List.takeWhile_prefix _)).symm
      · have hpass := List.mem_takeWhile_imp hmem
        exact absurd hpass (by decide)
  · cases h

/-- Around a mark between two names the first colon is the mark, or stands in front of it. -/
theorem exists_first_colon (space : List Char) {name : List Char} (hname : name ≠ []) :
    ∃ front rest, space ++ ':' :: name = front ++ ':' :: rest ∧ ':' ∉ front ∧ rest ≠ [] ∧
      (front ≠ [] ↔ space.head?.any (· != ':') = true) := by
  have hhead : ∀ front : List Char, ':' ∉ front → ∀ rest,
      (front ≠ [] ↔ (front ++ ':' :: rest).head?.any (· != ':') = true) := by
    intro front hfront rest
    cases front with
    | nil => simp
    | cons c inner => simpa using fun hc : c = ':' => hfront (hc ▸ List.mem_cons_self)
  by_cases hcolon : ':' ∈ space
  · obtain ⟨front, rest, rfl, hfront⟩ := List.eq_append_cons_of_mem hcolon
    exact ⟨front, rest ++ ':' :: name, by simp, hfront, by simp, hhead front hfront rest⟩
  · refine ⟨space, name, rfl, hcolon, hname, ?_⟩
    cases space with
    | nil => simp
    | cons c inner => simpa using hhead (c :: inner) hcolon []

/-- The parts around a hyphen make up the text. -/
theorem eq_of_mem_hyphenSplits {front text p x : List Char}
    (h : (p, x) ∈ hyphenSplits front text) : front.reverse ++ text = p ++ '-' :: x := by
  induction text generalizing front with
  | nil => cases h
  | cons c rest ih =>
      rw [hyphenSplits, List.mem_append] at h
      rcases h with hhere | hrest
      · split at hhere
        · next hc =>
            obtain ⟨rfl, rfl⟩ := Prod.mk.inj (List.mem_singleton.mp hhere)
            rw [hc]
        · cases hhere
      · simpa using ih hrest

/-- The splits of a text at a hyphen: those of what stands in front, that hyphen, and others. -/
theorem hyphenSplits_append (front text rest : List Char) :
    ∃ later, hyphenSplits front (text ++ '-' :: rest) =
      (hyphenSplits front text).map (fun (p, x) => (p, x ++ '-' :: rest)) ++
        (front.reverse ++ text, rest) :: later := by
  induction text generalizing front with
  | nil =>
      refine ⟨hyphenSplits ('-' :: front) rest, ?_⟩
      simp [hyphenSplits]
  | cons c text ih =>
      obtain ⟨later, hlater⟩ := ih (c :: front)
      refine ⟨later, ?_⟩
      rw [List.cons_append, hyphenSplits, hyphenSplits, hlater, List.map_append,
        List.append_assoc]
      congr 1
      · split <;> rfl
      · simp

end Splits

/-- What a reading finds: the local name is tried as it is, then in the other convention. -/
def readAs? (r : Registry) (space localName : String) : Option Tag :=
  (r.get? (Identity.keyOf space localName)).or
    (r.get? (Identity.keyOf space (flipConvention localName)))

theorem find?_eq_readAs? (r : Registry) (query : String) :
    r.find? query = (readings r.namespaces query).findSome? fun p => r.readAs? p.1 p.2 := rfl

theorem mem_of_readAs? {r : Registry} {space localName : String} {u : Tag}
    (h : r.readAs? space localName = some u) : u ∈ r.all := by
  rcases Option.or_eq_some_iff.mp h with hsame | ⟨-, hflip⟩
  · exact mem_of_lookup hsame
  · exact mem_of_lookup hflip

/-- What is found is registered. -/
theorem mem_of_find? {r : Registry} {query : String} {u : Tag} (h : r.find? query = some u) :
    u ∈ r.all := by
  rw [find?_eq_readAs?] at h
  obtain ⟨reading, -, hread⟩ := List.exists_of_findSome?_eq_some h
  exact mem_of_readAs? hread

/-- No namespace has a colon. -/
def ColonFree (r : Registry) : Prop :=
  ∀ t ∈ r.all, ':' ∉ t.identity.space.toList

/-- Plain names: the namespaces are not empty, have no colon and do not go on from each other
behind a hyphen, and the local names are in camel case. -/
structure Named (r : Registry) : Prop where
  space_ne : ∀ t ∈ r.all, t.identity.space ≠ ""
  colonFree : r.ColonFree
  camel : ∀ t ∈ r.all, IsCamel t.identity.localName.toList
  apart : ∀ space ∈ r.namespaces, ∀ longer ∈ r.namespaces, ∀ more, more ≠ "" →
    longer ≠ space ++ "-" ++ more

section Readings

variable {r : Registry}

theorem Named.of_names
    (hnames : ∀ t ∈ r.all, t.identity.space ≠ "" ∧ ':' ∉ t.identity.space.toList ∧
      IsCamel t.identity.localName.toList)
    (hapart : ∀ space ∈ r.namespaces, ∀ longer ∈ r.namespaces,
      ¬space.toList ++ ['-'] <+: longer.toList) : r.Named where
  space_ne t ht := (hnames t ht).1
  colonFree t ht := (hnames t ht).2.1
  camel t ht := (hnames t ht).2.2
  apart space hspace longer hlonger more _ hmore := by
    refine hapart space hspace longer hlonger ⟨more.toList, ?_⟩
    simp [hmore]

/-- A reading finds a tag with its namespace and, in one of the conventions, its local name. -/
theorem ColonFree.of_readAs? (h : r.ColonFree) {space localName : String} {u : Tag}
    (hspace : ':' ∉ space.toList) (hu : r.readAs? space localName = some u) :
    u ∈ r.all ∧ u.identity.space = space ∧
      (localName = u.identity.localName ∨ flipConvention localName = u.identity.localName) := by
  have hdecode : ∀ name, r.get? (Identity.keyOf space name) = some u →
      u ∈ r.all ∧ u.identity.space = space ∧ u.identity.localName = name := by
    intro name hget
    have hmem : u ∈ r.all := mem_of_lookup hget
    exact ⟨hmem, Identity.eq_of_key (h u hmem) hspace (get?_eq_some_key hget)⟩
  rcases Option.or_eq_some_iff.mp hu with hsame | ⟨-, hflip⟩
  · obtain ⟨hmem, hns, hname⟩ := hdecode _ hsame
    exact ⟨hmem, hns, .inl hname.symm⟩
  · obtain ⟨hmem, hns, hname⟩ := hdecode _ hflip
    exact ⟨hmem, hns, .inr hname.symm⟩

/-- Only names in camel case are registered. -/
theorem Named.get?_eq_none (h : r.Named) {space name : String} (hspace : ':' ∉ space.toList)
    (hname : ¬IsCamel name.toList) : r.get? (Identity.keyOf space name) = none := by
  refine lookup_eq_none.mpr fun u hu hkey => hname ?_
  obtain ⟨-, hlocal⟩ := Identity.eq_of_key (h.colonFree u hu) hspace hkey
  exact hlocal ▸ h.camel u hu

/-- Under a name in camel case a reading finds what is registered, in either convention. -/
theorem Named.readAs?_eq (h : r.Named) {space name shown : String} (hspace : ':' ∉ space.toList)
    (hcamel : IsCamel name.toList) (hshown : shown = name ∨ shown = kebabOfCamel name) :
    r.readAs? space shown = r.get? (Identity.keyOf space name) := by
  have hraised : '-' ∈ hyphenate name.toList →
      r.get? (Identity.keyOf space (kebabOfCamel name)) = none := by
    intro hhyphen
    refine h.get?_eq_none hspace fun hkebab => hkebab.hyphen_not_mem ?_
    simpa [kebabOfCamel] using hhyphen
  have hflip : flipConvention name = kebabOfCamel name := by
    rw [flipConvention, if_neg]
    simpa using hcamel.hyphen_not_mem
  have hsame : hyphenate name.toList = name.toList → kebabOfCamel name = name := by
    intro hsame
    rw [kebabOfCamel, hsame, String.ofList_toList]
  rcases hcamel.uncapitalized.hyphenate_cases with hplain | hhyphen
  · obtain rfl : shown = name := hshown.elim id fun hkebab => hkebab.trans (hsame hplain)
    rw [readAs?, hflip, hsame hplain, Option.or_self]
  · rcases hshown with rfl | rfl
    · rw [readAs?, hflip, hraised hhyphen, Option.or_none]
    · rcases flipConvention_kebabOfCamel hcamel with hback | hback
      · rw [readAs?, hback, hflip, hraised hhyphen, Option.or_none]
      · rw [readAs?, hback, hraised hhyphen, Option.none_or]

theorem readings_colon {namespaces : List String} {space name : String} (hspace : space ≠ "")
    (hclear : ':' ∉ space.toList) (hname : name ≠ "") :
    readings namespaces (space ++ ":" ++ name) = [(space, name)] := by
  have hchars : (space ++ ":" ++ name).toList = space.toList ++ ':' :: name.toList := by simp
  have hne : ¬(space.toList = [] ∨ name.toList = []) := by
    simp [hspace, hname]
  simp only [readings, hchars, splitColon?_append hclear, if_neg hne, String.ofList_toList]

/-- Behind a registered namespace a hyphen is read as its end. Earlier readings end within the
namespace, at registered ones. -/
theorem readings_hyphen {namespaces : List String} {space name : String}
    (hregistered : space ∈ namespaces) (hspace : ':' ∉ space.toList) (hname : name ≠ "")
    (hclear : ':' ∉ name.toList) :
    ∃ earlier later,
      readings namespaces (space ++ "-" ++ name) = earlier ++ (space, name) :: later ∧
        ∀ p ∈ earlier, p.1 ∈ namespaces ∧
          ∃ more, space = p.1 ++ "-" ++ more ∧ p.2 = more ++ "-" ++ name := by
  have hchars : (space ++ "-" ++ name).toList = space.toList ++ '-' :: name.toList := by simp
  have hnone : splitColon? (space ++ "-" ++ name).toList = none := by
    refine splitColon?_eq_none ?_
    rw [hchars]
    simp [hspace, hclear]
  have hpass : (!name.toList.isEmpty && namespaces.contains space) = true := by
    simp [hregistered, hname]
  obtain ⟨later, hsplits⟩ := hyphenSplits_append [] space.toList name.toList
  rw [readings, hnone]
  simp only [hchars, hsplits, List.filter_append, List.map_append, List.filter_cons,
    List.reverse_nil, List.nil_append, String.ofList_toList, hpass, if_true, List.map_cons]
  refine ⟨_, _, rfl, fun p hp => ?_⟩
  simp only [List.mem_map, List.mem_filter, Bool.and_eq_true] at hp
  obtain ⟨-, ⟨⟨⟨front, x⟩, hmem, rfl⟩, -, hfront⟩, rfl⟩ := hp
  have hparts : space.toList = front ++ '-' :: x := by
    simpa using eq_of_mem_hyphenSplits hmem
  refine ⟨by simpa using hfront, String.ofList x, ?_, ?_⟩
  · exact String.toList_inj.mp (by simp [hparts])
  · exact String.toList_inj.mp (by simp)

/-- A reading that ends within a namespace finds nothing: the hyphen is its last character, so a
further hyphen stands in front of the local name. -/
theorem Named.readAs?_earlier (h : r.Named) (hkept : r.Kept) {space short more name : String}
    (hspace : space ∈ r.namespaces) (hshort : short ∈ r.namespaces)
    (hparts : space = short ++ "-" ++ more)
    (hname : ∃ c rest, name.toList = c :: rest ∧ c.isLower = true) :
    r.readAs? short (more ++ "-" ++ name) = none := by
  obtain rfl : more = "" := by
    by_contra hmore
    exact h.apart short hshort space hspace more hmore hparts
  obtain ⟨c, rest, hname, hlower⟩ := hname
  obtain ⟨v, hv, hvspace⟩ := (mem_namespaces hkept.refreshed _).mp hshort
  have hclear : ':' ∉ short.toList := hvspace ▸ h.colonFree v hv
  have hchars : ("" ++ "-" ++ name).toList = '-' :: name.toList := by simp
  have htyped : ¬IsCamel ("" ++ "-" ++ name).toList := by
    rw [hchars]
    exact fun hcamel => hcamel.hyphen_not_mem List.mem_cons_self
  have hflipped : ¬IsCamel (flipConvention ("" ++ "-" ++ name)).toList := by
    rw [flipConvention, camelOfKebab, hchars, if_pos (by simp), String.toList_ofList, hname]
    exact not_isCamel_camelize hlower
  rw [readAs?, h.get?_eq_none hclear htyped, h.get?_eq_none hclear hflipped, Option.or_none]

/-- A tag is found behind both marks under each name for which it is read. -/
theorem Named.find?_eq (h : r.Named) (hkept : r.Kept) {t : Tag} (ht : t ∈ r.all)
    {name : String} (hclear : ':' ∉ name.toList)
    (hname : ∃ c rest, name.toList = c :: rest ∧ c.isLower = true)
    (hread : r.readAs? t.identity.space name = some t) :
    r.find? (t.identity.space ++ ":" ++ name) = some t ∧
      r.find? (t.identity.space ++ "-" ++ name) = some t := by
  have hne : name ≠ "" := by
    rintro rfl
    obtain ⟨c, rest, hcons, -⟩ := hname
    cases hcons
  have hspace := h.colonFree t ht
  have hregistered : t.identity.space ∈ r.namespaces :=
    (mem_namespaces hkept.refreshed _).mpr ⟨t, ht, rfl⟩
  constructor
  · rw [find?_eq_readAs?, readings_colon (h.space_ne t ht) hspace hne]
    simp [hread]
  · obtain ⟨earlier, later, hreadings, hearlier⟩ :=
      readings_hyphen hregistered hspace hne hclear
    have hnone : earlier.findSome? (fun p => r.readAs? p.1 p.2) = none := by
      refine List.findSome?_eq_none_iff.mpr fun p hp => ?_
      obtain ⟨hshort, more, hparts, hbehind⟩ := hearlier p hp
      rw [hbehind]
      exact h.readAs?_earlier hkept hregistered hshort hparts hname
    rw [find?_eq_readAs?, hreadings, List.findSome?_append, hnone, Option.none_or,
      List.findSome?_cons, hread]

/-- An identifier with a colon leads to what has it for a key, or the name in the other
convention, unless nothing stands on one side of the first colon. -/
theorem find?_colon {front rest : List Char} (hfront : ':' ∉ front) :
    r.find? (String.ofList (front ++ ':' :: rest)) =
      if front = [] ∨ rest = [] then none
      else r.readAs? (String.ofList front) (String.ofList rest) := by
  rw [find?_eq_readAs?, readings, String.toList_ofList, splitColon?_append hfront]
  dsimp only
  split
  · rfl
  · exact List.findSome?_singleton

/-- The key of a tag is an identifier for it, unless its namespace is empty or starts with a
colon. -/
theorem find?_key_self (h : Ordered r.tags) {t : Tag} (ht : t ∈ r.all)
    (hname : t.identity.localName ≠ "") :
    r.find? t.key = if t.identity.space.toList.head?.any (· != ':') then some t else none := by
  have hname : t.identity.localName.toList ≠ [] := by simpa using hname
  obtain ⟨front, rest, hsplit, hclear, hrest, hfront⟩ :=
    exists_first_colon t.identity.space.toList hname
  have hkey : t.key = String.ofList (front ++ ':' :: rest) :=
    String.toList_inj.mp (by simp [Tag.key, Identity.key, Identity.keyOf, ← hsplit])
  have hread : r.readAs? (String.ofList front) (String.ofList rest) = some t := by
    have hpair : Identity.keyOf (String.ofList front) (String.ofList rest) = t.key :=
      String.toList_inj.mp (by simp [hkey, Identity.keyOf])
    have hself : r.get? t.key = some t := h.lookup_of_mem ht
    rw [readAs?, hpair, hself, Option.some_or]
  rw [hkey, find?_colon hclear, hread]
  by_cases hempty : front = []
  · rw [if_pos (.inl hempty), if_neg fun hspace => hfront.mpr hspace hempty]
  · rw [if_neg (not_or.mpr ⟨hempty, hrest⟩), if_pos (hfront.mp hempty)]

/-- Each spelling of a tag leads to it. -/
theorem Named.find?_spelling (h : r.Named) (hkept : r.Kept) {t : Tag} (ht : t ∈ r.all)
    {q : String} (hq : q ∈ t.identity.spellings) : r.find? q = some t := by
  have hcamel := h.camel t ht
  have hself : r.get? (Identity.keyOf t.identity.space t.identity.localName) = some t :=
    hkept.ordered.lookup_of_mem ht
  obtain ⟨c, rest, hname, hlower, hhyphenate⟩ := hcamel.hyphenate_eq
  have hplain := h.find?_eq hkept ht (fun hc => (hcamel.joined hc).2 rfl) ⟨c, rest, hname, hlower⟩
    ((h.readAs?_eq (h.colonFree t ht) hcamel (.inl rfl)).trans hself)
  have hclear : ':' ∉ (kebabOfCamel t.identity.localName).toList := by
    simpa [kebabOfCamel] using hcamel.colon_not_mem_hyphenate
  have hkebab := h.find?_eq hkept ht hclear
    ⟨c, hyphenateRest rest, by simpa [kebabOfCamel] using hhyphenate, hlower⟩
    ((h.readAs?_eq (h.colonFree t ht) hcamel (.inr rfl)).trans hself)
  simp only [Identity.spellings, List.mem_cons, List.not_mem_nil, or_false] at hq
  rcases hq with rfl | rfl | rfl | rfl
  · exact hplain.1
  · exact hkebab.1
  · exact hplain.2
  · exact hkebab.2

/-- A tag in camel case whose identifier behind a hyphen has no other reading that is registered:
its namespace does not go on from another one behind a hyphen, and no other tag of its namespace
has the hyphenated name. -/
structure Distinguished (r : Registry) (t : Tag) : Prop where
  colonFree : ':' ∉ t.identity.space.toList
  camel : IsCamel t.identity.localName.toList
  apart : ∀ space ∈ r.namespaces, ∀ more, t.identity.space ≠ space ++ "-" ++ more
  alone : ∀ u ∈ r.all,
    u.key = Identity.keyOf t.identity.space (kebabOfCamel t.identity.localName) → u = t

theorem Distinguished.find?_hyphen {t : Tag} (h : r.Distinguished t) (hkept : r.Kept)
    (ht : t ∈ r.all) :
    r.find? (t.identity.space ++ "-" ++ kebabOfCamel t.identity.localName) = some t := by
  have hself : r.get? (Identity.keyOf t.identity.space t.identity.localName) = some t :=
    hkept.ordered.lookup_of_mem ht
  have hregistered : t.identity.space ∈ r.namespaces :=
    (mem_namespaces hkept.refreshed _).mpr ⟨t, ht, rfl⟩
  have hclear : ':' ∉ (kebabOfCamel t.identity.localName).toList := by
    simpa [kebabOfCamel] using h.camel.colon_not_mem_hyphenate
  have hname : kebabOfCamel t.identity.localName ≠ "" := by
    obtain ⟨c, rest, -, -, hhyphenate⟩ := h.camel.hyphenate_eq
    simp [kebabOfCamel, hhyphenate]
  obtain ⟨earlier, later, hreadings, hearlier⟩ :=
    readings_hyphen hregistered h.colonFree hname hclear
  have hfirst : earlier = [] := by
    refine List.eq_nil_iff_forall_not_mem.mpr fun p hp => ?_
    obtain ⟨hshort, more, hparts, -⟩ := hearlier p hp
    exact h.apart p.1 hshort more hparts
  have hread : r.readAs? t.identity.space (kebabOfCamel t.identity.localName) = some t := by
    rw [readAs?]
    cases hget : r.get? (Identity.keyOf t.identity.space (kebabOfCamel t.identity.localName)) with
    | some u =>
        have hu : u = t := h.alone u (mem_of_lookup hget) (get?_eq_some_key hget)
        rw [hu, Option.some_or]
    | none =>
        rw [Option.none_or]
        rcases flipConvention_kebabOfCamel h.camel with hsame | hback
        · rw [hsame, hself] at hget
          cases hget
        · rw [hback, hself]
  rw [find?_eq_readAs?, hreadings, hfirst, List.nil_append, List.findSome?_cons, hread]

/-- With a name in camel case the key of a tag is an identifier for what it holds. -/
theorem Named.find?_key (h : r.Named) {space name : String} (hne : space ≠ "")
    (hspace : ':' ∉ space.toList) (hcamel : IsCamel name.toList) :
    r.find? (Identity.keyOf space name) = r.get? (Identity.keyOf space name) := by
  have hname : name ≠ "" := by
    rintro rfl
    exact hcamel
  have hread := h.readAs?_eq hspace hcamel (.inl rfl)
  rw [find?_eq_readAs?, Identity.keyOf, readings_colon hne hspace hname]
  simp [hread, Identity.keyOf]

/-- A tag that is found has the namespace in front of the mark, and the name behind it. -/
theorem ColonFree.of_find? (h : r.ColonFree) (hkept : r.Kept) {q : String} {u : Tag}
    (hu : r.find? q = some u) :
    ∃ mark ∈ [":", "-"], ∃ name, name ≠ "" ∧ q = u.identity.space ++ mark ++ name ∧
      (name = u.identity.localName ∨ flipConvention name = u.identity.localName) := by
  rw [find?_eq_readAs?] at hu
  obtain ⟨⟨space, name⟩, hmem, hread⟩ := List.exists_of_findSome?_eq_some hu
  unfold readings at hmem
  split at hmem
  · next front rest hsplit =>
      obtain ⟨htext, hclear⟩ := eq_of_splitColon? hsplit
      split at hmem
      · cases hmem
      next hne =>
        obtain ⟨rfl, rfl⟩ := Prod.mk.inj (List.mem_singleton.mp hmem)
        have hclear : ':' ∉ (String.ofList front).toList := by simpa using hclear
        obtain ⟨-, hspace, hlocal⟩ := h.of_readAs? hclear hread
        refine ⟨":", by simp, String.ofList rest, ?_, ?_, hlocal⟩
        · simpa using fun hrest => hne (.inr hrest)
        · exact String.toList_inj.mp (by simp [hspace, htext])
  · simp only [List.mem_map, List.mem_filter, Bool.and_eq_true] at hmem
    obtain ⟨⟨front, rest⟩, ⟨hsplit, hrest, hfront⟩, hpair⟩ := hmem
    obtain ⟨rfl, rfl⟩ := Prod.mk.inj hpair
    have hfront : String.ofList front ∈ r.namespaces := by simpa using hfront
    obtain ⟨v, hv, hvspace⟩ := (mem_namespaces hkept.refreshed _).mp hfront
    have hclear : ':' ∉ (String.ofList front).toList := hvspace ▸ h v hv
    have htext : q.toList = front ++ '-' :: rest := by simpa using eq_of_mem_hyphenSplits hsplit
    obtain ⟨-, hspace, hlocal⟩ := h.of_readAs? hclear hread
    refine ⟨"-", by simp, String.ofList rest, by simpa using hrest, ?_, hlocal⟩
    exact String.toList_inj.mp (by simp [hspace, htext])

end Readings

end Registry

end ComponentAtlas
