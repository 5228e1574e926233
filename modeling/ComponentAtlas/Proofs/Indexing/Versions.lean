import ComponentAtlas.Proofs.Indexing.Candidates
import ComponentAtlas.Proofs.Registry.Holdings

/-!
# What a file held at a time

When no entry file ever shows two contents under one time, its place and its time tell its
content, and with the namespace they tell its tag. A stored tag is honest when it is such a tag;
it can then stand for every candidate that accepts it.
-/

namespace ComponentAtlas

namespace Tag

/-- Tags that differ at most in the spelling of their file. -/
def Alike (t u : Tag) : Prop :=
  t.file.same u.file = true ∧ { t with file := u.file } = u

namespace Alike

theorem refl (t : Tag) : t.Alike t :=
  ⟨Path.same_refl _, rfl⟩

theorem symm {t u : Tag} (h : t.Alike u) : u.Alike t := by
  obtain ⟨hfile, heq⟩ := h
  refine ⟨by rwa [Path.same_comm], ?_⟩
  rw [← heq]

theorem trans {t u v : Tag} (h : t.Alike u) (h' : u.Alike v) : t.Alike v := by
  obtain ⟨hfile, heq⟩ := h
  obtain ⟨hfile', heq'⟩ := h'
  refine ⟨Path.same_iff.mpr ((Path.same_iff.mp hfile).trans (Path.same_iff.mp hfile')), ?_⟩
  rw [← heq', ← heq]

theorem identity {t u : Tag} (h : t.Alike u) : t.identity = u.identity := by
  rw [← h.2]

theorem key {t u : Tag} (h : t.Alike u) : t.key = u.key := by
  rw [Tag.key, Tag.key, h.identity]

theorem dialect {t u : Tag} (h : t.Alike u) : t.dialect = u.dialect := by
  rw [← h.2]

theorem modifiedAt {t u : Tag} (h : t.Alike u) : t.modifiedAt = u.modifiedAt := by
  rw [← h.2]

theorem components {t u : Tag} (h : t.Alike u) : t.file.components = u.file.components :=
  Path.same_iff.mp h.1

end Alike

end Tag

/-- Optional tags of which both are missing or both are there and alike. -/
abbrev AlikeOption : Option Tag → Option Tag → Prop :=
  Option.Rel Tag.Alike

namespace AlikeOption

theorem refl (t : Option Tag) : AlikeOption t t := by
  cases t with
  | none => exact .none
  | some t => exact .some (.refl t)

theorem symm {t u : Option Tag} (h : AlikeOption t u) : AlikeOption u t := by
  cases h with
  | none => exact .none
  | some h => exact .some h.symm

theorem trans {t u v : Option Tag} (h : AlikeOption t u) (h' : AlikeOption u v) :
    AlikeOption t v := by
  cases h with
  | none => exact h'
  | some h =>
      cases h' with
      | some h' => exact .some (h.trans h')

theorem some_left {t : Tag} {u : Option Tag} (h : AlikeOption (some t) u) :
    ∃ u', u = some u' ∧ t.Alike u' := by
  cases h with
  | some h => exact ⟨_, rfl, h⟩

theorem some_right {t : Option Tag} {u : Tag} (h : AlikeOption t (some u)) :
    ∃ t', t = some t' ∧ t'.Alike u := by
  cases h with
  | some h => exact ⟨_, rfl, h⟩

end AlikeOption

namespace Holdings

/-- Holdings that agree under each key, up to the spelling of files. -/
def Alike (h h' : Holdings) : Prop :=
  ∀ key, AlikeOption (h key) (h' key)

/-- Lists that hold the same tags, of which those with one key are alike, leave the same, in
whatever order they come. -/
theorem ofTags_alike {tags others : List Tag}
    (hleft : ∀ t ∈ tags, ∃ u ∈ others, t.Alike u) (hright : ∀ u ∈ others, ∃ t ∈ tags, t.Alike u)
    (hkeys : ∀ u ∈ others, ∀ v ∈ others, u.key = v.key → u.Alike v) :
    (ofTags tags).Alike (ofTags others) := by
  intro key
  cases ht : ofTags tags key with
  | none =>
      have hnone : ofTags others key = .none := by
        refine ofTags_eq_none.mpr fun u hu hk => ?_
        obtain ⟨t, hmem, halike⟩ := hright u hu
        exact ofTags_eq_none.mp ht t hmem (halike.key.trans hk)
      rw [hnone]
      exact .none
  | some t =>
      obtain ⟨hmem, hk⟩ := ofTags_mem ht
      obtain ⟨u, hu, halike⟩ := hleft t hmem
      cases hv : ofTags others key with
      | none => exact absurd (halike.key.symm.trans hk) (ofTags_eq_none.mp hv u hu)
      | some v =>
          obtain ⟨hvmem, hvk⟩ := ofTags_mem hv
          have huv : u.key = v.key := halike.key.symm.trans (hk.trans hvk.symm)
          exact .some (halike.trans (hkeys u hu v hvmem huv))

/-- Holdings that are alike to those of some tags have each of these tags. -/
theorem Alike.of_mem {h : Holdings} {tags : List Tag} (halike : h.Alike (ofTags tags))
    (hkeys : ∀ u ∈ tags, ∀ v ∈ tags, u.key = v.key → u.Alike v) {u : Tag} (hu : u ∈ tags) :
    ∃ t, h u.key = some t ∧ t.Alike u := by
  have hrel := halike u.key
  cases hv : ofTags tags u.key with
  | none => exact absurd rfl (ofTags_eq_none.mp hv u hu)
  | some v =>
      obtain ⟨hmem, hkey⟩ := ofTags_mem hv
      rw [hv] at hrel
      obtain ⟨t, ht, htv⟩ := hrel.some_right
      exact ⟨t, ht, htv.trans (hkeys v hmem u hu hkey)⟩

end Holdings

/-- What the file of each place holds at each time. -/
abbrev Versions := Place → Nat → Option String

/-- The entry files of a tree hold what they hold at their times. -/
def FileTree.Shows (t : FileTree) (V : Versions) : Prop :=
  ∀ (d : Dialect) (outer : Place) (name ext : String), ext ∈ d.entryExtensions →
    ∀ text time, t.get? (outer ++ [name, name ++ "." ++ ext]) = some (.file text time) →
      V (outer ++ [name, name ++ "." ++ ext]) time = text

namespace FileTree

/-- Files that all hold the same show it at all times. -/
theorem shows_of_entries {t : FileTree} {source : Option String}
    (h : ∀ e ∈ t.entries, ∀ text time, e.2 = .file text time → text = source) :
    t.Shows fun _ _ => source := by
  intro d outer name ext _ text time hget
  exact (h _ (mem_entries_of_get? (by simp) hget) text time rfl).symm

/-- An entry file that is found under some path holds what its place holds at its time. -/
theorem Shows.of_entry {t : FileTree} {V : Versions} (h : t.Shows V) {d : Dialect} {p : Path}
    (hentry : p.isEntry d.entryExtensions = true) {text : Option String} {time : Nat}
    (hfile : t.entry? p = .ok (.file text time)) : V p.place time = text := by
  obtain ⟨steps, name, ext, hext, -, hcomponents⟩ := Path.isEntry_iff.mp hentry
  have hplace : p.place = steps.foldl Path.follow [] ++ [name, name ++ "." ++ ext] :=
    Path.place_of_components hcomponents
  have hget := get?_place hfile
  rw [hplace] at hget ⊢
  exact h d _ name ext hext text time hget

end FileTree

namespace Candidate

/-- The key under which the component of a candidate is registered. -/
def key (c : Candidate) : String :=
  Identity.keyOf c.space (c.path.stem?.getD "")

/-- Candidates of one key are one file. -/
def Distinct (cs : List Candidate) : Prop :=
  ∀ c ∈ cs, ∀ c' ∈ cs, c.key = c'.key → c.path.same c'.path = true

instance (cs : List Candidate) : Decidable (Distinct cs) :=
  inferInstanceAs (Decidable (∀ c ∈ cs, ∀ c' ∈ cs, c.key = c'.key → c.path.same c'.path = true))

/-- The tag of a candidate with some source. -/
def tagOf? (d : Dialect) (c : Candidate) (source : String) : Option Tag := do
  let localName ← c.path.stem?
  let m ← (d.compile source (c.path.fileName?.getD "")).toOption
  return Tag.ofMetadata ⟨c.space, localName, d.delimiter⟩ d c.path c.modifiedAt m

theorem compile?_eq_bind (t : FileTree) (d : Dialect) (c : Candidate) :
    c.compile? t d = (t.read c.path).toOption.bind (c.tagOf? d) := rfl

/-- What the tag of a candidate takes over from it. -/
theorem tagOf?_eq_some {d : Dialect} {c : Candidate} {source : String} {t : Tag}
    (h : c.tagOf? d source = some t) :
    t.dialect = d ∧ t.file = c.path ∧ t.modifiedAt = c.modifiedAt ∧ t.identity.space = c.space ∧
      t.key = c.key := by
  obtain ⟨localName, hname, hrest⟩ := Option.bind_eq_some_iff.mp h
  obtain ⟨m, hm, ht⟩ := Option.bind_eq_some_iff.mp hrest
  cases ht
  refine ⟨rfl, rfl, rfl, rfl, ?_⟩
  simp [Tag.key, Identity.key, key, hname, Tag.ofMetadata, Tag.ofMembers]

/-- Candidates that differ in the spelling of their file have tags that differ in it. -/
theorem tagOf?_alike {d : Dialect} {c c' : Candidate}
    (hpath : c.path.components = c'.path.components) (hspace : c.space = c'.space)
    (htime : c.modifiedAt = c'.modifiedAt) (source : String) :
    AlikeOption (c.tagOf? d source) (c'.tagOf? d source) := by
  unfold tagOf?
  rw [Path.stem?_congr hpath, Path.fileName?_congr hpath, hspace, htime]
  cases c'.path.stem? with
  | none => exact .none
  | some localName =>
      cases (d.compile source (c'.path.fileName?.getD "")).toOption with
      | none => exact .none
      | some m => exact .some ⟨Path.same_iff.mpr hpath, rfl⟩

end Candidate

namespace Versions

variable {V : Versions} {d : Dialect}

/-- The tag of a candidate by what its file holds at its time. -/
def tag? (V : Versions) (d : Dialect) (c : Candidate) : Option Tag :=
  (V c.path.place c.modifiedAt).bind (c.tagOf? d)

theorem tag?_alike {c c' : Candidate} (hpath : c.path.components = c'.path.components)
    (hspace : c.space = c'.space) (htime : c.modifiedAt = c'.modifiedAt) :
    AlikeOption (V.tag? d c) (V.tag? d c') := by
  rw [tag?, tag?, Path.place_congr hpath, htime]
  cases V c'.path.place c'.modifiedAt with
  | none => exact .none
  | some source => exact Candidate.tagOf?_alike hpath hspace htime source

theorem tag?_eq_some {c : Candidate} {t : Tag} (h : V.tag? d c = some t) :
    t.dialect = d ∧ t.file = c.path ∧ t.modifiedAt = c.modifiedAt ∧ t.identity.space = c.space ∧
      t.key = c.key := by
  obtain ⟨source, -, hsource⟩ := Option.bind_eq_some_iff.mp h
  exact Candidate.tagOf?_eq_some hsource

/-- A tag that is what its file gave at its time. -/
def Honest (V : Versions) (d : Dialect) (t : Tag) : Prop :=
  ∃ c u, V.tag? d c = some u ∧ t.Alike u

theorem Honest.dialect {t : Tag} (h : V.Honest d t) : t.dialect = d := by
  obtain ⟨c, u, hu, halike⟩ := h
  exact halike.dialect.trans (tag?_eq_some hu).1

/-- An honest tag of the file, the time and the namespace of a candidate is its tag. -/
theorem Honest.stands {t : Tag} (h : V.Honest d t) {c : Candidate}
    (hfile : t.file.same c.path = true) (htime : t.modifiedAt = c.modifiedAt)
    (hspace : t.identity.space = c.space) : AlikeOption (some t) (V.tag? d c) := by
  obtain ⟨c', u, hu, halike⟩ := h
  obtain ⟨-, hufile, hutime, huspace, -⟩ := tag?_eq_some hu
  have hpath : c'.path.components = c.path.components := by
    rw [← hufile, ← halike.components]
    exact Path.same_iff.mp hfile
  have hrel : AlikeOption (V.tag? d c') (V.tag? d c) := by
    refine tag?_alike hpath ?_ ?_
    · rw [← huspace, ← halike.identity, hspace]
    · rw [← hutime, ← halike.modifiedAt, htime]
  rw [hu] at hrel
  exact AlikeOption.trans (.some halike) hrel

end Versions

namespace Candidate

variable {V : Versions} {t : FileTree} {w : Workspace} {d : Dialect} {r : NamespaceRoots}

theorem isFile_of_compile? {c : Candidate} {tag : Tag} (h : c.compile? t d = some tag) :
    t.isFile c.path = true := by
  obtain ⟨source, hsource, -⟩ := Option.bind_eq_some_iff.mp (compile?_eq_bind t d c ▸ h)
  obtain ⟨time, hfile⟩ := FileTree.file_of_read hsource
  exact FileTree.isFile_iff.mpr ⟨some source, time, hfile⟩

/-- A file is compiled as what it holds at its time. -/
theorem compile?_eq_tag? (hshows : t.Shows V) {c : Candidate}
    (hentry : c.path.isEntry d.entryExtensions = true) {text : Option String}
    (hfile : t.entry? c.path = .ok (.file text c.modifiedAt)) :
    c.compile? t d = V.tag? d c := by
  rw [compile?_eq_bind, Versions.tag?, FileTree.read_of_file hfile,
    hshows.of_entry hentry hfile]

theorem Stands.compile?_eq_tag? {root : Path} {name ext : String} {c : Candidate}
    (h : c.Stands t w d root name ext) (hshows : t.Shows V) : c.compile? t d = V.tag? d c := by
  obtain ⟨text, hfile⟩ := h.file
  exact Candidate.compile?_eq_tag? hshows h.isEntry hfile

/-- A file under another spelling of a candidate has its time, and the namespace of the folder
around its container. -/
theorem Stands.of_same {root : Path} {name ext : String} {c : Candidate}
    (h : c.Stands t w d root name ext) {p : Path} (hsame : p.components = c.path.components)
    {text : Option String} {time : Nat} (hfile : t.entry? p = .ok (.file text time)) :
    time = c.modifiedAt ∧ ∃ g, p.grandparent? = some g ∧ g.components = root.components ∧
      w.namespaceForRoot g d = c.space := by
  have hsteps := hsame.trans h.components
  obtain ⟨g, hgrand, hg⟩ := Path.components_grandparent? hsteps
  refine ⟨?_, g, hgrand, hg, ?_⟩
  · obtain ⟨text', hfile'⟩ := h.file
    have hother : t.entry? c.path = .ok (.file text time) := by
      rw [h.path]
      refine FileTree.entry?_join_of_same h.plainFile ?_ hfile
      rw [hsame, h.path]
      rfl
    exact (Entry.file.inj (Except.ok.inj (hother.symm.trans hfile'))).2
  · rw [h.space, Workspace.namespaceForRoot, Workspace.namespaceForRoot, Path.fileName?_congr hg]

/-- Candidates of one file differ only in its spelling. -/
theorem Stands.eq_of_same {root root' : Path} {name name' ext ext' : String} {c c' : Candidate}
    (h : c.Stands t w d root name ext) (h' : c'.Stands t w d root' name' ext')
    (hsame : c.path.components = c'.path.components) :
    c.space = c'.space ∧ c.modifiedAt = c'.modifiedAt := by
  obtain ⟨text, hfile⟩ := h.file
  obtain ⟨-, g, hgrand, -, hspace⟩ := h.of_same rfl hfile
  obtain ⟨htime, g', hgrand', -, hspace'⟩ := h'.of_same hsame hfile
  obtain rfl : g = g' := Option.some.inj (hgrand.symm.trans hgrand')
  exact ⟨hspace.symm.trans hspace', htime⟩

/-- A file under another spelling of a candidate, with the namespace of the folder around its
container, is compiled like the candidate. -/
theorem Stands.compile?_alike {root : Path} {name ext : String} {c other : Candidate}
    (h : c.Stands t w d root name ext) (hshows : t.Shows V)
    (hsame : other.path.components = c.path.components) {g : Path}
    (hgrand : other.path.grandparent? = some g) (hspace : other.space = w.namespaceForRoot g d)
    {text : Option String} (hfile : t.entry? other.path = .ok (.file text other.modifiedAt)) :
    AlikeOption (other.compile? t d) (c.compile? t d) := by
  obtain ⟨htime, g', hgrand', -, hspace'⟩ := h.of_same hsame hfile
  obtain rfl : g = g' := Option.some.inj (hgrand.symm.trans hgrand')
  have hentry : other.path.isEntry d.entryExtensions = true := by
    rw [Path.isEntry_congr hsame, h.isEntry]
  rw [Candidate.compile?_eq_tag? hshows hentry hfile, h.compile?_eq_tag? hshows]
  exact Versions.tag?_alike hsame (hspace.trans hspace') htime

end Candidate

end ComponentAtlas
