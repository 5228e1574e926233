import ComponentAtlas.Proofs.Session.FullPass
import ComponentAtlas.Session.Update

/-!
# Updates in any order

The tasks of an update complete in any order too. What a batch of changes asks for is fixed by the
batch: keys that go with deleted files and files to compile. The outcomes of these come in any
order, and so do the tags that are registered in the end.
-/

namespace ComponentAtlas

namespace Update

section Parts

variable (p : Project) (d : Dialect) (r : NamespaceRoots)

/-- The key that goes with a change, when the entry file of a registered tag is deleted. -/
def deletedKey? (c : FileChange) : Option String :=
  if c.path.isEntry d.entryExtensions ∧ c.kind = .deleted then
    ((p.index.registry d).tagForFile? c.path).map Tag.key
  else none

/-- What a change of an entry file below a known root compiles to. -/
def outcome? (c : FileChange) : Option (Path × Option Tag) :=
  if c.path.isEntry d.entryExtensions ∧ c.kind ≠ .deleted then do
    let root ← c.path.grandparent?.filter (r.contains d)
    let time ← p.files.modifiedAt? c.path
    let space := p.session.workspace.namespaceForRoot root d
    return (c.path, Candidate.compile? p.files d ⟨c.path, space, time⟩)
  else none

/-- The key that goes with an outcome, when a registered file does not compile any longer. -/
def brokenKey? (registry : Registry) (outcome : Path × Option Tag) : Option String :=
  if outcome.2.isNone then (registry.tagForFile? outcome.1).map Tag.key else none

/-- The last tag of each key among some outcomes. -/
def lastTags (outcomes : List (Path × Option Tag)) : List Tag :=
  (outcomes.filterMap Prod.snd).foldl addTag []

/-- The batch of some changes with outcomes and tags in some order. -/
def batchOf (changes : List FileChange) (outcomes : List (Path × Option Tag)) (tags : List Tag) :
    List TagChange :=
  (changes.filterMap (deletedKey? p d) ++
      outcomes.filterMap (brokenKey? (p.index.registry d))).map .remove ++
    tags.map .upsert

end Parts

section Fold

variable {p : Project} {d : Dialect} {r : NamespaceRoots}

/-- A change adds its key or its outcome, and nothing else. -/
theorem step_parts (u : Update) (c : FileChange) :
    (step p d r u c).deleted = u.deleted ++ (deletedKey? p d c).toList ∧
      (step p d r u c).broken = u.broken ++
        ((outcome? p d r c).bind (brokenKey? (p.index.registry d))).toList ∧
      (step p d r u c).tags =
        ((outcome? p d r c).bind Prod.snd).toList.foldl addTag u.tags := by
  by_cases hentry : c.path.isEntry d.entryExtensions = true
  · by_cases hkind : c.kind = .deleted
    · simp [step, deletedKey?, outcome?, hentry, hkind, delete]
    · cases hroot : c.path.grandparent?.filter (r.contains d) with
      | none => simp [step, deletedKey?, outcome?, hentry, hkind, hroot]
      | some root =>
          cases htime : p.files.modifiedAt? c.path with
          | none => simp [step, deletedKey?, outcome?, hentry, hkind, hroot, htime]
          | some time =>
              cases hcompile : Candidate.compile? p.files d
                  ⟨c.path, p.session.workspace.namespaceForRoot root d, time⟩ <;>
                simp [step, deletedKey?, outcome?, hentry, hkind, hroot, htime, hcompile, compile,
                  brokenKey?]
  · simp [step, deletedKey?, outcome?, hentry]

theorem foldl_step (changes : List FileChange) (u : Update) :
    (changes.foldl (step p d r) u).deleted =
        u.deleted ++ changes.filterMap (deletedKey? p d) ∧
      (changes.foldl (step p d r) u).broken = u.broken ++
        (changes.filterMap (outcome? p d r)).filterMap (brokenKey? (p.index.registry d)) ∧
      (changes.foldl (step p d r) u).tags =
        ((changes.filterMap (outcome? p d r)).filterMap Prod.snd).foldl addTag u.tags := by
  induction changes generalizing u with
  | nil => simp
  | cons c rest ih =>
      obtain ⟨hdeleted, hbroken, htags⟩ := ih (step p d r u c)
      obtain ⟨hdeleted', hbroken', htags'⟩ := step_parts (p := p) (d := d) (r := r) u c
      rw [List.foldl_cons, hdeleted, hbroken, htags, hdeleted', hbroken', htags']
      refine ⟨?_, ?_, ?_⟩
      · cases h : deletedKey? p d c <;> simp [h]
      · cases h : outcome? p d r c with
        | none => simp [h]
        | some outcome =>
            cases hb : brokenKey? (p.index.registry d) outcome <;> simp [h, hb]
      · cases h : outcome? p d r c with
        | none => simp [h]
        | some outcome => cases hs : outcome.2 <;> simp [h, hs]

/-- A change that compiles is one of an entry file below a known root, which is there. -/
theorem outcome?_eq_some {e : FileChange} {path : Path} {u : Tag}
    (h : outcome? p d r e = some (path, some u)) :
    e.path.isEntry d.entryExtensions = true ∧ e.kind ≠ .deleted ∧
      ∃ g text time, e.path.grandparent? = some g ∧ r.contains d g = true ∧
        p.files.entry? e.path = .ok (.file text time) ∧
          Candidate.compile? p.files d
            ⟨e.path, p.session.workspace.namespaceForRoot g d, time⟩ = some u := by
  unfold outcome? at h
  split at h
  · next hkeep =>
      obtain ⟨g, hg, htime⟩ := Option.bind_eq_some_iff.mp h
      obtain ⟨time, hmodified, hcompiled⟩ := Option.bind_eq_some_iff.mp htime
      obtain ⟨-, hcompile⟩ := Prod.mk.inj (Option.some.inj hcompiled)
      obtain ⟨hgrand, hcontains⟩ := Option.filter_eq_some_iff.mp hg
      obtain ⟨source, hsource, -⟩ :=
        Option.bind_eq_some_iff.mp (Candidate.compile?_eq_bind _ _ _ ▸ hcompile)
      obtain ⟨modified, hfile⟩ := FileTree.file_of_read hsource
      obtain rfl : modified = time :=
        Option.some.inj ((FileTree.modifiedAt?_of_file hfile).symm.trans hmodified)
      exact ⟨hkeep.1, hkeep.2, g, some source, modified, hgrand, hcontains, hfile, hcompile⟩
  · cases h

/-- The batch of an update is that of its outcomes in the order of the changes. -/
theorem batch_foldl (changes : List FileChange) :
    (changes.foldl (step p d r) {}).batch =
      batchOf p d changes (changes.filterMap (outcome? p d r))
        (lastTags (changes.filterMap (outcome? p d r))) := by
  obtain ⟨hdeleted, hbroken, htags⟩ :=
    foldl_step (p := p) (d := d) (r := r) changes {}
  simp only [batch, removals, batchOf, lastTags, hdeleted, hbroken, htags, List.nil_append]

end Fold

section Tags

theorem mem_addTag {tags : List Tag} {t u : Tag} :
    u ∈ addTag tags t ↔ (u ∈ tags ∧ u.key ≠ t.key) ∨ u = t := by
  simp [addTag]

/-- Registering tags one by one keeps one of each key. -/
theorem mem_foldl_addTag {tags new : List Tag} :
    (∀ u ∈ new.foldl addTag tags, u ∈ tags ∨ u ∈ new) ∧
      ∀ t, t ∈ tags ∨ t ∈ new → ∃ u ∈ new.foldl addTag tags, u.key = t.key := by
  induction new generalizing tags with
  | nil =>
      refine ⟨fun u hu => .inl hu, fun t ht => ⟨t, ?_, rfl⟩⟩
      simpa using ht
  | cons t rest ih =>
      obtain ⟨hfrom, hkeep⟩ := @ih (addTag tags t)
      refine ⟨fun u hu => ?_, fun v hv => ?_⟩
      · rcases hfrom u hu with hmem | hmem
        · rcases mem_addTag.mp hmem with ⟨hold, -⟩ | rfl
          · exact .inl hold
          · exact .inr List.mem_cons_self
        · exact .inr (List.mem_cons_of_mem _ hmem)
      · by_cases hkey : v.key = t.key
        · obtain ⟨u, hu, hukey⟩ := hkeep t (.inl (mem_addTag.mpr (.inr rfl)))
          exact ⟨u, hu, hukey.trans hkey.symm⟩
        · refine hkeep v ?_
          rcases hv with hold | hnew
          · exact .inl (mem_addTag.mpr (.inl ⟨hold, hkey⟩))
          · rcases List.mem_cons.mp hnew with rfl | hrest
            · exact absurd rfl hkey
            · exact .inr hrest

theorem mem_lastTags {outcomes : List (Path × Option Tag)} {u : Tag} (h : u ∈ lastTags outcomes) :
    ∃ outcome ∈ outcomes, outcome.2 = some u := by
  rcases mem_foldl_addTag.1 u h with hnil | hmem
  · cases hnil
  · exact List.mem_filterMap.mp hmem

theorem exists_lastTag {outcomes : List (Path × Option Tag)} {outcome : Path × Option Tag}
    {t : Tag} (h : outcome ∈ outcomes) (ht : outcome.2 = some t) :
    ∃ u ∈ lastTags outcomes, u.key = t.key :=
  mem_foldl_addTag.2 t (.inr (List.mem_filterMap.mpr ⟨outcome, h, ht⟩))

/-- Each tag that a batch brings is the outcome of one of its changes. -/
theorem outcome_of_upsert {p : Project} {d : Dialect} {r : NamespaceRoots}
    {changes : List FileChange} {outcomes : List (Path × Option Tag)} {tags : List Tag}
    (houtcomes : outcomes.Perm (changes.filterMap (outcome? p d r)))
    (htags : tags.Perm (lastTags outcomes)) {t : Tag}
    (h : .upsert t ∈ batchOf p d changes outcomes tags) :
    ∃ e ∈ changes, ∃ path, outcome? p d r e = some (path, some t) := by
  have hmem : t ∈ tags := by
    rcases List.mem_append.mp h with hgone | hcome
    · obtain ⟨key, -, hkey⟩ := List.mem_map.mp hgone
      cases hkey
    · obtain ⟨u, hu, hut⟩ := List.mem_map.mp hcome
      cases hut
      exact hu
  obtain ⟨⟨path, _⟩, ho, rfl⟩ := mem_lastTags (htags.mem_iff.mp hmem)
  obtain ⟨e, he, houtcome⟩ := List.mem_filterMap.mp (houtcomes.mem_iff.mp ho)
  exact ⟨e, he, path, houtcome⟩

/-- The tags that a batch brings are own tags of entry files. -/
theorem entry_of_upsert {p : Project} {d : Dialect} {r : NamespaceRoots}
    {changes : List FileChange} {outcomes : List (Path × Option Tag)} {tags : List Tag}
    (houtcomes : outcomes.Perm (changes.filterMap (outcome? p d r)))
    (htags : tags.Perm (lastTags outcomes)) :
    ∀ t, .upsert t ∈ batchOf p d changes outcomes tags →
      t.dialect = d ∧ t.file.isEntry d.entryExtensions = true := by
  intro t ht
  obtain ⟨e, -, path, houtcome⟩ := outcome_of_upsert houtcomes htags ht
  obtain ⟨hentry, -, g, text, time, -, -, -, hcompile⟩ := outcome?_eq_some houtcome
  obtain ⟨hdialect, hfile, -⟩ := Candidate.compile?_eq_some hcompile
  exact ⟨hdialect, by rw [hfile, hentry]⟩

end Tags

end Update

namespace Project

/-- Whether a batch of changes asks for a full pass over a dialect. -/
def asksPass (changes : List FileChange) (d : Dialect) (roots : NamespaceRoots) : Bool :=
  changes.any fun c => c.deletesFolder && touchesRoot c.path (roots.forDialect d)

/-- An update whose outcomes come in any order. -/
inductive UpdatesTo (changes : List FileChange) (p : Project) (d : Dialect) : Project → Prop where
  | pass {roots : NamespaceRoots} {q : Project} (hroots : p.namespaceRoots = .ok roots)
      (hasks : asksPass changes d roots = true) (hpass : p.remember.PassesTo d true q) :
      UpdatesTo changes p d q
  | batch {roots : NamespaceRoots} {outcomes : List (Path × Option Tag)} {tags : List Tag}
      (hroots : p.namespaceRoots = .ok roots) (hasks : ¬asksPass changes d roots = true)
      (houtcomes : outcomes.Perm (changes.filterMap (Update.outcome? p d roots)))
      (htags : tags.Perm (Update.lastTags outcomes)) :
      UpdatesTo changes p d (p.remember.withIndex
        (p.index.commit d (Update.batchOf p d changes outcomes tags)).1)

theorem update_isOk {changes : List FileChange} {p : Project} {d : Dialect}
    {roots : NamespaceRoots} (h : p.namespaceRoots = .ok roots) :
    (p.update changes d).2.isOk = true := by
  unfold update
  have hroots : p.remember.namespaceRoots = .ok roots := by rw [namespaceRoots_remember, h]
  dsimp only
  rw [hroots]
  dsimp only
  split
  · exact pass_isOk p.remember d true hroots
  · rfl

/-- An update in the order of the changes is one of them. -/
theorem updatesTo_update {changes : List FileChange} {p : Project} {d : Dialect}
    {roots : NamespaceRoots} (h : p.namespaceRoots = .ok roots) :
    p.UpdatesTo changes d (p.update changes d).1 := by
  have hroots : p.remember.namespaceRoots = .ok roots := by rw [namespaceRoots_remember, h]
  have hupdate : (p.update changes d).1 =
      if asksPass changes d roots = true then (p.remember.pass d true).1
      else p.remember.withIndex
        (p.index.commit d (changes.foldl (Update.step p.remember d roots) {}).batch).1 := by
    unfold update
    dsimp only
    rw [hroots]
    dsimp only
    split
    · next hasks => exact (if_pos hasks).symm
    · next hasks => exact (if_neg hasks).symm
  rw [hupdate]
  split
  · next hasks => exact .pass h hasks (passesTo_pass p.remember d true hroots)
  · next hasks =>
      rw [Update.batch_foldl]
      exact .batch h hasks (List.Perm.refl _) (List.Perm.refl _)

end Project

end ComponentAtlas
