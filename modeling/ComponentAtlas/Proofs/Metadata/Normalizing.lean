import ComponentAtlas.Metadata.Basic
import ComponentAtlas.Proofs.Provider.Listing

/-!
# One member per name

A target of a decorator counts as a member that has nothing but the decorator. The members and,
behind them, the targets give one member for each name: the first one with the name, with the first
decorator and the first documentation that any of them has. Doing so once more changes nothing.
-/

namespace ComponentAtlas

/-- A target as a member that has only its decorator. -/
def DecoratorTarget.asMember (t : DecoratorTarget) (kind : DecoratorKind) : ClassMember :=
  ⟨t.name, t.kind, some kind, none, none, none⟩

namespace Metadata

/-- The members with a name. -/
def named (name : String) (items : List ClassMember) : List ClassMember :=
  items.filter fun m => m.name == name

/-- A member with the first decorator and the first documentation of its name. -/
def gather (items : List ClassMember) (m : ClassMember) : ClassMember :=
  { m with
    decorator := (named m.name items).findSome? ClassMember.decorator
    doc := (named m.name items).findSome? ClassMember.doc }

/-- The targets in the order of the decorators, each with the kind of its decorator. -/
def targets (md : Metadata) : List (DecoratorKind × DecoratorTarget) :=
  md.decorators.flatMap fun d => d.targets.map fun t => (d.kind, t)

theorem mem_targets {md : Metadata} {p : DecoratorKind × DecoratorTarget} :
    p ∈ md.targets ↔ ∃ d ∈ md.decorators, d.kind = p.1 ∧ p.2 ∈ d.targets := by
  simp only [targets, List.mem_flatMap, List.mem_map]
  refine exists_congr fun d => and_congr_right fun _ => ?_
  constructor
  · rintro ⟨t, ht, rfl⟩
    exact ⟨rfl, ht⟩
  · rintro ⟨hkind, ht⟩
    exact ⟨p.2, ht, Prod.ext hkind rfl⟩

/-- The members, and behind them the targets. -/
def entries (md : Metadata) : List ClassMember :=
  md.members ++ md.targets.map fun (kind, t) => t.asMember kind

section Absorbing

variable {members items : List ClassMember} {m x : ClassMember}

theorem decorate_eq_absorb (kind : DecoratorKind) (members : List ClassMember)
    (t : DecoratorTarget) : decorate kind members t = absorb members (t.asMember kind) := by
  induction members with
  | nil => rfl
  | cons old rest ih =>
      rw [decorate, absorb, ih]
      simp only [DecoratorTarget.asMember, Option.or_none]

theorem absorb_of_not_mem (h : m.name ∉ members.map ClassMember.name) :
    absorb members m = members ++ [m] := by
  induction members with
  | nil => rfl
  | cons old rest ih =>
      rw [List.map_cons, List.mem_cons, not_or] at h
      rw [absorb, if_neg (Ne.symm h.1), ih h.2, List.cons_append]

/-- Of members with different names only that with the name changes. -/
theorem absorb_of_mem (hnames : (members.map ClassMember.name).Nodup)
    (h : m.name ∈ members.map ClassMember.name) :
    absorb members m = members.map fun old =>
      if old.name = m.name then
        { old with decorator := old.decorator.or m.decorator, doc := old.doc.or m.doc }
      else old := by
  induction members with
  | nil => cases h
  | cons old rest ih =>
      rw [List.map_cons, List.nodup_cons] at hnames
      obtain ⟨hnew, hrest⟩ := hnames
      rw [absorb, List.map_cons]
      split
      · next hname =>
        have hothers : ∀ other ∈ rest, other.name ≠ m.name := fun other hother heq =>
          hnew (List.mem_map.mpr ⟨other, hother, heq.trans hname.symm⟩)
        congr 1
        exact (List.map_id rest).symm.trans
          (List.map_congr_left fun other hother => (if_neg (hothers other hother)).symm)
      · next hname =>
        rw [List.map_cons, List.mem_cons] at h
        rw [ih hrest (h.resolve_left fun heq => hname heq.symm)]

theorem named_append (name : String) (front back : List ClassMember) :
    named name (front ++ back) = named name front ++ named name back :=
  List.filter_append ..

theorem named_singleton_self (x : ClassMember) : named x.name [x] = [x] := by
  simp [named]

theorem named_singleton_of_ne {name : String} (h : name ≠ x.name) : named name [x] = [] := by
  simp [named, h.symm]

/-- Among members with different names each is the only one with its name. -/
theorem named_of_mem (hnames : (members.map ClassMember.name).Nodup) (hm : m ∈ members) :
    named m.name members = [m] := by
  obtain ⟨front, back, rfl⟩ := List.append_of_mem hm
  rw [List.map_append, List.map_cons, List.nodup_append, List.nodup_cons] at hnames
  obtain ⟨-, ⟨hback, -⟩, hfront⟩ := hnames
  have hother : ∀ part : List ClassMember, (∀ o ∈ part, o.name ≠ m.name) →
      named m.name part = [] := fun part h =>
    List.filter_eq_nil_iff.mpr fun o ho heq => h o ho (beq_iff_eq.mp heq)
  rw [← List.singleton_append, named_append, named_append, named_singleton_self,
    hother front fun o ho => hfront _ (List.mem_map_of_mem ho) _ List.mem_cons_self,
    hother back fun o ho heq => hback (List.mem_map.mpr ⟨o, ho, heq⟩)]
  rfl

theorem gather_concat_self (h : m.name = x.name) : gather (items ++ [x]) m =
    { gather items m with
      decorator := (gather items m).decorator.or x.decorator
      doc := (gather items m).doc.or x.doc } := by
  simp only [gather, h, named_append, named_singleton_self, List.findSome?_append,
    List.findSome?_singleton]

theorem gather_concat_of_ne (h : m.name ≠ x.name) : gather (items ++ [x]) m = gather items m := by
  simp only [gather, named_append, named_singleton_of_ne h, List.append_nil]

/-- A member whose name is new has only what it brings. -/
theorem gather_concat_new (h : x.name ∉ items.map ClassMember.name) :
    gather (items ++ [x]) x = x := by
  have hnone : named x.name items = [] :=
    List.filter_eq_nil_iff.mpr fun m hm heq => h (List.mem_map.mpr ⟨m, hm, beq_iff_eq.mp heq⟩)
  simp only [gather, named_append, named_singleton_self, hnone, List.nil_append,
    List.findSome?_singleton]

theorem map_name_gather (items members : List ClassMember) :
    (members.map (gather items)).map ClassMember.name = members.map ClassMember.name := by
  rw [List.map_map]
  rfl

/-- Taking in members one by one leaves the first of each name, with what its name gathers. -/
theorem foldl_absorb (items : List ClassMember) :
    items.foldl absorb [] = (firstsBy ClassMember.name items).map (gather items) := by
  induction items using List.reverseRecOn with
  | nil => rfl
  | append_singleton items x ih =>
      have hnames := map_name_gather items (firstsBy ClassMember.name items)
      have hdistinct : (((firstsBy ClassMember.name items).map (gather items)).map
          ClassMember.name).Nodup := hnames ▸ nodup_firstsBy ClassMember.name items
      have hmem : x.name ∈ ((firstsBy ClassMember.name items).map (gather items)).map
          ClassMember.name ↔ x.name ∈ items.map ClassMember.name := by
        rw [hnames, mem_keys_firstsBy]
      rw [List.foldl_append, ih, List.foldl_cons, List.foldl_nil, firstsBy_concat,
        any_firstsBy]
      by_cases hname : x.name ∈ items.map ClassMember.name
      · rw [absorb_of_mem hdistinct (hmem.mpr hname), List.map_map, if_pos (decide_eq_true hname)]
        refine List.map_congr_left fun m _ => ?_
        rw [Function.comp_apply]
        split
        · next hsame => exact (gather_concat_self hsame).symm
        · next hother => exact (gather_concat_of_ne hother).symm
      · rw [absorb_of_not_mem fun h => hname (hmem.mp h), decide_eq_false hname,
          if_neg Bool.false_ne_true, List.map_append, List.map_singleton, gather_concat_new hname]
        congr 1
        refine List.map_congr_left fun m hm => (gather_concat_of_ne fun heq => hname ?_).symm
        exact heq ▸ mem_keys_firstsBy.mp (List.mem_map_of_mem hm)

end Absorbing

section Normal

variable {md : Metadata} {m : ClassMember}

theorem normalize_members (md : Metadata) : md.normalize.members =
    (firstsBy ClassMember.name md.entries).map (gather md.entries) := by
  rw [← foldl_absorb, entries, List.foldl_append, targets, List.foldl_map, List.foldl_flatMap,
    normalize]
  simp only [List.foldl_map, ← decorate_eq_absorb]

theorem mem_normalize_iff : m ∈ md.normalize.members ↔
    ∃ first ∈ firstsBy ClassMember.name md.entries, gather md.entries first = m := by
  rw [normalize_members, List.mem_map]

/-- Targets that name members add no name. -/
theorem firstsBy_entries (h : ∀ t ∈ md.targets, t.2.name ∈ md.members.map ClassMember.name) :
    firstsBy ClassMember.name md.entries = firstsBy ClassMember.name md.members := by
  have hnone : (md.targets.map fun (kind, t) => t.asMember kind).filter (fun m =>
      m.name ∉ md.members.map ClassMember.name) = [] := by
    refine List.filter_eq_nil_iff.mpr fun m hm => ?_
    obtain ⟨t, ht, rfl⟩ := List.mem_map.mp hm
    simpa [DecoratorTarget.asMember] using h t ht
  rw [entries, firstsBy_append, hnone]
  exact List.append_nil _

theorem nodup_normalize (md : Metadata) : (md.normalize.members.map ClassMember.name).Nodup := by
  rw [normalize_members, map_name_gather]
  exact nodup_firstsBy ClassMember.name md.entries

/-- Only a decorator comes from the targets: that of the first one with the name. -/
theorem decorator_of_targets (name : String) (ts : List (DecoratorKind × DecoratorTarget)) :
    (named name (ts.map fun (kind, t) => t.asMember kind)).findSome? ClassMember.decorator =
      (ts.find? fun t => t.2.name == name).map Prod.fst := by
  induction ts with
  | nil => rfl
  | cons t ts ih =>
      rw [List.map_cons, ← List.singleton_append, named_append, List.findSome?_append, ih,
        List.find?_cons]
      by_cases hname : name = t.2.name
      · subst hname
        rw [beq_self_eq_true]
        exact congrArg (Option.or · _)
          (congrArg (List.findSome? ClassMember.decorator) (named_singleton_self _))
      · rw [named_singleton_of_ne hname, beq_false_of_ne (Ne.symm hname)]
        rfl

theorem doc_of_targets (name : String) (ts : List (DecoratorKind × DecoratorTarget)) :
    (named name (ts.map fun (kind, t) => t.asMember kind)).findSome? ClassMember.doc = none := by
  refine List.findSome?_eq_none_iff.mpr fun m hm => ?_
  obtain ⟨t, -, rfl⟩ := List.mem_map.mp (List.mem_filter.mp hm).1
  rfl

theorem gather_entries (md : Metadata) (m : ClassMember) : gather md.entries m =
    { m with
      decorator := ((named m.name md.members).findSome? ClassMember.decorator).or
        ((md.targets.find? fun t => t.2.name == m.name).map Prod.fst)
      doc := (named m.name md.members).findSome? ClassMember.doc } := by
  rw [gather, entries, named_append, List.findSome?_append, List.findSome?_append,
    decorator_of_targets, doc_of_targets, Option.or_none]

/-- The names of the members come first, then those of the targets that name none. -/
theorem names_normalize (md : Metadata) : md.normalize.members.map ClassMember.name =
    firstsBy id (md.members.map ClassMember.name) ++
      firstsBy id ((md.targets.map fun t => t.2.name).filter fun name =>
        name ∉ md.members.map ClassMember.name) := by
  have hnames : md.entries.map ClassMember.name =
      md.members.map ClassMember.name ++ md.targets.map fun t => t.2.name := by
    rw [entries, List.map_append, List.map_map]
    rfl
  have hfirsts : firstsBy id (md.entries.map ClassMember.name) =
      (firstsBy ClassMember.name md.entries).map ClassMember.name := firstsBy_map _ _
  rw [normalize_members, map_name_gather, ← hfirsts, hnames, firstsBy_append, List.map_id]
  rfl

/-- A member of the result whose name is that of a member has what its name gathers there, and the
decorator of a target only if it has none. -/
theorem of_mem_normalize {first : ClassMember} (h : m ∈ md.normalize.members)
    (hfirst : md.members.find? (fun o => o.name == m.name) = some first) :
    m.kind = first.kind ∧ m.range = first.range ∧ m.valueType = first.valueType ∧
      m.doc = (named m.name md.members).findSome? ClassMember.doc ∧
      m.decorator = ((named m.name md.members).findSome? ClassMember.decorator).or
        ((md.targets.find? fun t => t.2.name == m.name).map Prod.fst) := by
  obtain ⟨f, hf, rfl⟩ := mem_normalize_iff.mp h
  have hfound := find?_of_mem_firstsBy hf
  have hname : (gather md.entries f).name = f.name := rfl
  rw [hname] at hfirst ⊢
  rw [entries, List.find?_append, hfirst, Option.some_or] at hfound
  obtain rfl := Option.some.inj hfound
  rw [gather_entries]
  exact ⟨rfl, rfl, rfl, rfl, rfl⟩

/-- A member of the result whose name is that of no member is the first target with the name. -/
theorem of_mem_normalize_target (h : m ∈ md.normalize.members)
    (hnone : m.name ∉ md.members.map ClassMember.name) :
    ∃ kind t, md.targets.find? (fun t => t.2.name == m.name) = some (kind, t) ∧
      m = ⟨t.name, t.kind, some kind, none, none, none⟩ := by
  obtain ⟨f, hf, rfl⟩ := mem_normalize_iff.mp h
  have hfound := find?_of_mem_firstsBy hf
  have hname : (gather md.entries f).name = f.name := rfl
  rw [hname] at hnone ⊢
  have hmember : md.members.find? (fun o => o.name == f.name) = none :=
    List.find?_eq_none.mpr fun o ho heq =>
      hnone (List.mem_map.mpr ⟨o, ho, beq_iff_eq.mp heq⟩)
  have hnamed : named f.name md.members = [] :=
    List.filter_eq_nil_iff.mpr fun o ho => List.find?_eq_none.mp hmember o ho
  rw [entries, List.find?_append, hmember, Option.none_or, List.find?_map,
    Option.map_eq_some_iff] at hfound
  obtain ⟨⟨kind, t⟩, ht, rfl⟩ := hfound
  have htarget : md.targets.find? (fun u => u.2.name == t.name) = some (kind, t) := ht
  refine ⟨kind, t, htarget, ?_⟩
  simp only [gather_entries, DecoratorTarget.asMember] at hnamed ⊢
  rw [hnamed, htarget]
  rfl

/-- A name that is a target's is that of a member with a decorator. -/
theorem decorated_of_target {t : DecoratorKind × DecoratorTarget} (h : m ∈ md.normalize.members)
    (ht : t ∈ md.targets) (hname : t.2.name = m.name) : m.decorator.isSome = true := by
  obtain ⟨f, -, rfl⟩ := mem_normalize_iff.mp h
  have hfound : (md.targets.find? fun t => t.2.name == f.name).isSome = true :=
    List.find?_isSome.mpr ⟨t, ht, beq_iff_eq.mpr hname⟩
  rw [gather_entries, Option.isSome_or, Option.isSome_map, hfound, Bool.or_true]

/-- The names are those of the entries. -/
theorem mem_names_normalize {name : String} : name ∈ md.normalize.members.map ClassMember.name ↔
    name ∈ md.entries.map ClassMember.name := by
  rw [normalize_members, map_name_gather, mem_keys_firstsBy]

theorem target_name_mem {t : DecoratorKind × DecoratorTarget} (ht : t ∈ md.targets) :
    t.2.name ∈ md.normalize.members.map ClassMember.name := by
  have hentry : t.2.asMember t.1 ∈ md.entries :=
    List.mem_append_right _ (List.mem_map.mpr ⟨t, ht, rfl⟩)
  exact mem_names_normalize.mpr (List.mem_map_of_mem hentry)

/-- Members with different names that hold all targets stay as they are, if each target finds a
decorator. -/
theorem normalize_eq_self (hnames : (md.members.map ClassMember.name).Nodup)
    (htargets : ∀ t ∈ md.targets, ∃ m ∈ md.members, m.name = t.2.name ∧ m.decorator.isSome = true) :
    md.normalize = md := by
  have hentries : firstsBy ClassMember.name md.entries = md.members := by
    rw [firstsBy_entries, firstsBy_eq_self hnames]
    intro t ht
    obtain ⟨m, hm, hname, -⟩ := htargets t ht
    exact List.mem_map.mpr ⟨m, hm, hname⟩
  have hgather : ∀ m ∈ md.members, gather md.entries m = m := by
    intro m hm
    have hdecorator : m.decorator.or ((md.targets.find? fun t => t.2.name == m.name).map
        Prod.fst) = m.decorator := by
      cases hfound : md.targets.find? fun t => t.2.name == m.name with
      | none => exact Option.or_none
      | some t =>
          obtain ⟨o, ho, hname, hsome⟩ := htargets t (List.mem_of_find?_eq_some hfound)
          have hsame : o = m := List.inj_on_of_nodup_map hnames ho hm
            (hname.trans (by simpa using List.find?_some hfound))
          obtain ⟨kind, hkind⟩ := Option.isSome_iff_exists.mp (hsame ▸ hsome)
          rw [hkind, Option.some_or]
    simp only [gather_entries, named_of_mem hnames hm, List.findSome?_singleton, hdecorator]
  have hmembers : md.normalize.members = md.members := by
    rw [normalize_members, hentries, List.map_congr_left hgather, List.map_id'']
    exact fun _ => rfl
  exact congrArg (fun members => { md with members := members }) hmembers

theorem normalize_normalize (md : Metadata) : md.normalize.normalize = md.normalize := by
  refine normalize_eq_self (nodup_normalize md) fun t (ht : t ∈ md.targets) => ?_
  obtain ⟨m, hm, hname⟩ := List.mem_map.mp (target_name_mem ht)
  exact ⟨m, hm, hname, decorated_of_target hm ht hname.symm⟩

end Normal

/-- The normal form has one member for each name: those of the members in the order in which they
come first, then those of the targets that name no member. A member is the first one of its name,
with the first documentation and the first decorator of the name; only where no member of the name
has a decorator is it that of the first target. A target that names no member is a member with the
decorator alone. Nothing else changes, and the normal form is its own normal form. -/
theorem normalize_merges (md : Metadata) :
    md.normalize.members.map ClassMember.name =
        firstsBy id (md.members.map ClassMember.name) ++
          firstsBy id ((md.targets.map fun t => t.2.name).filter fun name =>
            name ∉ md.members.map ClassMember.name) ∧
      (md.normalize.members.map ClassMember.name).Nodup ∧
      (∀ m ∈ md.normalize.members, ∀ first,
        md.members.find? (fun o => o.name == m.name) = some first →
          m.kind = first.kind ∧ m.range = first.range ∧ m.valueType = first.valueType ∧
            m.doc = (named m.name md.members).findSome? ClassMember.doc ∧
            m.decorator = ((named m.name md.members).findSome? ClassMember.decorator).or
              ((md.targets.find? fun t => t.2.name == m.name).map Prod.fst)) ∧
      (∀ m ∈ md.normalize.members, m.name ∉ md.members.map ClassMember.name →
        ∃ kind t, md.targets.find? (fun t => t.2.name == m.name) = some (kind, t) ∧
          m = ⟨t.name, t.kind, some kind, none, none, none⟩) ∧
      md.normalize.decorators = md.decorators ∧ md.normalize.doc = md.doc ∧
      md.normalize.declaration = md.declaration ∧
      md.normalize.normalize = md.normalize :=
  ⟨names_normalize md, nodup_normalize md, fun _ hm _ hfirst => of_mem_normalize hm hfirst,
    fun _ hm hnone => of_mem_normalize_target hm hnone, rfl, rfl, rfl, normalize_normalize md⟩

/-- The setter brings its own decorator, so that of the target is not taken. -/
example : (normalize ⟨none, none, [⟨"size", .property, none, none, none, none⟩,
      ⟨"size", .property, some .track, some "How many", none, none⟩],
      [⟨.api, [⟨"size", .property⟩, ⟨"focus", .method⟩]⟩]⟩).members =
    [⟨"size", .property, some .track, some "How many", none, none⟩,
      ⟨"focus", .method, some .api, none, none, none⟩] := by
  decide

end Metadata

end ComponentAtlas
