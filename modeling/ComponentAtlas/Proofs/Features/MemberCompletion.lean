import ComponentAtlas.Features.Completion
import ComponentAtlas.Proofs.Session.Contents

/-!
# Completions of members

An expression of a template completes to the names of the component that is found under the
identifier of the template's component; the rest of each completion comes from the latter. So its
own members are offered if the identifier leads back to it. A mark of aura markup keeps the name as
it is, but behind a hyphen the name is hyphenated, and the way back may lead to another component or
to none.
-/

namespace ComponentAtlas

open ComponentAtlas.Text

/-- A component that a template belongs to is registered. -/
theorem Index.mem_of_owner? {ix : Index} {d : Dialect} {p : Path} {t : Tag}
    (h : ix.owner? d p = some t) : t ∈ (ix.registry d).all := by
  rcases Option.or_eq_some_iff.mp h with hnamed | ⟨-, hfolder⟩
  · rcases Option.or_eq_some_iff.mp hnamed with hfile | ⟨-, huri⟩
    · exact List.mem_of_find?_eq_some hfile
    · split at huri
      · exact List.mem_of_find?_eq_some huri
      · cases huri
  · obtain ⟨folder, -, hfound⟩ := Option.bind_eq_some_iff.mp hfolder
    exact (List.mem_filter.mp (List.mem_of_find?_eq_some hfound)).1

/-- The names of the members of the component that an identifier leads to. -/
def Registry.memberNames (r : Registry) (identifier : String) : List String :=
  (((r.find? identifier).map Tag.members).getD []).map Member.name

/-- Only the registry of the dialect knows members. -/
theorem Index.bindableMembers_eq (ix : Index) (d : Dialect) (identifier : String) :
    ix.bindableMembers d identifier =
      firstsBy (fun name => name) ((ix.registry d).memberNames identifier) := by
  have hbuiltin : (Provider.builtin d).members ix identifier = [] := by
    cases d <;> rfl
  have hregistry : (Provider.registry d).members ix identifier =
      (ix.registry d).memberNames identifier := by
    rw [Provider.members, Registry.memberNames]
    cases (ix.registry d).find? identifier <;> rfl
  rw [bindableMembers, Provider.applicable_eq, List.flatMap_append, List.flatMap_singleton,
    List.flatMap_singleton, hbuiltin, hregistry, List.append_nil]

namespace Completion

/-- The completion of a member. -/
def ofMember (m : Member) : Completion :=
  ⟨m.name, if m.kind = .method then .method else .property, m.type, m.documentation⟩

/-- Completions as they are offered: none at all in place of no completion. -/
def offer : List Completion → Option (List Completion)
  | [] => none
  | found => some found

theorem offer_inj {found other : List Completion} : offer found = offer other ↔ found = other := by
  cases found <;> cases other <;> simp [offer]

section Members

variable {ix : Index} {p : Path} {d : Dialect} {t : Tag}

theorem label_ofMemberName (t : Tag) (name : String) : (ofMemberName t name).label = name := by
  unfold ofMemberName
  split <;> rfl

/-- Under different names each name of a member stands for it. -/
theorem ofMemberName_of_mem (h : (t.members.map Member.name).Nodup) {m : Member}
    (hm : m ∈ t.members) : ofMemberName t m.name = ofMember m := by
  have hfound : t.member? m.name = some m := by
    refine find?_of_mem_firstsBy ?_
    rwa [firstsBy_eq_self h]
  rw [ofMemberName, hfound, ofMember]

/-- The members of a component are offered when its names are. -/
theorem map_ofMemberName_eq_iff (h : (t.members.map Member.name).Nodup) (names : List String) :
    names.map (ofMemberName t) = t.members.map ofMember ↔ names = t.members.map Member.name := by
  have hown : (t.members.map Member.name).map (ofMemberName t) = t.members.map ofMember := by
    rw [List.map_map]
    exact List.map_congr_left fun m hm => ofMemberName_of_mem h hm
  refine ⟨fun hsame => ?_, fun hnames => hnames ▸ hown⟩
  have hlabels := congrArg (List.map label) (hsame.trans hown.symm)
  simpa only [List.map_map, Function.comp_def, label_ofMemberName, List.map_id'] using hlabels

/-- In an expression the names of the component under the identifier are offered. -/
theorem at?_expression (howner : ix.owner? d p = some t) {text : List Char} {offset : Nat}
    {typed : String} (hcontext : CompletionContext.ofOffset text offset = .expression typed)
    (hregular : ix.Each Tag.Regular) :
    at? ix p d text offset =
      offer (((ix.registry d).memberNames t.identifier).map (ofMemberName t)) := by
  have hdistinct : ((ix.registry d).memberNames t.identifier).Nodup := by
    rw [Registry.memberNames]
    cases hfound : (ix.registry d).find? t.identifier with
    | none => exact List.nodup_nil
    | some u => exact (hregular d u (Registry.mem_of_find? hfound)).distinct
  have hmembers : inContext ix p d (.expression typed) =
      ((ix.registry d).memberNames t.identifier).map (ofMemberName t) := by
    rw [inContext, members, howner]
    dsimp only
    rw [Index.bindableMembers_eq, firstsBy_eq_self (by simpa using hdistinct)]
  rw [at?, hcontext, hmembers]
  rfl

end Members

end Completion

/-- The identifier of a component of aura markup leads to it, unless its namespace is empty or
starts with a colon. -/
theorem Registry.memberNames_colon {r : Registry} (hr : Ordered r.tags) {t : Tag}
    (ht : t ∈ r.all) (hregular : t.Regular .aura) :
    r.memberNames t.identifier = t.members.map Member.name ↔
      t.members = [] ∨ t.identity.space.toList.head?.any (· != ':') = true := by
  have hkey : t.identifier = t.key := by
    rw [Tag.identifier, Identity.render, hregular.mark]
    rfl
  have hname : t.identity.localName ≠ "" := fun h =>
    hregular.named.ne_nil (String.toList_eq_nil_iff.mpr h)
  rw [memberNames, hkey, find?_key_self hr ht hname]
  split
  · next hspace => exact iff_of_true rfl (.inr hspace)
  · next hspace =>
      refine ⟨fun hnames => .inl ?_, fun hsome => ?_⟩
      · exact List.map_eq_nil_iff.mp hnames.symm
      · rw [hsome.resolve_right hspace]
        rfl

/-- After any history an expression of a template completes to the names of the component that is
found under the identifier of the template's component, with what the latter has under these names.
These are exactly the members of the template's component if the other one has members of the same
names. In aura markup it is so unless the namespace is empty or starts with a colon, and in the
template of a web component if no other reading of the identifier is registered. -/
theorem Site.Filled.completes_members {folders : Path → Prop} {site : Site} {s : Session}
    (h : site.Filled folders) (hs : s ∈ site.sessions) {d : Dialect} {p : Path} {t : Tag}
    (howner : s.index.owner? d p = some t) {text : List Char} {offset : Nat} {typed : String}
    (hcontext : CompletionContext.ofOffset text offset = .expression typed) :
    let r := s.index.registry d
    let names := r.memberNames t.identifier
    let response := Completion.at? s.index p d text offset
    let own := Completion.offer (t.members.map Completion.ofMember)
    response = Completion.offer (names.map (Completion.ofMemberName t)) ∧
      (response = own ↔ names = t.members.map Member.name) ∧
      (d = .aura → (response = own ↔
        t.members = [] ∨ t.identity.space.toList.head?.any (· != ':') = true)) ∧
      (d = .lwc → r.Distinguished t → response = own) := by
  intro r names response own
  have hcarries := (h.holds inherent_regular).sessions s hs
  have hmem : t ∈ r.all := Index.mem_of_owner? howner
  have hregular : t.Regular d := hcarries.each d t hmem
  have hresponse : response = Completion.offer (names.map (Completion.ofMemberName t)) :=
    Completion.at?_expression howner hcontext hcarries.each
  have hiff : response = own ↔ names = t.members.map Member.name := by
    rw [hresponse, Completion.offer_inj, Completion.map_ofMemberName_eq_iff hregular.distinct]
  have hsound := hcarries.grounded.sound
  refine ⟨hresponse, hiff, ?_, ?_⟩
  · rintro rfl
    rw [hiff]
    exact Registry.memberNames_colon (hsound.ordered .aura) hmem hregular
  · rintro rfl hdistinguished
    have hrender : t.identifier = t.identity.space ++ "-" ++ kebabOfCamel t.identity.localName := by
      rw [Tag.identifier, Identity.render, hregular.mark]
      rfl
    have hkept : r.Kept := ⟨hsound.ordered .lwc, hsound.refreshed .lwc⟩
    have hfind : r.find? t.identifier = some t := by
      rw [hrender]
      exact hdistinguished.find?_hyphen hkept hmem
    refine hiff.mpr ?_
    change r.memberNames t.identifier = _
    rw [Registry.memberNames, hfind]
    rfl

namespace Capital

/-- A web component whose name starts with an upper-case letter. -/
def files : FileTree :=
  FileTree.empty.plant ⟨"/w/s/Foo/Foo.js"⟩ (.file (some "export default class\x7ba=1\x7d") 5)

def workspace : Workspace :=
  ⟨[⟨"/w"⟩], .packageSet, { Settings.standard with cache := false }, ⟨[]⟩,
    some ⟨[⟨"/w/s"⟩], []⟩⟩

/-- The session after a pass over the component. -/
def session : Session :=
  (Project.pass ⟨files, .ofWorkspace workspace⟩ .lwc true).1.session

theorem filled : ∃ t, (⟨t, [session]⟩ : Site).Filled fun _ => False :=
  ⟨_, .opened (by decide +kernel) rfl (Project.calls_pass _ .lwc true)⟩

end Capital

/-- The identifier has the name in lower case, and leads to no component. -/
theorem Site.Filled.completes_members_capital :
    ∃ t : Tag, Capital.session.index.owner? .lwc ⟨"/w/s/Foo/Foo.html"⟩ = some t ∧
      t.members.map Member.name = ["a"] ∧
      Completion.at? Capital.session.index ⟨"/w/s/Foo/Foo.html"⟩ .lwc ['\x7b'] 1 = none := by
  have hfacts : (Capital.session.index.owner? .lwc ⟨"/w/s/Foo/Foo.html"⟩).map (fun t =>
      (t.members.map Member.name, Capital.session.index.lwc.memberNames t.identifier)) =
        some (["a"], []) := by
    decide +kernel
  have hcontext : CompletionContext.ofOffset ['\x7b'] 1 = .expression "" := by decide +kernel
  obtain ⟨t, howner, hnames⟩ := Option.map_eq_some_iff.mp hfacts
  obtain ⟨hmembers, hfound⟩ := Prod.mk.inj hnames
  obtain ⟨files, hfilled⟩ := Capital.filled
  obtain ⟨hresponse, -⟩ := hfilled.completes_members List.mem_cons_self howner hcontext
  refine ⟨t, howner, hmembers, ?_⟩
  rw [hresponse]
  change Completion.offer ((Capital.session.index.lwc.memberNames t.identifier).map _) = none
  rw [hfound]
  rfl

end ComponentAtlas
