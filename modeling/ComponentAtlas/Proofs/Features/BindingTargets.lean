import ComponentAtlas.Features.Definition
import ComponentAtlas.Proofs.Binding.Scoping
import ComponentAtlas.Proofs.Features.HoverRanges
import ComponentAtlas.Proofs.Features.TemplateOwners
import ComponentAtlas.Proofs.Path.Endings

/-!
# What a binding refers to

For the name in an expression of a template an editor is shown a text and told a place. Both are
about the variable that an attribute around the expression declares, or else about the member of
the component of the template, and there is none of both where the name is neither.
-/

namespace ComponentAtlas

open ComponentAtlas.Text ComponentAtlas.Markup

namespace Definition

variable {ix : Index} {p : Path} {dialect : Dialect} {d : Document} {o : Nat}

theorem at?_of_other (htag : (d.nodeAt o).kind ≠ .tagName)
    (hattribute : (d.nodeAt o).kind ≠ .attributeName) :
    at? ix p dialect d o = atBinding? ix p dialect d o := by
  simp only [at?]

end Definition

theorem Location.isSome_ofPath? {p : Path} {span : Option Span} :
    (ofPath? p span).isSome = p.isAbsolute := by
  rw [ofPath?, Option.isSome_map, Uri.isSome_ofPath?]

theorem Location.uri_of_ofPath? {p : Path} {span : Option Span} {target : Location}
    (h : ofPath? p span = some target) : Uri.ofPath? p = some target.uri := by
  obtain ⟨uri, huri, rfl⟩ := Option.map_eq_some_iff.mp h
  exact huri

/-- The text of a variable ends otherwise than that of a member. -/
theorem Hover.ofMember_ne_ofVariable (owner : Tag) (m : Member) (property : String) :
    ofMember owner m ≠ ofVariable property := by
  intro h
  have hlast : ∀ s last : String, last.toList ≠ [] →
      (s ++ last).toList.getLast? = last.toList.getLast? := fun s last hne => by
    rw [String.toList_append, List.getLast?_append_of_ne_nil _ hne]
  have hsame := congrArg (fun s : String => s.toList.getLast?) h
  simp only [ofMember, ofVariable] at hsame
  rw [hlast _ _ (by decide), hlast _ _ (by decide)] at hsame
  exact absurd hsame (by decide)

/-- The component of a template is written in a script, which has another URI than the template. -/
theorem Index.owner?_script {ix : Index} (h : (ix.registry .lwc).Placed .lwc) {p : Path}
    (habs : p.isAbsolute = true) (hmarkup : Dialect.ofMarkupFile? p = some .lwc) {t : Tag}
    (ht : ix.owner? .lwc p = some t) : t.file.isAbsolute = true ∧
      ∀ uri, Uri.ofPath? t.file = some uri → Uri.ofPath? p ≠ some uri := by
  obtain ⟨howned, hbeside⟩ := Index.of_owner? h habs hmarkup ht
  obtain ⟨hmem, hdialect⟩ := h.mem_owned_iff.mp howned
  obtain ⟨ext, hext, hscript⟩ := Path.extension?_of_isEntry (h.entries t hmem)
  obtain ⟨ext', hext', htemplate⟩ := Dialect.ofMarkupFile?_eq_some hmarkup
  have hlast : ext.toList.getLast? = some 's' := by
    have hall : ∀ ext ∈ Dialect.lwc.entryExtensions, ext.toList.getLast? = some 's' := by decide
    exact hall ext (hdialect ▸ hext)
  obtain rfl : ext' = "html" := List.mem_singleton.mp hext'
  exact ⟨hbeside.isAbsolute hscript htemplate habs, fun uri huri =>
    Uri.ofPath?_ne hscript htemplate hlast rfl rfl rfl (by decide) huri⟩

section Binding

variable {ix : Index} {p : Path} {d : Document} {o : Nat} {b : Binding} {r : ByteRange}
  {shown : Hover} {target : Location}

theorem Hover.atBinding?_of_declared (hb : Binding.at? .lwc d o = some b)
    (hr : Binding.declaration? .lwc d o b.property = some r) :
    atBinding? ix p .lwc d o = some ⟨ofVariable b.property, d.spanOf b.range⟩ := by
  simp [atBinding?, hb, hr]

theorem Hover.atBinding?_of_undeclared (hb : Binding.at? .lwc d o = some b)
    (hr : Binding.declaration? .lwc d o b.property = none) : atBinding? ix p .lwc d o =
      (ix.owner? .lwc p).bind fun t => (t.member? b.property).map fun m =>
        ⟨ofMember t m, d.spanOf b.range⟩ := by
  simp [atBinding?, hb, hr, Option.map_eq_bind]

theorem Definition.atBinding?_of_declared (hb : Binding.at? .lwc d o = some b)
    (hr : Binding.declaration? .lwc d o b.property = some r) :
    atBinding? ix p .lwc d o = Location.ofPath? p (some (d.spanOf r)) := by
  simp [atBinding?, hb, hr, Binding.declaringSpan?]

theorem Definition.atBinding?_of_undeclared (hb : Binding.at? .lwc d o = some b)
    (hr : Binding.declaration? .lwc d o b.property = none) : atBinding? ix p .lwc d o =
      (ix.owner? .lwc p).bind fun t => (t.member? b.property).bind fun m =>
        Location.ofPath? t.file m.location := by
  simp [atBinding?, hb, hr, Binding.declaringSpan?]

/-- What is shown and the place for a binding: the variable that the template declares around the
offset, or else the member of its component. -/
inductive Refers (ix : Index) (p : Path) (d : Document) (o : Nat) (b : Binding) :
    Hover → Location → Prop where
  | declared {r : ByteRange} {target : Location} (hr : Binding.DeclaredAround d o b.property r)
      (htarget : Location.ofPath? p (some (d.spanOf r)) = some target) :
      Refers ix p d o b ⟨Hover.ofVariable b.property, d.spanOf b.range⟩ target
  | member {owner : Tag} {m : Member} {target : Location}
      (hnone : ∀ r, ¬ Binding.DeclaredAround d o b.property r)
      (howner : ix.owner? .lwc p = some owner) (hm : owner.member? b.property = some m)
      (htarget : Location.ofPath? owner.file m.location = some target) :
      Refers ix p d o b ⟨Hover.ofMember owner m, d.spanOf b.range⟩ target

variable (h : (ix.registry .lwc).Placed .lwc) (habs : p.isAbsolute = true)
  (hmarkup : Dialect.ofMarkupFile? p = some .lwc)

include h habs hmarkup in
/-- Something is shown for a binding where there is a place for it. -/
theorem Hover.isSome_atBinding? : (atBinding? ix p .lwc d o).isSome =
    (Definition.atBinding? ix p .lwc d o).isSome := by
  cases hb : Binding.at? .lwc d o with
  | none => simp [atBinding?, Definition.atBinding?, hb]
  | some b =>
      cases hr : Binding.declaration? .lwc d o b.property with
      | some r =>
          rw [atBinding?_of_declared hb hr, Definition.atBinding?_of_declared hb hr,
            Location.isSome_ofPath?, habs]
          rfl
      | none =>
          rw [atBinding?_of_undeclared hb hr, Definition.atBinding?_of_undeclared hb hr]
          cases howner : ix.owner? .lwc p with
          | none => rfl
          | some owner =>
              rw [Option.bind_some, Option.bind_some]
              cases owner.member? b.property with
              | none => rfl
              | some m =>
                  rw [Option.bind_some, Location.isSome_ofPath?,
                    (ix.owner?_script h habs hmarkup howner).1]
                  rfl

/-- What is shown and the place are about the same. -/
theorem exists_refers (hd : d.Formed) (hshown : Hover.atBinding? ix p .lwc d o = some shown)
    (htarget : Definition.atBinding? ix p .lwc d o = some target) :
    ∃ b, Binding.at? .lwc d o = some b ∧ Refers ix p d o b shown target := by
  cases hb : Binding.at? .lwc d o with
  | none => simp [Hover.atBinding?, hb] at hshown
  | some b =>
      refine ⟨b, rfl, ?_⟩
      cases hr : Binding.declaration? .lwc d o b.property with
      | some r =>
          rw [Hover.atBinding?_of_declared hb hr] at hshown
          rw [Definition.atBinding?_of_declared hb hr] at htarget
          obtain rfl := Option.some.inj hshown
          exact .declared ((Binding.declaration?_template hd).mp hr) htarget
      | none =>
          rw [Hover.atBinding?_of_undeclared hb hr] at hshown
          rw [Definition.atBinding?_of_undeclared hb hr] at htarget
          obtain ⟨owner, howner, hshown⟩ := Option.bind_eq_some_iff.mp hshown
          obtain ⟨m, hm, rfl⟩ := Option.map_eq_some_iff.mp hshown
          rw [howner, Option.bind_some, hm, Option.bind_some] at htarget
          refine .member (fun r hdeclared => ?_) howner hm htarget
          rw [(Binding.declaration?_template hd).mpr hdeclared] at hr
          cases hr

/-- A variable is shown exactly where the place is the attribute that declares it. -/
theorem Refers.variable_iff (hrefers : Refers ix p d o b shown target) :
    shown.markdown = Hover.ofVariable b.property ↔ ∃ r, Binding.DeclaredAround d o b.property r ∧
      Location.ofPath? p (some (d.spanOf r)) = some target := by
  cases hrefers with
  | declared hr htarget => exact ⟨fun _ => ⟨_, hr, htarget⟩, fun _ => rfl⟩
  | member hnone _ _ _ =>
      exact ⟨fun heq => absurd heq (Hover.ofMember_ne_ofVariable _ _ _),
        fun ⟨r, hr, _⟩ => absurd hr (hnone r)⟩

include h habs hmarkup in
/-- A variable is shown exactly where the place is in the template. -/
theorem Refers.variable_iff_uri (hrefers : Refers ix p d o b shown target) :
    shown.markdown = Hover.ofVariable b.property ↔ Uri.ofPath? p = some target.uri := by
  cases hrefers with
  | declared hr htarget => exact ⟨fun _ => Location.uri_of_ofPath? htarget, fun _ => rfl⟩
  | member _ howner _ htarget =>
      refine ⟨fun heq => absurd heq (Hover.ofMember_ne_ofVariable _ _ _), fun huri => ?_⟩
      have hscript := (ix.owner?_script h habs hmarkup howner).2
      exact absurd huri (hscript _ (Location.uri_of_ofPath? htarget))

/-- What is shown is a member of the component exactly where the place is that of the member. -/
theorem Refers.exists_member (hrefers : Refers ix p d o b shown target)
    (hshown : shown.markdown ≠ Hover.ofVariable b.property) :
    ∃ owner m, ix.owner? .lwc p = some owner ∧ owner.member? b.property = some m ∧
      m.name = b.property ∧ shown.markdown = Hover.ofMember owner m ∧
      Location.ofPath? owner.file m.location = some target := by
  cases hrefers with
  | declared => exact absurd rfl hshown
  | @member owner m _ _ howner hm htarget =>
      exact ⟨owner, m, howner, hm, by simpa using List.find?_some hm, rfl, htarget⟩

end Binding

/-- After any history an editor that asks about a name in an expression of a template is shown
something exactly where it is told a place. Both are about the same: a variable with the attribute
around the name that declares it, and that is where the place is in the template, or a member of the
component with its place in the source of the component. -/
theorem Site.Filled.binding_targets {folders : Path → Prop} {site : Site} {s : Session}
    (h : site.Filled folders) (hs : s ∈ site.sessions) {p : Path} (habs : p.isAbsolute = true)
    (hmarkup : Dialect.ofMarkupFile? p = some .lwc) {text : String} {position : Position} :
    let d := Document.read text
    let o := d.offsetAt position
    (d.nodeAt o).kind ≠ .tagName → (d.nodeAt o).kind ≠ .attributeName →
    ((Hover.at? s.index p .lwc d o).isSome = (Definition.at? s.index p .lwc d o).isSome) ∧
    ∀ shown target, Hover.at? s.index p .lwc d o = some shown →
      Definition.at? s.index p .lwc d o = some target →
      ∃ b, Binding.at? .lwc d o = some b ∧
        (shown.markdown = Hover.ofVariable b.property ↔
          ∃ r, Binding.DeclaredAround d o b.property r ∧
            Location.ofPath? p (some (d.spanOf r)) = some target) ∧
        (shown.markdown = Hover.ofVariable b.property ↔ Uri.ofPath? p = some target.uri) ∧
        (shown.markdown ≠ Hover.ofVariable b.property →
          ∃ owner m, s.index.owner? .lwc p = some owner ∧ owner.member? b.property = some m ∧
            m.name = b.property ∧ shown.markdown = Hover.ofMember owner m ∧
            Location.ofPath? owner.file m.location = some target) := by
  intro d o htag hattribute
  have hplaced := h.placed hs .lwc
  rw [Hover.at?_of_other htag hattribute, Definition.at?_of_other htag hattribute]
  refine ⟨Hover.isSome_atBinding? hplaced habs hmarkup, fun shown target hshown htarget => ?_⟩
  obtain ⟨b, hb, hrefers⟩ := exists_refers (Document.formed_read text) hshown htarget
  exact ⟨b, hb, hrefers.variable_iff, hrefers.variable_iff_uri hplaced habs hmarkup,
    hrefers.exists_member⟩

namespace Titles

/-- A web component with a property. -/
def files : FileTree :=
  FileTree.empty.plant ⟨"/w/s/card/card.js"⟩
    (.file (some "export default class\x7btitle\x7d") 5)

/-- The session after a full pass. -/
def session : Session :=
  (Project.fullIndex ⟨files, .ofWorkspace Site.Templates.workspace⟩).1.session

def template : String := "<a for:item=\"x\">\x7btitle\x7d</a>"

end Titles

/-- A property is no variable, so the place is in the source of the component. -/
theorem Site.Filled.binding_targets_title :
    let ix := Titles.session.index
    let d := Document.read Titles.template
    Hover.at? ix ⟨"/w/s/card/card.html"⟩ .lwc d (d.offsetAt ⟨0, 18⟩) =
        some ⟨"**title** (*property*)\n\nDefined in: `s-card`", ⟨0, 17, 0, 22⟩⟩ ∧
      Definition.at? ix ⟨"/w/s/card/card.html"⟩ .lwc d (d.offsetAt ⟨0, 18⟩) =
        some ⟨"file:///w/s/card/card.js", ⟨0, 21, 0, 26⟩⟩ ∧
      ∃ owner m, ix.owner? .lwc ⟨"/w/s/card/card.html"⟩ = some owner ∧
        owner.member? "title" = some m ∧
        Location.ofPath? owner.file m.location =
          some ⟨"file:///w/s/card/card.js", ⟨0, 21, 0, 26⟩⟩ := by
  intro ix d
  have hshown : Hover.at? ix ⟨"/w/s/card/card.html"⟩ .lwc d (d.offsetAt ⟨0, 18⟩) =
      some ⟨"**title** (*property*)\n\nDefined in: `s-card`", ⟨0, 17, 0, 22⟩⟩ := by decide +kernel
  have htarget : Definition.at? ix ⟨"/w/s/card/card.html"⟩ .lwc d (d.offsetAt ⟨0, 18⟩) =
      some ⟨"file:///w/s/card/card.js", ⟨0, 21, 0, 26⟩⟩ := by decide +kernel
  have hb : Binding.at? .lwc d (d.offsetAt ⟨0, 18⟩) = some ⟨"title", ⟨17, 22⟩⟩ := by
    decide +kernel
  have hfilled : (⟨_, [Titles.session]⟩ : Site).Filled fun _ => False :=
    .opened (by decide +kernel) rfl (Project.calls_fullIndex _)
  obtain ⟨b, hb', -, -, hmember⟩ := (hfilled.binding_targets List.mem_cons_self
    (p := ⟨"/w/s/card/card.html"⟩) (by decide) (by decide) (by decide +kernel)
    (by decide +kernel)).2 _ _ hshown htarget
  obtain rfl := Option.some.inj (hb'.symm.trans hb)
  obtain ⟨owner, m, howner, hm, -, -, hlocation⟩ := hmember (by decide)
  exact ⟨hshown, htarget, owner, m, howner, hm, hlocation⟩

end ComponentAtlas
