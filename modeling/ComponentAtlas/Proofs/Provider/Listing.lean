import ComponentAtlas.Proofs.Registry.Identifiers
import Mathlib.Data.List.Induction

/-!
# Listed tags are found again

The tags that markup may use are listed with one entry for each identifier. Asking for the
identifier of an entry gives that entry again, as long as the registry holds nothing under the
identifiers of the built-in tags that it would find first.
-/

namespace ComponentAtlas

open ComponentAtlas.Text

section Firsts

variable {α : Type} {key : α → String}

theorem firstsBy_concat (items : List α) (x : α) :
    firstsBy key (items ++ [x]) =
      if (firstsBy key items).any fun o => key o == key x then firstsBy key items
      else firstsBy key items ++ [x] := by
  simp only [firstsBy, List.foldl_append, List.foldl_cons, List.foldl_nil, List.any_reverse]
  split
  · rfl
  · rw [List.reverse_cons]

/-- Each key is kept. -/
theorem exists_mem_firstsBy (key : α → String) {items : List α} {o : α} (h : o ∈ items) :
    ∃ k ∈ firstsBy key items, key k = key o := by
  induction items using List.reverseRecOn with
  | nil => cases h
  | append_singleton items x ih =>
      rw [firstsBy_concat]
      rcases List.mem_append.mp h with hfront | hlast
      · obtain ⟨k, hk, hkey⟩ := ih hfront
        refine ⟨k, ?_, hkey⟩
        split
        · exact hk
        · exact List.mem_append_left _ hk
      · obtain rfl : o = x := List.mem_singleton.mp hlast
        split
        · next hany =>
            obtain ⟨k, hk, hkey⟩ := List.any_eq_true.mp hany
            exact ⟨k, hk, by simpa using hkey⟩
        · exact ⟨o, List.mem_append_right _ (List.mem_singleton_self o), rfl⟩

/-- What is kept is the first of its key. -/
theorem find?_of_mem_firstsBy {items : List α} {e : α} (h : e ∈ firstsBy key items) :
    items.find? (fun o => key o == key e) = some e := by
  induction items using List.reverseRecOn with
  | nil => cases h
  | append_singleton items x ih =>
      rw [firstsBy_concat] at h
      rw [List.find?_append]
      by_cases hfront : e ∈ firstsBy key items
      · rw [ih hfront, Option.some_or]
      split at h
      · exact absurd h hfront
      next hnew =>
        obtain rfl : e = x :=
          List.mem_singleton.mp ((List.mem_append.mp h).resolve_left hfront)
        have hnone : items.find? (fun o => key o == key e) = none := by
          refine List.find?_eq_none.mpr fun o ho hkey => hnew ?_
          obtain ⟨k, hk, hsame⟩ := exists_mem_firstsBy key ho
          exact List.any_eq_true.mpr ⟨k, hk, by simpa [hsame] using hkey⟩
        simp [hnone]

theorem firstsBy_map {β : Type} (f : β → α) (items : List β) :
    firstsBy key (items.map f) = (firstsBy (fun b => key (f b)) items).map f := by
  induction items using List.reverseRecOn with
  | nil => rfl
  | append_singleton items x ih =>
      rw [List.map_append, List.map_cons, List.map_nil, firstsBy_concat, firstsBy_concat, ih,
        List.any_map, apply_ite (List.map f), List.map_append]
      rfl

/-- No key is kept twice. -/
theorem nodup_firstsBy (key : α → String) (items : List α) :
    ((firstsBy key items).map key).Nodup := by
  induction items using List.reverseRecOn with
  | nil => exact List.nodup_nil
  | append_singleton items x ih =>
      rw [firstsBy_concat]
      split
      · exact ih
      next hnew =>
        rw [List.map_append, List.map_singleton, ← List.concat_eq_append, List.nodup_concat]
        refine ⟨fun hmem => hnew ?_, ih⟩
        obtain ⟨o, ho, hkey⟩ := List.mem_map.mp hmem
        exact List.any_eq_true.mpr ⟨o, ho, beq_iff_eq.mpr hkey⟩

/-- Nothing is left out where each key comes once. -/
theorem firstsBy_eq_self {items : List α} (h : (items.map key).Nodup) :
    firstsBy key items = items := by
  induction items using List.reverseRecOn with
  | nil => rfl
  | append_singleton items x ih =>
      rw [List.map_append, List.map_singleton, ← List.concat_eq_append, List.nodup_concat] at h
      obtain ⟨hnew, hrest⟩ := h
      rw [firstsBy_concat, ih hrest, if_neg]
      intro hany
      obtain ⟨o, ho, hkey⟩ := List.any_eq_true.mp hany
      exact hnew (List.mem_map.mpr ⟨o, ho, beq_iff_eq.mp hkey⟩)

/-- No key is added and none is lost. -/
theorem mem_keys_firstsBy {items : List α} {x : String} :
    x ∈ (firstsBy key items).map key ↔ x ∈ items.map key := by
  constructor
  · intro h
    obtain ⟨o, ho, rfl⟩ := List.mem_map.mp h
    exact List.mem_map_of_mem (List.mem_of_find?_eq_some (find?_of_mem_firstsBy ho))
  · intro h
    obtain ⟨o, ho, rfl⟩ := List.mem_map.mp h
    obtain ⟨k, hk, hsame⟩ := exists_mem_firstsBy key ho
    exact List.mem_map.mpr ⟨k, hk, hsame⟩

theorem any_firstsBy (items : List α) (x : String) :
    (firstsBy key items).any (fun o => key o == x) = decide (x ∈ items.map key) := by
  rw [Bool.eq_iff_iff, decide_eq_true_iff, ← mem_keys_firstsBy]
  simp

/-- Of what comes behind only the new keys are kept. -/
theorem firstsBy_append (front back : List α) : firstsBy key (front ++ back) =
    firstsBy key front ++ firstsBy key (back.filter fun o => key o ∉ front.map key) := by
  induction back using List.reverseRecOn with
  | nil => simp [firstsBy]
  | append_singleton back x ih =>
      rw [← List.append_assoc, firstsBy_concat, ih, List.filter_append, List.filter_singleton,
        List.any_append, any_firstsBy]
      by_cases hfront : key x ∈ front.map key
      · simp [hfront]
      · rw [decide_eq_true hfront, cond_true, firstsBy_concat, decide_eq_false hfront,
          Bool.false_or, apply_ite (firstsBy key front ++ ·), List.append_assoc]

end Firsts

/-- The entries of a dialect that stand for no component. -/
def builtins : Dialect → List TagEntry
  | .lwc => []
  | .aura => Builtin.systemTags.map .ofSystemTag

theorem tag_of_mem_builtins {d : Dialect} {e : TagEntry} (h : e ∈ builtins d) :
    e.tag = none := by
  cases d with
  | lwc => cases h
  | aura =>
      obtain ⟨s, -, rfl⟩ := List.mem_map.mp h
      rfl

/-- A built-in tag has a name in camel case in the namespace `aura`. -/
theorem identifier_of_mem_builtins {d : Dialect} {e : TagEntry} (h : e ∈ builtins d) :
    ∃ name : String, IsCamel name.toList ∧ e.identifier = Identity.keyOf "aura" name := by
  have hall : ∀ s ∈ Builtin.systemTags,
      let name := String.ofList (s.identifier.toList.drop 5)
      IsCamel name.toList ∧ s.identifier = Identity.keyOf "aura" name := by
    decide +kernel
  cases d with
  | lwc => cases h
  | aura =>
      obtain ⟨s, hs, rfl⟩ := List.mem_map.mp h
      exact ⟨_, hall s hs⟩

namespace Provider

/-- The provider of what is built in for a dialect. -/
def builtin : Dialect → Provider
  | .lwc => .directives
  | .aura => .systemTags

/-- For each dialect its registry is asked first, then what is built in. -/
theorem applicable_eq (d : Dialect) : applicable d = [.registry d] ++ [builtin d] := by
  cases d <;> rfl

theorem tags_builtin (ix : Index) (d : Dialect) : (builtin d).tags ix = builtins d := by
  cases d <;> rfl

theorem find?_builtin (ix : Index) (identifier : String) (d : Dialect) :
    (builtin d).find? ix identifier =
      (builtins d).find? fun e => e.identifier == identifier := by
  cases d with
  | lwc => rfl
  | aura =>
      rw [builtins, List.find?_map]
      rfl

end Provider

namespace Index

/-- The components of a dialect are listed in front of its built-in tags. -/
theorem listTags_eq (ix : Index) (d : Dialect) : ix.listTags d =
    firstsBy TagEntry.identifier ((ix.registry d).all.map .ofTag ++ builtins d) := by
  rw [listTags, Provider.applicable_eq, List.flatMap_append, List.flatMap_singleton,
    List.flatMap_singleton, Provider.tags_builtin]
  rfl

theorem findTag?_eq (ix : Index) (d : Dialect) (identifier : String) :
    ix.findTag? d identifier =
      (((ix.registry d).find? identifier).map .ofTag).or
        ((builtins d).find? fun e => e.identifier == identifier) := by
  rw [findTag?, Provider.applicable_eq, List.findSome?_append, List.findSome?_singleton,
    List.findSome?_singleton, Provider.find?_builtin]
  rfl

section Found

variable {ix : Index} {d : Dialect}

theorem findTag?_ofTag (h : (ix.registry d).Named) (hkept : (ix.registry d).Kept) {t : Tag}
    (ht : t ∈ (ix.registry d).all) : ix.findTag? d t.identifier = some (.ofTag t) := by
  have hfind : (ix.registry d).find? t.identifier = some t :=
    h.find?_spelling hkept ht t.identity.render_mem_spellings
  rw [findTag?_eq, hfind]
  rfl

/-- Every component of the registry is listed. -/
theorem ofTag_mem_listTags (h : (ix.registry d).Named) (hkept : (ix.registry d).Kept) {t : Tag}
    (ht : t ∈ (ix.registry d).all) : TagEntry.ofTag t ∈ ix.listTags d := by
  have hentry : TagEntry.ofTag t ∈ (ix.registry d).all.map .ofTag := List.mem_map_of_mem ht
  obtain ⟨k, hk, hsame⟩ := exists_mem_firstsBy TagEntry.identifier
    (List.mem_append_left (builtins d) hentry)
  have hfirst := find?_of_mem_firstsBy hk
  rw [List.find?_append] at hfirst
  rcases Option.or_eq_some_iff.mp hfirst with hcomponent | ⟨hnone, -⟩
  · obtain ⟨u, hu, rfl⟩ := List.mem_map.mp (List.mem_of_find?_eq_some hcomponent)
    have hidentifier : u.identifier = t.identifier := hsame
    have hfind := findTag?_ofTag h hkept hu
    rw [hidentifier, findTag?_ofTag h hkept ht] at hfind
    rw [listTags_eq, Option.some.inj hfind]
    exact hk
  · exact absurd (beq_iff_eq.mpr hsame.symm) (List.find?_eq_none.mp hnone _ hentry)

/-- A listed entry stands for a component of the registry, or it is built in and no component has
its identifier. -/
theorem mem_listTags {e : TagEntry} (h : e ∈ ix.listTags d) :
    (∃ t ∈ (ix.registry d).all, e = .ofTag t) ∨
      (e.tag = none ∧ (∀ t ∈ (ix.registry d).all, t.identifier ≠ e.identifier) ∧
        (builtins d).find? (fun o => o.identifier == e.identifier) = some e) := by
  rw [listTags_eq] at h
  have hfirst := find?_of_mem_firstsBy h
  rw [List.find?_append] at hfirst
  rcases Option.or_eq_some_iff.mp hfirst with hcomponent | ⟨hnone, hbuiltin⟩
  · obtain ⟨t, ht, rfl⟩ := List.mem_map.mp (List.mem_of_find?_eq_some hcomponent)
    exact .inl ⟨t, ht, rfl⟩
  · refine .inr ⟨tag_of_mem_builtins (List.mem_of_find?_eq_some hbuiltin), ?_, hbuiltin⟩
    intro t ht hsame
    refine List.find?_eq_none.mp hnone (.ofTag t) (List.mem_map_of_mem ht) ?_
    exact beq_iff_eq.mpr hsame

/-- A built-in tag is found unless a component stands under its identifier. -/
theorem findTag?_builtin (h : (ix.registry d).Named) {e : TagEntry}
    (hbuiltin : (builtins d).find? (fun o => o.identifier == e.identifier) = some e) :
    ix.findTag? d e.identifier =
      (((ix.registry d).get? e.identifier).map .ofTag).or (some e) := by
  obtain ⟨name, hcamel, hname⟩ :=
    identifier_of_mem_builtins (List.mem_of_find?_eq_some hbuiltin)
  rw [findTag?_eq, hbuiltin, hname, h.find?_key (by decide) (by decide) hcamel]

end Found

end Index

namespace Registry

/-- Among plain names each spelling of a tag leads to it, every tag is listed, and every listed
entry is found again by its identifier; only where a component stands under the identifier of a
built-in tag, and is written with a hyphen itself, that component is found. Whatever is found, by
any text, has the namespace in front of the mark and the local name behind it in one of the
conventions. -/
theorem Reached.identifies {r : Registry} (h : r.Reached) :
    (r.Named →
      (∀ t ∈ r.all, ∀ q ∈ t.identity.spellings, r.find? q = some t) ∧
      ∀ ix d, Index.registry ix d = r → (∀ t ∈ r.all, .ofTag t ∈ ix.listTags d) ∧
        ∀ e ∈ ix.listTags d,
          ((e.tag = none → r.get? e.identifier = none) →
            ix.findTag? d e.identifier = some e) ∧
          ∀ u, e.tag = none → r.get? e.identifier = some u →
            u.identity.delimiter = .hyphen ∧ ix.findTag? d e.identifier = some (.ofTag u)) ∧
    (r.ColonFree → ∀ q u, r.find? q = some u →
      ∃ mark ∈ [":", "-"], ∃ name, name ≠ "" ∧ q = u.identity.space ++ mark ++ name ∧
        (name = u.identity.localName ∨ flipConvention name = u.identity.localName)) := by
  have hkept := h.kept
  refine ⟨fun hnamed => ⟨fun t ht q hq => hnamed.find?_spelling hkept ht hq, ?_⟩,
    fun hfree q u hu => hfree.of_find? hkept hu⟩
  rintro ix d rfl
  refine ⟨fun t ht => Index.ofTag_mem_listTags hnamed hkept ht, fun e he => ?_⟩
  rcases Index.mem_listTags he with ⟨t, ht, rfl⟩ | ⟨htag, hfresh, hbuiltin⟩
  · exact ⟨fun _ => Index.findTag?_ofTag hnamed hkept ht, fun u htag => nomatch htag⟩
  have hfind := Index.findTag?_builtin hnamed hbuiltin
  refine ⟨fun hfree => ?_, fun u _ hu => ⟨?_, ?_⟩⟩
  · rw [hfind, hfree htag]
    rfl
  · have hkey : u.identity.key = e.identifier := get?_eq_some_key hu
    have hwritten : u.identity.render ≠ e.identifier := hfresh u (mem_of_lookup hu)
    cases hdelimiter : u.identity.delimiter with
    | hyphen => rfl
    | colon =>
        refine absurd ?_ hwritten
        rw [← hkey, Identity.render, hdelimiter]
        rfl
  · rw [hfind, hu]
    rfl

/-- A web component in a namespace with a hyphen, as the aura registry shows it. -/
theorem identifies_hyphenated :
    let list : Tag :=
      ⟨⟨"my-shop", "orderList", .hyphen⟩, .lwc, ⟨"/my-shop/lwc/orderList/orderList.js"⟩, 1, none,
        none, [], []⟩
    let ix := Index.ofTags "lightning" [list]
    ix.aura.Reached ∧ ix.aura.Named ∧ ix.aura.find? "my-shop-order-list" = some list.mirror ∧
      ix.findTag? .aura "my-shop:orderList" = some (.ofTag list.mirror) ∧
      ∃ mark ∈ [":", "-"], ∃ name, name ≠ "" ∧ "my-shop-order-list" = "my-shop" ++ mark ++ name ∧
        (name = "orderList" ∨ flipConvention name = "orderList") := by
  intro list ix
  have hreached : ix.aura.Reached := Index.ofTags_reached "lightning" [list] .aura
  have hnamed : ix.aura.Named := .of_names (by decide +kernel) (by decide +kernel)
  obtain ⟨hplain, hread⟩ := hreached.identifies
  obtain ⟨hspelled, hlisted⟩ := hplain hnamed
  have hmem : list.mirror ∈ ix.aura.all := by decide +kernel
  obtain ⟨hall, hagain⟩ := hlisted ix .aura rfl
  have hfind := hspelled list.mirror hmem "my-shop-order-list" (by decide +kernel)
  exact ⟨hreached, hnamed, hfind, (hagain _ (hall _ hmem)).1 nofun,
    hread hnamed.colonFree _ _ hfind⟩

/-- A component with a hyphen under the identifier of a built-in tag, which is listed and not
found. -/
theorem findTag?_hidden :
    let component : Tag :=
      ⟨⟨"aura", "component", .hyphen⟩, .aura, ⟨"/aura/component/component.cmp"⟩, 1, none, none,
        [], []⟩
    let ix := Index.ofTags "lightning" [component]
    (∀ d, (ix.registry d).Reached ∧ (ix.registry d).Named) ∧
      ∃ e ∈ ix.listTags .aura, e.tag = none ∧
        ix.findTag? .aura e.identifier = some (.ofTag component) := by
  intro component ix
  refine ⟨fun d => ⟨Index.ofTags_reached "lightning" [component] d, ?_⟩, ?_⟩
  · cases d <;> exact .of_names (by decide +kernel) (by decide +kernel)
  · refine ⟨⟨"aura:component", "aura:component", some "Root of an Aura component bundle.", none⟩,
      ?_, rfl, ?_⟩
    · decide +kernel
    · decide +kernel

end Registry

end ComponentAtlas
