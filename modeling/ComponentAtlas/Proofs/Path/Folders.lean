import ComponentAtlas.Proofs.Path.Pieces
import Mathlib.Data.List.TakeWhile

/-!
# Folders of a path

The folder of a path has all of its components but the last. An entry file is therefore known by
its components: two names at their end, of which the second is the first with an extension.
-/

namespace ComponentAtlas

open ComponentAtlas.Text

namespace Path

/-- The component that the head of a spelling stands for. -/
def headSteps : List Char → List Step
  | ['/'] => [.root]
  | ['.'] => [.here]
  | _ => []

/-- A dot alone in front is the head. -/
theorem first_ne_dot {spelling first : List Char} {rest : List (List Char)}
    (hdot : spelling = ['.'] → False) (hhere : ∀ more, spelling = '.' :: '/' :: more → False)
    (h : splitAt '/' spelling = first :: rest) : first ≠ ['.'] := by
  rintro rfl
  cases spelling with
  | nil => simp [splitAt] at h
  | cons c text =>
      by_cases hc : c = '/'
      · subst hc
        simp at h
      · obtain ⟨piece, more, hsplit⟩ := List.exists_cons_of_ne_nil (splitAt_ne_nil '/' text)
        rw [splitAt_cons_of_ne hc hsplit] at h
        obtain ⟨rfl, rfl⟩ := List.cons.inj (List.cons.inj h).1
        rcases eq_of_splitAt_nil_cons hsplit with rfl | ⟨more, rfl⟩
        · exact hdot rfl
        · exact hhere more rfl

/-- Behind the head, each piece of the body that names something is a component. -/
theorem componentsOf_eq_head (spelling : List Char) :
    componentsOf spelling =
      headSteps (splitHead spelling).1 ++
        (splitAt '/' (splitHead spelling).2).filterMap Step.ofPiece? := by
  unfold splitHead
  split
  · next rest =>
      simp [componentsOf, headSteps, splitAt_ne_nil]
  · rfl
  · next rest =>
      have hdot : splitAt '/' ('.' :: '/' :: rest) = ['.'] :: splitAt '/' rest :=
        splitAt_cons_of_ne (by decide) (splitAt_cons_self rest)
      simp [componentsOf, headSteps, hdot, Step.ofPiece?]
  · next hroot hdot hhere =>
      obtain ⟨first, rest, hsplit⟩ :=
        List.exists_cons_of_ne_nil (splitAt_ne_nil '/' spelling)
      have hfirst := first_ne_dot hdot hhere hsplit
      rw [componentsOf, hsplit]
      by_cases hnil : first = []
      · subst hnil
        rcases eq_of_splitAt_nil_cons hsplit with rfl | ⟨more, rfl⟩
        · obtain rfl : rest = [] := (List.cons.inj hsplit).2.symm
          rfl
        · exact absurd rfl (hroot more)
      · simp only [hnil, hfirst, if_false, headSteps, List.nil_append]
        cases h : Step.ofPiece? first <;> simp [h]

/-- Trimming drops pieces that name nothing, up to one that names something. -/
theorem trimPieces_spec (pieces : List (List Char)) :
    (∃ idle, pieces = trimPieces pieces ++ idle ∧ ∀ p ∈ idle, Step.ofPiece? p = none) ∧
      ∀ init last, trimPieces pieces = init ++ [last] → (Step.ofPiece? last).isSome := by
  induction pieces with
  | nil => exact ⟨⟨[], rfl, fun _ h => nomatch h⟩, fun init last h => by simp [trimPieces] at h⟩
  | cons piece rest ih =>
      obtain ⟨⟨idle, hrest, hidle⟩, hlast⟩ := ih
      unfold trimPieces
      cases htrim : trimPieces rest with
      | nil =>
          rw [htrim] at hrest
          dsimp only
          split
          · next hpiece =>
              refine ⟨⟨piece :: rest, rfl, ?_⟩, fun init last h => by simp at h⟩
              intro p hp
              rcases List.mem_cons.mp hp with rfl | hp
              · simpa using hpiece
              · exact hidle p (by simpa [hrest] using hp)
          · next hpiece =>
              refine ⟨⟨rest, rfl, fun p hp => hidle p (by simpa [hrest] using hp)⟩,
                fun init last h => ?_⟩
              have hone := congrArg List.getLast? h
              simp only [List.getLast?_singleton, List.getLast?_append, Option.some_or,
                Option.some.injEq] at hone
              rw [← hone]
              simpa [Option.isSome_iff_ne_none] using hpiece
      | cons kept more =>
          refine ⟨⟨idle, ?_, hidle⟩, fun init last h => ?_⟩
          · rw [List.cons_append, ← htrim, ← hrest]
          · cases init with
            | nil => simp at h
            | cons first inner =>
                rw [List.cons_append, List.cons.injEq] at h
                exact hlast inner last (htrim.trans h.2)

theorem filterMap_trimPieces (pieces : List (List Char)) :
    (trimPieces pieces).filterMap Step.ofPiece? = pieces.filterMap Step.ofPiece? := by
  obtain ⟨⟨idle, hpieces, hidle⟩, -⟩ := trimPieces_spec pieces
  have hnone : idle.filterMap Step.ofPiece? = [] := List.filterMap_eq_nil_iff.mpr hidle
  conv_rhs => rw [hpieces, List.filterMap_append, hnone, List.append_nil]

theorem joinWith_cons (piece : List Char) (pieces : List (List Char)) :
    joinWith ['/'] (piece :: pieces) = piece ++
      (if pieces = [] then [] else '/' :: joinWith ['/'] pieces) := by
  cases pieces with
  | nil => simp [joinWith]
  | cons next more => simp [joinWith]

/-- A spelling without a head has none when its first piece is something else than a dot. -/
theorem splitHead_of_piece {first : List Char} (hslash : '/' ∉ first) (hnil : first ≠ [])
    (hdot : first ≠ ['.']) (pieces : List (List Char)) :
    splitHead (joinWith ['/'] (first :: pieces)) = ([], joinWith ['/'] (first :: pieces)) := by
  rw [joinWith_cons]
  cases first with
  | nil => exact absurd rfl hnil
  | cons c rest =>
      rw [List.mem_cons, not_or] at hslash
      cases rest with
      | nil =>
          unfold splitHead
          split
          · next h => exact absurd (List.cons.inj h).1.symm hslash.1
          · next h => exact absurd (by rw [(List.cons.inj h).1]) hdot
          · next h => exact absurd (by rw [(List.cons.inj h).1]) hdot
          · rfl
      | cons c' rest =>
          rw [List.mem_cons, not_or] at hslash
          unfold splitHead
          split
          · next h => exact absurd (List.cons.inj h).1.symm hslash.1
          · next h => exact absurd (List.cons.inj h).2 (List.cons_ne_nil _ _)
          · next h => exact absurd (List.cons.inj (List.cons.inj h).2).1.symm hslash.2.1
          · rfl

/-- The head of a spelling stays when the pieces behind it are cut. -/
theorem splitHead_front {spelling : List Char} {kept : List (List Char)}
    (hkept : kept <+: splitAt '/' (splitHead spelling).2)
    (hend : ∀ init last, kept = init ++ [last] → (Step.ofPiece? last).isSome) :
    splitHead ((splitHead spelling).1 ++ joinWith ['/'] kept) =
      ((splitHead spelling).1, joinWith ['/'] kept) := by
  have hidle : kept ≠ [[]] := fun h => by simpa [Step.ofPiece?] using hend [] [] h
  obtain ⟨more, hmore⟩ := hkept
  revert hmore
  fun_cases splitHead spelling with
  | case1 rest => exact fun _ => rfl
  | case2 =>
      intro hmore
      cases kept with
      | nil => rfl
      | cons first rest =>
          obtain ⟨rfl, hrest⟩ := List.cons.inj hmore
          have hnil : rest = [] := (List.append_eq_nil_iff.mp hrest).1
          exact absurd (by rw [hnil]) hidle
  | case3 rest =>
      intro hmore
      cases kept with
      | nil => rfl
      | cons first rest =>
          rw [splitAt_cons_self] at hmore
          obtain ⟨rfl, hrest⟩ := List.cons.inj hmore
          have hne : rest ≠ [] := fun h => hidle (by rw [h])
          rw [joinWith_cons, if_neg hne]
          rfl
  | case4 _ hroot hdot hhere =>
      intro hmore
      cases kept with
      | nil => rfl
      | cons first rest =>
          have hslash : '/' ∉ first :=
            not_mem_of_mem_splitAt (hmore ▸ List.mem_append_left _ List.mem_cons_self)
          refine splitHead_of_piece hslash ?_ (first_ne_dot hdot hhere hmore.symm) rest
          rintro rfl
          rcases eq_of_splitAt_nil_cons hmore.symm with rfl | ⟨text, rfl⟩
          · have hnil : rest = [] := (List.append_eq_nil_iff.mp (List.cons.inj hmore).2).1
            exact hidle (by rw [hnil])
          · exact hroot text rfl

/-- A front of the pieces of a spelling behind its head gives the components of that front. -/
theorem componentsOf_front {spelling : List Char} {kept : List (List Char)}
    (hkept : kept <+: splitAt '/' (splitHead spelling).2)
    (hend : ∀ init last, kept = init ++ [last] → (Step.ofPiece? last).isSome) :
    componentsOf ((splitHead spelling).1 ++ joinWith ['/'] kept) =
      headSteps (splitHead spelling).1 ++ kept.filterMap Step.ofPiece? := by
  rw [componentsOf_eq_head, splitHead_front hkept hend]
  cases kept with
  | nil => rfl
  | cons first rest =>
      rw [splitAt_joinWith (List.cons_ne_nil _ _) fun piece hpiece =>
        not_mem_of_mem_splitAt (hkept.subset hpiece)]

/-- The folder of a path that ends with a name. -/
theorem components_parent? {p : Path} {steps : List Step} {name : String}
    (h : p.components = steps ++ [.name name]) :
    ∃ folder, p.parent? = some folder ∧ folder.components = steps := by
  have hcomponents := componentsOf_eq_head p.text.toList
  rw [← filterMap_trimPieces] at hcomponents
  change p.components = _ at hcomponents
  obtain ⟨⟨idle, hpieces, -⟩, hlast⟩ :=
    trimPieces_spec (splitAt '/' (splitHead p.text.toList).2)
  rw [h] at hcomponents
  rcases List.eq_nil_or_concat (trimPieces (splitAt '/' (splitHead p.text.toList).2)) with
    hnil | ⟨init, last, hconcat⟩
  · rw [hnil] at hcomponents
    have hend := congrArg List.getLast? hcomponents
    unfold headSteps at hend
    split at hend <;> simp at hend
  · rw [List.concat_eq_append] at hconcat
    obtain ⟨step, hstep⟩ := Option.isSome_iff_exists.mp (hlast init last hconcat)
    have hone : [last].filterMap Step.ofPiece? = [step] := by simp [hstep]
    rw [hconcat, List.filterMap_append, hone, ← List.append_assoc] at hcomponents
    obtain ⟨hsteps, -⟩ := List.append_inj' hcomponents rfl
    obtain ⟨⟨end', hinit, -⟩, hinitLast⟩ := trimPieces_spec init
    have hfront : trimPieces init <+: splitAt '/' (splitHead p.text.toList).2 := by
      have hinner : trimPieces init <+: init := ⟨end', hinit.symm⟩
      have hmiddle : init <+: trimPieces (splitAt '/' (splitHead p.text.toList).2) :=
        ⟨[last], hconcat.symm⟩
      exact hinner.trans (hmiddle.trans ⟨idle, hpieces.symm⟩)
    refine ⟨⟨String.ofList ((splitHead p.text.toList).1 ++ joinWith ['/'] (trimPieces init))⟩,
      ?_, ?_⟩
    · obtain ⟨piece, rest, hcons⟩ :=
        List.exists_cons_of_ne_nil
          (List.append_ne_nil_of_right_ne_nil init (List.cons_ne_nil last []))
      simp only [parent?, hconcat, hcons]
      rw [← hcons, List.dropLast_concat]
    · rw [components, String.toList_ofList, componentsOf_front hfront hinitLast,
        filterMap_trimPieces, hsteps]

theorem fileName?_of_components {p : Path} {steps : List Step} {name : String}
    (h : p.components = steps ++ [.name name]) : p.fileName? = some name := by
  simp [fileName?, h]

theorem components_of_fileName? {p : Path} {name : String} (h : p.fileName? = some name) :
    ∃ steps, p.components = steps ++ [.name name] := by
  unfold fileName? at h
  split at h
  · next hlast =>
      cases h
      obtain ⟨steps, hsteps⟩ := List.getLast?_eq_some_iff.mp hlast
      exact ⟨steps, hsteps⟩
  · cases h

/-- A name with an ending that has no dot is taken apart at the dot in front of it. -/
theorem splitName_append {stem ending : List Char} (hstem : stem ≠ []) (hdot : '.' ∉ ending) :
    splitName (stem ++ '.' :: ending) = (stem, some ending) := by
  have htake : (stem ++ '.' :: ending).reverse.takeWhile (· != '.') = ending.reverse := by
    rw [List.reverse_append, List.reverse_cons, List.append_assoc, List.singleton_append,
      List.takeWhile_append_of_pos fun c hc => ?_]
    · simp
    · exact bne_iff_ne.mpr fun h => hdot (h ▸ List.mem_reverse.mp hc)
  have hlength : (stem ++ '.' :: ending).length - ending.length = (stem ++ ['.']).length := by
    simp only [List.length_append, List.length_cons, List.length_nil]
    omega
  have hfront : (stem ++ '.' :: ending).take (stem ++ ['.']).length = stem ++ ['.'] := by
    have hsplit : stem ++ '.' :: ending = (stem ++ ['.']) ++ ending := by simp
    rw [hsplit, List.take_left]
  simp only [splitName, htake, List.reverse_reverse, hlength, hfront, List.dropLast_concat]
  rw [if_neg]
  have hpos := List.length_pos_iff.mpr hstem
  simp only [List.length_append, List.length_cons, List.length_nil]
  omega

/-- A name that has an ending is its stem, a dot and that ending. -/
theorem eq_of_splitName {name stem ending : List Char}
    (h : splitName name = (stem, some ending)) :
    name = stem ++ '.' :: ending ∧ stem ≠ [] ∧ '.' ∉ ending := by
  have hname : name = (name.reverse.dropWhile (· != '.')).reverse ++
      (name.reverse.takeWhile (· != '.')).reverse := by
    rw [← List.reverse_append, List.takeWhile_append_dropWhile, List.reverse_reverse]
  have hending : '.' ∉ (name.reverse.takeWhile (· != '.')).reverse := by
    intro hmem
    simpa using List.mem_takeWhile_imp (List.mem_reverse.mp hmem)
  have htake : ∀ front back : List Char, name = front ++ back →
      name.take (name.length - back.length) = front := by
    rintro front back rfl
    simp
  have hfront := htake _ _ hname
  simp only [splitName, hfront] at h
  split at h
  · cases h
  · next hlong =>
      obtain ⟨rfl, hstop⟩ := Prod.mk.inj h
      obtain rfl := Option.some.inj hstop
      cases hback : name.reverse.dropWhile (· != '.') with
      | nil => simp [hback] at hlong
      | cons c rest =>
          have hc : c = '.' := by
            have hhead := List.head?_dropWhile_not (· != '.') name.reverse
            simpa [hback] using hhead
          rw [hback] at hname hlong
          rw [List.reverse_cons, List.dropLast_concat]
          refine ⟨?_, ?_, hending⟩
          · conv_lhs => rw [hname, hc]
            simp
          · rintro hnil
            rw [List.reverse_cons, hnil] at hlong
            exact hlong (Nat.le_refl _)

/-- A name with an extension is taken apart at the dot between them. -/
theorem extension?_of_components {p : Path} {steps : List Step} {name ext : String}
    (hname : name.toList ≠ []) (hdot : '.' ∉ ext.toList)
    (h : p.components = steps ++ [.name (name ++ "." ++ ext)]) :
    p.stem? = some name ∧ p.extension? = some ext := by
  have hsplit := splitName_append hname hdot
  have hlist : (name ++ "." ++ ext).toList = name.toList ++ '.' :: ext.toList := by simp
  rw [stem?, extension?, fileName?_of_components h, Option.map_some, Option.bind_some, hlist,
    hsplit]
  simp

/-- An entry file is a name with an extension in a folder of that name. -/
theorem isEntry_iff {p : Path} {extensions : List String} :
    p.isEntry extensions = true ↔
      ∃ steps name ext, ext ∈ extensions ∧ '.' ∉ ext.toList ∧
        p.components = steps ++ [.name name, .name (name ++ "." ++ ext)] := by
  constructor
  · intro h
    unfold isEntry at h
    split at h
    · cases h
    · next ext hext =>
        rw [Bool.and_eq_true] at h
        obtain ⟨hmem, hfolder⟩ := h
        obtain ⟨file, hfile, hending⟩ := Option.bind_eq_some_iff.mp hext
        obtain ⟨ending, hsplit, rfl⟩ := Option.map_eq_some_iff.mp hending
        obtain ⟨steps, hsteps⟩ := components_of_fileName? hfile
        obtain ⟨folder, hparent, hcomponents⟩ := components_parent? hsteps
        have hname : splitName file.toList = ((splitName file.toList).1, some ending) :=
          Prod.ext rfl hsplit
        obtain ⟨heq, -, hdot⟩ := eq_of_splitName hname
        have hstem : folder.fileName? = some (String.ofList (splitName file.toList).1) := by
          rw [stem?, hfile, hparent] at hfolder
          simp only [Option.map_some, Option.bind_some] at hfolder
          split at hfolder
          · next stem name hs hn =>
              rw [hn, Option.some_inj.mp hs, beq_iff_eq.mp hfolder]
          · cases hfolder
        obtain ⟨outer, houter⟩ := components_of_fileName? hstem
        refine ⟨outer, String.ofList (splitName file.toList).1, String.ofList ending,
          by simpa using hmem, by simpa using hdot, ?_⟩
        have hfileName : file = String.ofList (splitName file.toList).1 ++ "." ++
            String.ofList ending := by
          refine String.toList_inj.mp ?_
          conv_lhs => rw [heq]
          simp
        rw [hsteps, ← hcomponents, houter, List.append_assoc, ← hfileName]
        rfl
  · rintro ⟨steps, name, ext, hmem, hdot, hcomponents⟩
    have hplain : PlainName name :=
      plainName_of_mem_components (p := p) (by rw [hcomponents]; simp)
    have hfile : p.components = (steps ++ [.name name]) ++ [.name (name ++ "." ++ ext)] := by
      rw [hcomponents]
      simp
    obtain ⟨folder, hparent, hfolder⟩ := components_parent? hfile
    obtain ⟨hstem, hext⟩ := extension?_of_components hplain.ne_nil hdot hfile
    simp [isEntry, hext, hstem, hparent, fileName?_of_components hfolder, hmem]

/-- The folder around the folder of a path that ends with two names. -/
theorem components_grandparent? {p : Path} {steps : List Step} {name inner : String}
    (h : p.components = steps ++ [.name name, .name inner]) :
    ∃ outer, p.grandparent? = some outer ∧ outer.components = steps := by
  have hfile : p.components = (steps ++ [.name name]) ++ [.name inner] := by
    rw [h]
    simp
  obtain ⟨folder, hparent, hfolder⟩ := components_parent? hfile
  obtain ⟨outer, houter, hsteps⟩ := components_parent? hfolder
  exact ⟨outer, by rw [grandparent?, hparent, Option.bind_some, houter], hsteps⟩

section Same

variable {p q : Path} (h : p.components = q.components)
include h

theorem fileName?_congr : p.fileName? = q.fileName? := by
  rw [fileName?, fileName?, h]

theorem stem?_congr : p.stem? = q.stem? := by
  rw [stem?, stem?, fileName?_congr h]

theorem isEntry_congr (extensions : List String) : p.isEntry extensions = q.isEntry extensions := by
  rw [Bool.eq_iff_iff, isEntry_iff, isEntry_iff, h]

theorem same_congr_left (r : Path) : p.same r = q.same r := by
  rw [same, same, h]

end Same

theorem same_comm (p q : Path) : p.same q = q.same p := by
  rw [Bool.eq_iff_iff, same_iff, same_iff, eq_comm]

/-- A path lies at or below a base when its components start with those of the base. -/
theorem startsWith_iff {p base : Path} :
    p.startsWith base = true ↔ base.components <+: p.components := by
  have hgo : ∀ front steps : List Step,
      (below?.go front steps).isSome = true ↔ front <+: steps := by
    intro front
    induction front with
    | nil => exact fun steps => by simp [below?.go]
    | cons b front ih =>
        intro steps
        cases steps with
        | nil => simp [below?.go]
        | cons c rest =>
            rw [below?.go, List.cons_prefix_cons]
            by_cases hbc : b = c
            · rw [if_pos hbc, ih]
              simp [hbc]
            · simp [hbc]
  exact hgo base.components p.components

end Path

end ComponentAtlas
