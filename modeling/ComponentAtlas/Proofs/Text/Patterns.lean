import ComponentAtlas.Text.Pattern
import Mathlib.Data.List.Basic

/-!
# What patterns read

`Reads` says which characters a pattern can read and which groups it keeps, without the order of
its ways. Running a pattern gives exactly these ways. When every match begins with a mark that it
does not have again, a search from left to right finds the match at each place of the text.
-/

namespace ComponentAtlas.Text

/-- The characters that a pattern can read at an offset, with its groups. -/
inductive Pattern.Reads : Pattern → Nat → List Char → List Group → Prop where
  | one {test : Char → Bool} (offset : Nat) {c : Char} (h : test c = true) :
      Reads (.one test) offset [c] []
  | seq {p q : Pattern} {offset : Nat} {front back : List Char} {gs hs : List Group}
      (hp : Reads p offset front gs) (hq : Reads q (offset + byteSize front) back hs) :
      Reads (.seq p q) offset (front ++ back) (gs ++ hs)
  | without (p : Pattern) (offset : Nat) : Reads (.maybe p) offset [] []
  | within {p : Pattern} {offset : Nat} {front : List Char} {gs : List Group}
      (hp : Reads p offset front gs) : Reads (.maybe p) offset front gs
  | done (p : Pattern) (offset : Nat) : Reads (.many p) offset [] []
  | more {p : Pattern} {offset : Nat} {front back : List Char} {gs hs : List Group}
      (hp : Reads p offset front gs) (hne : front ≠ [])
      (hmore : Reads (.many p) (offset + byteSize front) back hs) :
      Reads (.many p) offset (front ++ back) (gs ++ hs)
  | group {p : Pattern} {offset : Nat} {front : List Char} {gs : List Group}
      (hp : Reads p offset front gs) :
      Reads (.group p) offset front (gs ++ [(⟨offset, offset + byteSize front⟩, front)])

namespace Pattern

section Inversion

variable {p q : Pattern} {test : Char → Bool} {offset : Nat} {front : List Char} {gs : List Group}

theorem reads_one : Reads (.one test) offset front gs ↔
    ∃ c, front = [c] ∧ gs = [] ∧ test c = true := by
  constructor
  · rintro ⟨⟩
    next c h => exact ⟨c, rfl, rfl, h⟩
  · rintro ⟨c, rfl, rfl, h⟩
    exact .one offset h

theorem reads_seq : Reads (.seq p q) offset front gs ↔
    ∃ first second fs ss, front = first ++ second ∧ gs = fs ++ ss ∧
      Reads p offset first fs ∧ Reads q (offset + byteSize first) second ss := by
  constructor
  · rintro ⟨⟩
    next hp hq => exact ⟨_, _, _, _, rfl, rfl, hp, hq⟩
  · rintro ⟨first, second, fs, ss, rfl, rfl, hp, hq⟩
    exact .seq hp hq

theorem reads_maybe : Reads (.maybe p) offset front gs ↔
    (front = [] ∧ gs = []) ∨ Reads p offset front gs := by
  constructor
  · rintro (_ | _ | _)
    · exact .inl ⟨rfl, rfl⟩
    · next hp => exact .inr hp
  · rintro (⟨rfl, rfl⟩ | hp)
    · exact .without p offset
    · exact .within hp

theorem reads_group : Reads (.group p) offset front gs ↔
    ∃ fs, Reads p offset front fs ∧ gs = fs ++ [(⟨offset, offset + byteSize front⟩, front)] := by
  constructor
  · rintro ⟨⟩
    next hp => exact ⟨_, hp, rfl⟩
  · rintro ⟨fs, hp, rfl⟩
    exact .group hp

/-- A repeated character is read as often as it passes the test. -/
theorem reads_many_one : Reads (.many (.one test)) offset front gs ↔
    gs = [] ∧ ∀ c ∈ front, test c = true := by
  constructor
  · generalize hq : Pattern.many (.one test) = q
    intro h
    induction h with
    | done => exact ⟨rfl, fun c hc => nomatch hc⟩
    | more hp hne hmore _ ih =>
        cases hq
        obtain ⟨c, rfl, rfl, hc⟩ := reads_one.mp hp
        obtain ⟨rfl, hall⟩ := ih rfl
        exact ⟨rfl, fun d hd => (List.mem_cons.mp hd).elim (fun h => h ▸ hc) (hall d)⟩
    | one => cases hq
    | seq => cases hq
    | without => cases hq
    | within => cases hq
    | group => cases hq
  · rintro ⟨rfl, hall⟩
    induction front generalizing offset with
    | nil => exact .done _ offset
    | cons c rest ih =>
        obtain ⟨hc, hrest⟩ := List.forall_mem_cons.mp hall
        exact .more (.one offset hc) (List.cons_ne_nil c []) (ih hrest)

end Inversion

section Run

variable {p q : Pattern} {r s : Reading}

/-- The reading behind some characters with further groups. -/
def after (r : Reading) (front back : List Char) (gs : List Group) : Reading :=
  ⟨r.groups ++ gs, ⟨back, r.next.offset + byteSize front⟩⟩

theorem after_after (r : Reading) (first second back mid : List Char) (gs hs : List Group) :
    after (after r first mid gs) second back hs = after r (first ++ second) back (gs ++ hs) := by
  simp [after, Nat.add_assoc]

theorem after_nil (r : Reading) : after r [] r.next.rest [] = r := by
  simp [after]

/-- The readings that a pattern allows. -/
def Allows (p : Pattern) (r s : Reading) : Prop :=
  ∃ front back gs, r.next.rest = front ++ back ∧ Reads p r.next.offset front gs ∧
    s = after r front back gs

theorem allows_one {test : Char → Bool} : (one test).Allows r s ↔
    ∃ c back, r.next.rest = c :: back ∧ test c = true ∧ s = after r [c] back [] := by
  constructor
  · rintro ⟨front, back, gs, hrest, h, rfl⟩
    obtain ⟨c, rfl, rfl, hc⟩ := reads_one.mp h
    exact ⟨c, back, hrest, hc, rfl⟩
  · rintro ⟨c, back, hrest, hc, rfl⟩
    exact ⟨[c], back, [], hrest, .one _ hc, rfl⟩

theorem allows_seq : (seq p q).Allows r s ↔ ∃ t, p.Allows r t ∧ q.Allows t s := by
  constructor
  · rintro ⟨front, back, gs, hrest, h, rfl⟩
    obtain ⟨first, second, fs, ss, rfl, rfl, hp, hq⟩ := reads_seq.mp h
    exact ⟨after r first (second ++ back) fs,
      ⟨first, second ++ back, fs, by simp [hrest], hp, rfl⟩,
      second, back, ss, rfl, hq, (after_after ..).symm⟩
  · rintro ⟨t, ⟨first, mid, fs, hrest, hp, rfl⟩, second, back, ss, hmid, hq, rfl⟩
    obtain rfl : mid = second ++ back := hmid
    exact ⟨first ++ second, back, fs ++ ss, by simp [hrest], .seq hp hq, after_after ..⟩

theorem allows_maybe : (maybe p).Allows r s ↔ p.Allows r s ∨ s = r := by
  constructor
  · rintro ⟨front, back, gs, hrest, h, rfl⟩
    obtain ⟨rfl, rfl⟩ | hp := reads_maybe.mp h
    · obtain rfl : r.next.rest = back := hrest
      exact .inr (after_nil r)
    · exact .inl ⟨front, back, gs, hrest, hp, rfl⟩
  · rintro (⟨front, back, gs, hrest, hp, rfl⟩ | rfl)
    · exact ⟨front, back, gs, hrest, .within hp, rfl⟩
    · exact ⟨[], _, [], rfl, .without p _, (after_nil s).symm⟩

theorem allows_group : (group p).Allows r s ↔
    ∃ t, p.Allows r t ∧ s = ⟨t.groups ++ [r.groupTo t], t.next⟩ := by
  have kept : ∀ front back gs, r.next.rest = front ++ back →
      r.groupTo (after r front back gs) =
        (⟨r.next.offset, r.next.offset + byteSize front⟩, front) := by
    intro front back gs hrest
    simp [Reading.groupTo, Cursor.rangeTo, after, hrest]
  constructor
  · rintro ⟨front, back, gs, hrest, h, rfl⟩
    obtain ⟨fs, hp, rfl⟩ := reads_group.mp h
    exact ⟨_, ⟨front, back, fs, hrest, hp, rfl⟩, by rw [kept front back fs hrest]; simp [after]⟩
  · rintro ⟨t, ⟨front, back, fs, hrest, hp, rfl⟩, rfl⟩
    exact ⟨front, back, _, hrest, .group hp, by rw [kept front back fs hrest]; simp [after]⟩

/-- What is read again stands behind what was read before. -/
theorem follows_after {front back : List Char} {gs : List Group}
    (h : r.next.rest = front ++ back) :
    (after r front back gs).follows r = true ↔ front ≠ [] := by
  simp [Reading.follows, after, h, List.length_pos_iff]

theorem allows_many : (many p).Allows r s ↔
    s = r ∨ ∃ t, p.Allows r t ∧ t.follows r = true ∧ (many p).Allows t s := by
  constructor
  · rintro ⟨front, back, gs, hrest, h, rfl⟩
    generalize hq : many p = q at h
    cases h with
    | done => exact .inl (by obtain rfl : r.next.rest = back := hrest; exact after_nil r)
    | more hp hne hmore =>
        next first second fs ss =>
        cases hq
        rw [List.append_assoc] at hrest
        exact .inr ⟨after r first (second ++ back) fs, ⟨first, _, fs, hrest, hp, rfl⟩,
          (follows_after hrest).mpr hne, second, back, ss, rfl, hmore, (after_after ..).symm⟩
    | one => cases hq
    | seq => cases hq
    | without => cases hq
    | within => cases hq
    | group => cases hq
  · rintro (rfl | ⟨t, ⟨first, mid, fs, hrest, hp, rfl⟩, hlt, second, back, ss, hmid, hmore, rfl⟩)
    · exact ⟨[], _, [], rfl, .done p _, (after_nil s).symm⟩
    · obtain rfl : mid = second ++ back := hmid
      exact ⟨first ++ second, back, fs ++ ss, by simp [hrest],
        .more hp ((follows_after hrest).mp hlt) hmore, after_after ..⟩

theorem mem_repeated {step : Reading → List Reading}
    (hstep : ∀ r s, s ∈ step r ↔ p.Allows r s) {n : Nat} (hn : r.next.rest.length ≤ n) :
    s ∈ repeated step n r ↔ (many p).Allows r s := by
  rw [allows_many]
  induction n generalizing r s with
  | zero =>
      have hlt : ∀ t : Reading, t.follows r = false := fun t => by
        simp [Reading.follows, Nat.le_zero.mp hn]
      simp [repeated, hlt]
  | succ n ih =>
      have inner : ∀ t : Reading, t.follows r = true →
          (s ∈ repeated step n t ↔ (many p).Allows t s) := by
        intro t ht
        have hshort : t.next.rest.length < r.next.rest.length := of_decide_eq_true ht
        rw [allows_many]
        exact ih (by omega)
      simp only [repeated, List.mem_append, List.mem_flatMap, List.mem_filter, List.mem_singleton,
        hstep]
      constructor
      · rintro (⟨t, ⟨hp, ht⟩, hs⟩ | rfl)
        · exact .inr ⟨t, hp, ht, (inner t ht).mp hs⟩
        · exact .inl rfl
      · rintro (rfl | ⟨t, hp, ht, hs⟩)
        · exact .inr rfl
        · exact .inl ⟨t, ⟨hp, ht⟩, (inner t ht).mpr hs⟩

/-- Running a pattern gives what it can read. -/
theorem mem_run : s ∈ p.run r ↔ p.Allows r s := by
  induction p generalizing r s with
  | one test =>
      rw [run, allows_one]
      cases hrest : r.next.rest with
      | nil => simp
      | cons c back =>
          by_cases hc : test c = true
          · simp [hc, after, Cursor.tail, Cursor.past, hrest]
          · simp [hc]
  | seq p q hp hq => simp only [run, List.mem_flatMap, hp, hq, allows_seq]
  | maybe p ih => simp only [run, List.mem_append, List.mem_singleton, ih, allows_maybe]
  | many p ih => exact mem_repeated (fun r s => ih) (Nat.le_refl _)
  | group p ih => simp only [run, List.mem_map, ih, allows_group, eq_comm]

theorem allows_of_matchAt? {c : Cursor} {m : Reading} (h : p.matchAt? c = some m) :
    p.Allows ⟨[], c⟩ m :=
  mem_run.mp (List.mem_of_head? h)

theorem matchAt?_eq_none_iff {c : Cursor} :
    p.matchAt? c = none ↔ ∀ m, ¬ p.Allows ⟨[], c⟩ m := by
  simp only [matchAt?, List.head?_eq_none_iff, List.eq_nil_iff_forall_not_mem, mem_run]

end Run

section Preferred

variable {p q : Pattern} {step : Reading → List Reading} {r s t : Reading}

theorem head?_flatMap_of_head? {f : Reading → List Reading} {ways : List Reading}
    (hs : ways.head? = some s) (ht : (f s).head? = some t) :
    (ways.flatMap f).head? = some t := by
  obtain ⟨more, rfl⟩ := List.head?_eq_some_iff.mp hs
  obtain ⟨others, hf⟩ := List.head?_eq_some_iff.mp ht
  rw [List.flatMap_cons, hf]
  rfl

theorem head?_repeated_done (n : Nat) (h : step r = []) : (repeated step n r).head? = some r := by
  cases n <;> simp [repeated, h]

theorem head?_repeated_more {n : Nat} (hs : (step r).head? = some s) (hlt : s.follows r = true)
    (ht : (repeated step n s).head? = some t) : (repeated step (n + 1) r).head? = some t := by
  obtain ⟨more, hmore⟩ := List.head?_eq_some_iff.mp hs
  have hfirst : ((step r).filter fun s => s.follows r).head? = some s := by
    simp [hmore, hlt]
  rw [repeated, List.head?_append, head?_flatMap_of_head? hfirst ht]
  rfl

/-- A text does not go on with a character that passes a test. -/
def Stops (test : Char → Bool) (rest : List Char) : Prop :=
  ∀ c ∈ rest.head?, test c = false

theorem stops_nil {test : Char → Bool} : Stops test [] := by
  simp [Stops]

/-- A text can be cut in one way only behind the characters that pass a test. -/
theorem eq_of_stops {test : Char → Bool} {front front' back back' : List Char}
    (h : front ++ back = front' ++ back') (hall : ∀ c ∈ front, test c = true)
    (hall' : ∀ c ∈ front', test c = true) (hstop : Stops test back) (hstop' : Stops test back') :
    front = front' ∧ back = back' := by
  induction front generalizing front' with
  | nil =>
      cases front' with
      | nil => exact ⟨rfl, h⟩
      | cons c front' =>
          obtain rfl : back = c :: (front' ++ back') := h
          exact absurd (hall' c (List.mem_cons_self ..)) (by simp [hstop c rfl])
  | cons c front ih =>
      cases front' with
      | nil =>
          obtain rfl : c :: (front ++ back) = back' := h
          exact absurd (hall c (List.mem_cons_self ..)) (by simp [hstop' c rfl])
      | cons d front' =>
          obtain ⟨rfl, htail⟩ := List.cons.inj h
          obtain ⟨rfl, rfl⟩ := ih htail (fun e he => hall e (List.mem_cons_of_mem c he))
            fun e he => hall' e (List.mem_cons_of_mem c he)
          exact ⟨rfl, rfl⟩

theorem exists_stops (test : Char → Bool) (text : List Char) :
    ∃ front back, text = front ++ back ∧ (∀ c ∈ front, test c = true) ∧ Stops test back := by
  induction text with
  | nil => exact ⟨[], [], rfl, by simp, stops_nil⟩
  | cons c text ih =>
      by_cases hc : test c = true
      · obtain ⟨front, back, rfl, hall, hstop⟩ := ih
        exact ⟨c :: front, back, rfl, List.forall_mem_cons.mpr ⟨hc, hall⟩, hstop⟩
      · refine ⟨[], c :: text, rfl, by simp, ?_⟩
        rintro d ⟨⟩
        simpa using hc

theorem run_one_nil {test : Char → Bool} (h : Stops test r.next.rest) : (one test).run r = [] := by
  unfold run
  split
  · rfl
  · next c rest hrest => simp [h c (by simp [hrest])]

theorem run_one_cons {test : Char → Bool} {c : Char} {rest : List Char}
    (hrest : r.next.rest = c :: rest) (hc : test c = true) :
    (one test).run r = [after r [c] rest []] := by
  simp [run, hrest, hc, after, Cursor.tail, Cursor.past]

theorem head?_repeated_one {test : Char → Bool} {front back : List Char} {n : Nat}
    (hn : r.next.rest.length ≤ n) (hrest : r.next.rest = front ++ back)
    (hall : ∀ c ∈ front, test c = true) (hstop : Stops test back) :
    (repeated (one test).run n r).head? = some (after r front back []) := by
  induction front generalizing r n with
  | nil =>
      obtain rfl : r.next.rest = back := hrest
      rw [after_nil]
      exact head?_repeated_done n (run_one_nil hstop)
  | cons c front ih =>
      obtain ⟨hc, hall⟩ := List.forall_mem_cons.mp hall
      cases n with
      | zero => simp [hrest] at hn
      | succ n =>
          have hnext := run_one_cons hrest hc
          have hshort : (front ++ back).length ≤ n := by
            simpa [hrest] using hn
          have := ih (r := after r [c] (front ++ back) []) hshort rfl hall
          rw [after_after] at this
          have hsplit : r.next.rest = [c] ++ (front ++ back) := hrest
          exact head?_repeated_more (by rw [hnext]; rfl)
            ((follows_after hsplit).mpr (List.cons_ne_nil c [])) this

/-- A repeated character is read up to the first one that fails the test. -/
theorem head?_many_one {test : Char → Bool} {front back : List Char}
    (hrest : r.next.rest = front ++ back) (hall : ∀ c ∈ front, test c = true)
    (hstop : Stops test back) :
    ((many (one test)).run r).head? = some (after r front back []) :=
  head?_repeated_one (Nat.le_refl _) hrest hall hstop

theorem head?_seq (hs : (p.run r).head? = some s) (ht : (q.run s).head? = some t) :
    ((seq p q).run r).head? = some t :=
  head?_flatMap_of_head? hs ht

theorem head?_group {front back : List Char} {gs : List Group}
    (hrest : r.next.rest = front ++ back)
    (hs : (p.run r).head? = some (after r front back gs)) :
    ((group p).run r).head? = some (after r front back
      (gs ++ [(⟨r.next.offset, r.next.offset + byteSize front⟩, front)])) := by
  rw [run, List.head?_map, hs]
  simp [after, Reading.groupTo, Cursor.rangeTo, hrest]

end Preferred

section Search

/-- The cursors of a text. -/
def places (offset : Nat) : List Char → List Cursor
  | [] => [⟨[], offset⟩]
  | c :: rest => ⟨c :: rest, offset⟩ :: places (offset + c.utf8Size) rest

theorem mem_places {offset : Nat} {text : List Char} {c : Cursor} :
    c ∈ places offset text ↔
      ∃ front, text = front ++ c.rest ∧ c.offset = offset + byteSize front := by
  induction text generalizing offset with
  | nil =>
      obtain ⟨rest, o⟩ := c
      simp [places, and_assoc, and_left_comm, eq_comm]
  | cons d text ih =>
      rw [places, List.mem_cons, ih]
      constructor
      · rintro (rfl | ⟨front, rfl, hoffset⟩)
        · exact ⟨[], rfl, rfl⟩
        · exact ⟨d :: front, rfl, by rw [hoffset, byteSize_cons, Nat.add_assoc]⟩
      · rintro ⟨front, htext, hoffset⟩
        cases front with
        | nil =>
            obtain ⟨rest, o⟩ := c
            obtain rfl : d :: text = rest := htext
            exact .inl (by rw [show o = offset from hoffset])
        | cons e front =>
            obtain ⟨rfl, rfl⟩ := List.cons.inj htext
            exact .inr ⟨front, rfl, by rw [hoffset, byteSize_cons, Nat.add_assoc]⟩

/-- The cursors of a text stand in the order of their offsets. -/
theorem places_pairwise (offset : Nat) (text : List Char) :
    (places offset text).Pairwise fun c d => c.offset < d.offset := by
  induction text generalizing offset with
  | nil => exact List.pairwise_singleton _ _
  | cons d text ih =>
      refine List.pairwise_cons.mpr ⟨fun c hc => ?_, ih _⟩
      obtain ⟨front, -, hoffset⟩ := mem_places.mp hc
      have := d.utf8Size_pos
      simp only [hoffset]
      omega

/-- Every match of a pattern begins with a mark that it does not have again. -/
def Opens (mark : Char) (p : Pattern) : Prop :=
  ∀ offset front gs, Reads p offset front gs → ∃ tail, front = mark :: tail ∧ mark ∉ tail

variable {mark : Char} {p : Pattern}

theorem Opens.rest_eq (h : p.Opens mark) {c : Cursor} {m : Reading}
    (hm : p.matchAt? c = some m) : ∃ tail, mark ∉ tail ∧ c.rest = mark :: (tail ++ m.next.rest) ∧
      m.next.offset = c.offset + byteSize (mark :: tail) := by
  obtain ⟨front, back, gs, hrest, hreads, rfl⟩ := allows_of_matchAt? hm
  obtain ⟨tail, rfl, hnot⟩ := h _ _ _ hreads
  exact ⟨tail, hnot, hrest, rfl⟩

/-- A mark that stands within the bytes of a front belongs to the front. -/
theorem mem_of_byteSize_lt {front more tail back : List Char}
    (h : front ++ mark :: more = tail ++ back) (hlt : byteSize front < byteSize tail) :
    mark ∈ tail := by
  obtain ⟨mid, rfl, hmid⟩ | ⟨mid, rfl, hmid⟩ := List.append_eq_append_iff.mp h
  · cases mid with
    | nil => simp at hlt
    | cons e mid =>
        obtain ⟨rfl, -⟩ := List.cons.inj hmid
        simp
  · rw [byteSize_append] at hlt
    omega

/-- No match begins inside another one. -/
theorem Opens.matchAt?_inside (h : p.Opens mark) {d : Char} {offset : Nat} {rest : List Char}
    {m : Reading} (hm : p.matchAt? ⟨d :: rest, offset⟩ = some m) {c : Cursor}
    (hc : c ∈ places (offset + d.utf8Size) rest) (hlt : c.offset < m.next.offset) :
    p.matchAt? c = none := by
  obtain ⟨tail, hnot, hrest, hnext⟩ := h.rest_eq hm
  obtain ⟨rfl, rfl⟩ := List.cons.inj hrest
  obtain ⟨front, hfront, hoffset⟩ := mem_places.mp hc
  have hshort : byteSize front < byteSize tail := by
    rw [hnext, hoffset, byteSize_cons, ← Nat.add_assoc] at hlt
    exact Nat.lt_of_add_lt_add_left hlt
  rw [Option.eq_none_iff_forall_ne_some]
  intro m' hm'
  obtain ⟨tail', -, hrest', -⟩ := h.rest_eq hm'
  rw [hrest'] at hfront
  exact hnot (mem_of_byteSize_lt hfront.symm hshort)

theorem Opens.search_eq (h : p.Opens mark) {free offset : Nat} {text : List Char}
    (hfree : ∀ c ∈ places offset text, c.offset < free → p.matchAt? c = none) :
    p.search free offset text = (places offset text).filterMap p.matchAt? := by
  induction text generalizing free offset with
  | nil =>
      by_cases hlt : offset < free
      · simp [search, places, hlt, hfree ⟨[], offset⟩ (by simp [places]) hlt]
      · cases hm : p.matchAt? ⟨[], offset⟩ <;> simp [search, places, hlt, hm]
  | cons d rest ih =>
      obtain ⟨hhere, hrest⟩ := List.forall_mem_cons.mp hfree
      rw [search, places, List.filterMap_cons]
      by_cases hlt : offset < free
      · simp only [hlt, if_true, Option.map_none, Option.getD_none, Option.toList_none,
          List.nil_append, ih hrest, hhere hlt]
      · cases hm : p.matchAt? ⟨d :: rest, offset⟩ with
        | none =>
            simp only [hlt, if_false, Option.map_none, Option.getD_none, Option.toList_none,
              List.nil_append, ih hrest]
        | some m =>
            simp only [hlt, if_false, Option.map_some, Option.getD_some, Option.toList_some,
              List.singleton_append, ih fun c hc hin => h.matchAt?_inside hm hc hin]

/-- A search finds the match at each place of the text. -/
theorem Opens.matchesIn_eq (h : p.Opens mark) (text : List Char) :
    p.matchesIn text = (places 0 text).filterMap p.matchAt? :=
  h.search_eq fun _ _ hlt => absurd hlt (Nat.not_lt_zero _)

end Search

end Pattern

end ComponentAtlas.Text
