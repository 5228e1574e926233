import ComponentAtlas.Text.Extent
import Mathlib.Data.List.Induction
import Mathlib.Data.List.TakeWhile

/-!
# Trimming texts

A text loses the characters that are trimmed in front of it and behind it, and one that neither
starts nor ends with such a character stays as it is.
-/

namespace ComponentAtlas.Text

section Trim

variable {p : Char → Bool} {text blanks : List Char}

theorem trimEnd_concat (text : List Char) (c : Char) :
    trimEnd p (text ++ [c]) = if p c then trimEnd p text else text ++ [c] := by
  induction text with
  | nil => rfl
  | cons first rest ih =>
      rw [List.cons_append, trimEnd, ih]
      by_cases hc : p c = true
      · rw [if_pos hc, if_pos hc, trimEnd]
      · rw [if_neg hc, if_neg hc]
        split
        · next hnil => simp at hnil
        · rfl

theorem trimEnd_append_of_all (h : ∀ c ∈ blanks, p c = true) :
    trimEnd p (text ++ blanks) = trimEnd p text := by
  induction blanks using List.reverseRecOn with
  | nil => rw [List.append_nil]
  | append_singleton front c ih =>
      obtain ⟨hfront, hc⟩ := List.forall_mem_append.mp h
      rw [← List.append_assoc, trimEnd_concat, if_pos (hc c (List.mem_singleton_self c)), ih hfront]

theorem trimEnd_eq_self (h : ∀ c ∈ text.getLast?, p c = false) : trimEnd p text = text := by
  rcases List.eq_nil_or_concat text with rfl | ⟨front, c, rfl⟩
  · rfl
  · rw [List.concat_eq_append] at h ⊢
    rw [trimEnd_concat, h c (by simp)]
    rfl

/-- A front that does not end with what is trimmed stays in front of what is left. -/
theorem trimEnd_append_of_last {front : List Char} (h : ∀ c ∈ front.getLast?, p c = false)
    (back : List Char) : trimEnd p (front ++ back) = front ++ trimEnd p back := by
  induction back using List.reverseRecOn with
  | nil => rw [List.append_nil, trimEnd_eq_self h, trimEnd, List.append_nil]
  | append_singleton back c ih =>
      rw [← List.append_assoc, trimEnd_concat, trimEnd_concat, ih]
      split
      · rfl
      · exact List.append_assoc front back [c]

/-- What is trimmed behind a text satisfies the test. -/
theorem exists_trimEnd (q : Char → Bool) (run : List Char) :
    ∃ blanks, run = trimEnd q run ++ blanks ∧ ∀ d ∈ blanks, q d = true := by
  induction run with
  | nil => exact ⟨[], rfl, fun d hd => nomatch hd⟩
  | cons e run ih =>
      obtain ⟨blanks, hrun, hblanks⟩ := ih
      rw [trimEnd]
      split
      · next hempty =>
        rw [hempty, List.nil_append] at hrun
        subst hrun
        by_cases he : q e = true
        · exact ⟨e :: run, by simp [he], List.forall_mem_cons.mpr ⟨he, hblanks⟩⟩
        · exact ⟨run, by simp [he], hblanks⟩
      · exact ⟨blanks, by rw [List.cons_append, ← hrun], hblanks⟩

theorem trimStart_append_of_all (h : ∀ c ∈ blanks, p c = true) :
    trimStart p (blanks ++ text) = trimStart p text := by
  induction blanks with
  | nil => rfl
  | cons c rest ih =>
      obtain ⟨hc, hrest⟩ := List.forall_mem_cons.mp h
      rw [List.cons_append, trimStart, List.dropWhile_cons_of_pos hc]
      exact ih hrest

theorem trimStart_eq_self (h : ∀ c ∈ text.head?, p c = false) : trimStart p text = text := by
  cases text with
  | nil => rfl
  | cons c rest => exact List.dropWhile_cons_of_neg (by simp [h c rfl])

theorem trimStart_of_all (h : ∀ c ∈ blanks, p c = true) : trimStart p blanks = [] := by
  rw [← List.append_nil blanks, trimStart_append_of_all h]
  rfl

/-- What does not satisfy the test stands in front of all that follows. -/
theorem trimStart_append_of_exists (h : ∃ c ∈ text, p c = false) (behind : List Char) :
    trimStart p (text ++ behind) = trimStart p text ++ behind := by
  obtain ⟨c, hc, hfalse⟩ := h
  rw [trimStart, List.dropWhile_append, if_neg]
  · rfl
  · intro hempty
    have htrue := List.dropWhile_eq_nil_iff.mp (List.isEmpty_iff.mp hempty) c hc
    rw [hfalse] at htrue
    cases htrue

/-- What follows a text and does not start with what is trimmed stays behind it. -/
theorem trimStart_append_of_first {behind : List Char} (h : ∀ c ∈ behind.head?, p c = false)
    (text : List Char) : trimStart p (text ++ behind) = trimStart p text ++ behind := by
  rw [trimStart, List.dropWhile_append]
  split
  · next hempty =>
      have hself : behind.dropWhile p = behind := trimStart_eq_self h
      rw [trimStart, List.isEmpty_iff.mp hempty, hself, List.nil_append]
  · rfl

theorem first_trimStart (p : Char → Bool) (text : List Char) :
    ∀ c ∈ (trimStart p text).head?, p c = false := by
  intro c hc
  have hfirst := List.head?_dropWhile_not p text
  rw [← trimStart, hc] at hfirst
  exact hfirst

/-- What is trimmed in front of a text and behind it does not count. -/
theorem trim_append_of_all (text : List Char) {behind : List Char} (h : ∀ c ∈ blanks, p c = true)
    (hbehind : ∀ c ∈ behind, p c = true) : trim p (blanks ++ text ++ behind) = trim p text := by
  have hstart : trimStart p (text ++ behind) = trimStart p text ∨
      trimStart p (text ++ behind) = trimStart p text ++ behind := by
    have happend : (text ++ behind).dropWhile p = _ := List.dropWhile_append
    split at happend
    · next hnil =>
        left
        rw [trimStart, happend, trimStart, List.isEmpty_iff.mp hnil]
        exact trimStart_of_all hbehind
    · exact .inr happend
  rw [trim, List.append_assoc, trimStart_append_of_all h, trim]
  rcases hstart with hstart | hstart
  · rw [hstart]
  · rw [hstart, trimEnd_append_of_all hbehind]

/-- A text that neither starts nor ends with what is trimmed comes back. -/
theorem trim_append_eq {behind : List Char} (h : ∀ c ∈ blanks, p c = true)
    (hbehind : ∀ c ∈ behind, p c = true) (hfirst : ∀ c ∈ text.head?, p c = false)
    (hlast : ∀ c ∈ text.getLast?, p c = false) : trim p (blanks ++ text ++ behind) = text := by
  rw [trim_append_of_all text h hbehind, trim, trimStart_eq_self hfirst, trimEnd_eq_self hlast]

theorem trim_eq_nil_iff : trim p text = [] ↔ ∀ c ∈ text, p c = true := by
  constructor
  · intro hnil c hc
    obtain ⟨behind, hstart, hbehind⟩ := exists_trimEnd p (trimStart p text)
    have htrimmed : trimEnd p (trimStart p text) = [] := hnil
    rw [htrimmed, List.nil_append] at hstart
    rw [← List.takeWhile_append_dropWhile (p := p) (l := text), List.mem_append] at hc
    rcases hc with hfront | hrest
    · exact List.mem_takeWhile_imp hfront
    · exact hbehind c (hstart ▸ hrest)
  · intro hall
    rw [trim, trimStart_of_all hall]
    rfl

theorem mem_of_mem_trim {c : Char} (h : c ∈ trim p text) : c ∈ text := by
  obtain ⟨behind, hstart, -⟩ := exists_trimEnd p (trimStart p text)
  have hmem : c ∈ trimStart p text := by
    rw [hstart]
    exact List.mem_append_left _ h
  exact (List.dropWhile_suffix p).mem hmem

end Trim

end ComponentAtlas.Text
