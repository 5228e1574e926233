import ComponentAtlas.Text.Cursor
import ComponentAtlas.Proofs.Text.Positions
import ComponentAtlas.Proofs.Text.Trimming

/-!
# Fronts and cursors of a text

A cursor of a text stands between two of its characters. It stays one when it is moved past a front
of what is still to be read.
-/

namespace ComponentAtlas.Text

variable {text : List Char} {c d : Cursor}

/-- A range that is cut out of a text between its characters. -/
def ByteRange.Cut (text : List Char) (r : ByteRange) : Prop :=
  r.start ∈ boundaries 0 text ∧ r.stop ∈ boundaries 0 text

/-- A cursor of a text. -/
def On (text : List Char) (c : Cursor) : Prop :=
  ∃ front, text = front ++ c.rest ∧ byteSize front = c.offset

theorem On.boundary (h : On text c) : c.offset ∈ boundaries 0 text := by
  obtain ⟨front, htext, hsize⟩ := h
  exact mem_boundaries.mpr ⟨front, ⟨c.rest, htext.symm⟩, hsize.symm⟩

theorem On.past {front : List Char} (h : On text c) (hfront : front <+: c.rest) :
    On text (c.past front) := by
  obtain ⟨before, htext, hsize⟩ := h
  obtain ⟨back, hback⟩ := hfront
  refine ⟨before ++ front, ?_, by simp [Cursor.past, hsize]⟩
  simp [Cursor.past, ← hback, htext]

theorem On.skip {p : Char → Bool} (h : On text c) : On text (c.skip p) :=
  h.past (List.takeWhile_prefix p)

theorem On.tail (h : On text c) : On text c.tail :=
  h.past (List.take_prefix 1 c.rest)

theorem offset_past (c : Cursor) (front : List Char) :
    (c.past front).offset = c.offset + byteSize front := rfl

theorem offset_le_skip (c : Cursor) (p : Char → Bool) : c.offset ≤ (c.skip p).offset :=
  Nat.le_add_right _ _

theorem rest_skip (c : Cursor) (p : Char → Bool) : (c.skip p).rest = c.rest.dropWhile p := by
  calc
    (c.skip p).rest = (c.rest.takeWhile p ++ c.rest.dropWhile p).drop (c.rest.takeWhile p).length :=
      by rw [List.takeWhile_append_dropWhile]; rfl
    _ = c.rest.dropWhile p := List.drop_left

theorem skip_of_neg {p : Char → Bool} {e : Char} {rest : List Char} (h : c.rest = e :: rest)
    (he : p e = false) : c.skip p = c := by
  rw [Cursor.skip, Cursor.while_, h, List.takeWhile_cons_of_neg (by simp [he])]
  rfl

theorem byteSize_pos {front : List Char} (h : front ≠ []) : 0 < byteSize front := by
  cases front with
  | nil => exact absurd rfl h
  | cons c front =>
      have := c.utf8Size_pos
      simp only [byteSize_cons]
      omega

theorem offset_lt_past {front : List Char} (c : Cursor) (h : front ≠ []) :
    c.offset < (c.past front).offset := by
  have := byteSize_pos h
  rw [offset_past]
  omega

theorem offset_lt_tail {e : Char} {rest : List Char} (h : c.rest = e :: rest) :
    c.offset < c.tail.offset :=
  offset_lt_past c (by simp [h])

/-- The front of a text is found by its size. -/
theorem On.rest_eq {front back : List Char} (h : On text c) (htext : text = front ++ back)
    (hsize : byteSize front = c.offset) : c.rest = back := by
  obtain ⟨before, hbefore, hoffset⟩ := h
  have h₁ : takeBytes (byteSize before) text = before := takeBytes_of_front ⟨_, hbefore.symm⟩
  have h₂ : takeBytes (byteSize front) text = front := takeBytes_of_front ⟨_, htext.symm⟩
  have hsame : before = front := by rw [← h₁, hoffset, ← hsize, h₂]
  rw [hbefore, hsame] at htext
  exact List.append_cancel_left htext

theorem On.offset_le (h : On text c) : c.offset ≤ byteSize text := by
  obtain ⟨front, htext, hsize⟩ := h
  rw [htext, byteSize_append, hsize]
  exact Nat.le_add_right _ _

end ComponentAtlas.Text
