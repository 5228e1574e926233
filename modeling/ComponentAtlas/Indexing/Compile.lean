import ComponentAtlas.Markup.Component
import ComponentAtlas.Script.Component
import ComponentAtlas.Tag.Dialect

/-!
# Reading component sources

Each dialect has its own kind of source: web components are classes in scripts, aura components
are elements in markup.
-/

namespace ComponentAtlas

/-- The metadata of a source of a dialect, or why there is none. -/
def Dialect.compile (d : Dialect) (source file : String) : Except (List Diagnostic) Metadata :=
  match d with
  | .lwc => Script.metadata source file
  | .aura => Markup.metadata source file

end ComponentAtlas
