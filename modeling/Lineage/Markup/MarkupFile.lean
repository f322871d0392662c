import Lineage.Diagnostic
import Lineage.Failure
import Lineage.Markup.Reading

/-!
# Markup files

The relations that a markup file declares. A fault in it stops the run, or ends the reading of the
file with a finding, as the settings say.
-/

namespace Lineage

/-- What a markup file declares, with the finding if it was not read to its end. -/
structure MarkupFile where
  relations : Relations
  recovered : Option Diagnostic
  deriving DecidableEq, Repr

/-- The declarations of a markup content. -/
def MarkupFile.ofContent (s : ScanSettings) (path : Path) (content : Bytes) :
    Except Failure MarkupFile :=
  let reading := Markup.read content
  let relations := Relations.ofElements s.frameTags reading.elements
  match reading.fault with
  | none => .ok ⟨relations, none⟩
  | some fault =>
    if s.strictMarkup then .error (.markup path fault.message)
    else .ok ⟨relations, some (.markupRecovered path fault.message)⟩

end Lineage
