import Lineage.Source.Store
import Lineage.Text.Lines

/-!
# Meta headers

A source file is marked as declarations only by its first line. The header is put in front of
every file that does not start with it.
-/

namespace Lineage

/-- A content with the header line in front, unless it starts with the header already. -/
def withHeader? (header : String) (content : Bytes) : Option Bytes :=
  if (Utf8.ofString header).isPrefixOf content then none
  else some (Utf8.ofString header ++ newline :: content)

/-- A content that starts with the header. -/
def withHeader (header : String) (content : Bytes) : Bytes :=
  (withHeader? header content).getD content

namespace Store

/-- Puts the header in front of every file that lacks it. -/
def addHeaders (s : Store) (header : String) : Store :=
  s.edit fun f => withHeader header f.content

/-- The number of files that lack the header. -/
def countWithoutHeader (s : Store) (header : String) : Nat :=
  s.files.countP fun f => (withHeader? header f.content).isSome

end Store

end Lineage
