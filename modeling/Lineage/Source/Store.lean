import Lineage.Path
import Lineage.Text.Utf8

/-!
# The source store

A snapshot of the source files, in the order of their paths. A file whose content changes becomes
dirty; saving writes the dirty files, each once.
-/

namespace Lineage

/-! ## Files -/

/-- The snapshot of a source file. -/
structure SourceFile where
  path : Path
  content : Bytes
  /-- Whether the content differs from what was last read or written. -/
  dirty : Bool
  deriving DecidableEq, Repr

namespace SourceFile

/-- A file as it was read. -/
def ofContent (path : Path) (content : Bytes) : SourceFile := ⟨path, content, false⟩

/-- A file with a new content; the same content changes nothing. -/
def replace (f : SourceFile) (content : Bytes) : SourceFile :=
  if content = f.content then f else { f with content, dirty := true }

/-- The content as text, ill-formed parts replaced. -/
def text (f : SourceFile) : String := Utf8.lossy f.content

@[simp] theorem path_replace (f : SourceFile) (content : Bytes) :
    (f.replace content).path = f.path := by
  unfold replace; split <;> rfl

@[simp] theorem content_replace (f : SourceFile) (content : Bytes) :
    (f.replace content).content = content := by
  unfold replace; split <;> simp_all

end SourceFile

/-! ## Insertion into an ordered list of files -/

/-- Puts a file in its place in a list ordered by path; a file with the same path gives way. -/
def insertFile (f : SourceFile) : List SourceFile → List SourceFile
  | [] => [f]
  | g :: rest =>
    match f.path.compare g.path with
    | .lt => f :: g :: rest
    | .eq => f :: rest
    | .gt => g :: insertFile f rest

/-- Whether the files of a list stand in the order of their paths. -/
def PathOrdered (files : List SourceFile) : Prop :=
  files.Pairwise fun f g => f.path.compare g.path = .lt

theorem pathOrdered_iff {files : List SourceFile} :
    PathOrdered files ↔ (files.map (·.path)).Pairwise fun p q => p.compare q = .lt := by
  rw [PathOrdered, List.pairwise_map]

theorem eq_or_mem_of_mem_insertFile {f x : SourceFile} {l : List SourceFile}
    (h : x ∈ insertFile f l) : x = f ∨ x ∈ l := by
  induction l with
  | nil => simpa [insertFile] using h
  | cons g rest ih =>
    unfold insertFile at h
    split at h <;> grind

theorem pathOrdered_insertFile {f : SourceFile} {l : List SourceFile} (h : PathOrdered l) :
    PathOrdered (insertFile f l) := by
  induction l with
  | nil => simp [insertFile, PathOrdered]
  | cons g rest ih =>
    obtain ⟨hg, hrest⟩ := List.pairwise_cons.1 h
    unfold insertFile
    split
    · rename_i hfg
      refine List.pairwise_cons.2 ⟨fun x hx => ?_, h⟩
      rcases List.mem_cons.1 hx with rfl | hx
      · exact hfg
      · exact Std.TransCmp.lt_trans hfg (hg x hx)
    · rename_i hfg
      exact List.pairwise_cons.2
        ⟨fun x hx => (Std.TransCmp.congr_left hfg).trans (hg x hx), hrest⟩
    · rename_i hfg
      refine List.pairwise_cons.2 ⟨fun x hx => ?_, ih hrest⟩
      rcases eq_or_mem_of_mem_insertFile hx with rfl | hx
      · exact Std.OrientedCmp.lt_of_gt hfg
      · exact hg x hx

/-! ## Stores -/

/-- A snapshot of source files. -/
structure Store where
  /-- The files in the order of their paths. -/
  files : List SourceFile
  ordered : PathOrdered files
  deriving Repr

namespace Store

/-- The snapshot without files. -/
def empty : Store := ⟨[], .nil⟩

instance : EmptyCollection Store := ⟨empty⟩
instance : Inhabited Store := ⟨empty⟩

/-- Adds a file, in place of the one with the same path. -/
def insert (s : Store) (f : SourceFile) : Store :=
  ⟨insertFile f s.files, pathOrdered_insertFile s.ordered⟩

/-- The snapshot of a list of files; of two with the same path the later one stays. -/
def ofFiles (files : List SourceFile) : Store := files.foldl insert ∅

/-- The file at a path. -/
def get? (s : Store) (path : Path) : Option SourceFile :=
  s.files.find? fun f => f.path.same path

/-- The number of files. -/
def size (s : Store) : Nat := s.files.length

/-- Whether there are no files. -/
def isEmpty (s : Store) : Bool := s.files.isEmpty

/-- The dirty files, in order. -/
def dirtyFiles (s : Store) : List SourceFile := s.files.filter (·.dirty)

/-- The paths of the dirty files, in order. -/
def dirtyPaths (s : Store) : List Path := s.dirtyFiles.map (·.path)

/-- Gives every file the content that a rule computes from it. -/
def edit (s : Store) (rule : SourceFile → Bytes) : Store :=
  ⟨s.files.map fun f => f.replace (rule f), by
    simpa [PathOrdered, List.pairwise_map] using s.ordered⟩

/-- Gives the file at a path a new content. -/
def replace (s : Store) (path : Path) (content : Bytes) : Store :=
  s.edit fun f => if f.path.same path then content else f.content

/-- Takes the first dirty files of a list to be saved. -/
def settleFiles : Nat → List SourceFile → List SourceFile
  | _, [] => []
  | 0, files => files
  | count + 1, f :: rest =>
    if f.dirty then { f with dirty := false } :: settleFiles count rest
    else f :: settleFiles (count + 1) rest

theorem map_path_settleFiles (count : Nat) (files : List SourceFile) :
    (settleFiles count files).map (·.path) = files.map (·.path) := by
  fun_induction settleFiles count files <;> simp_all

/-- Takes the first dirty files to be saved. -/
def settle (s : Store) (count : Nat) : Store :=
  ⟨settleFiles count s.files, by
    rw [pathOrdered_iff, map_path_settleFiles, ← pathOrdered_iff]
    exact s.ordered⟩

end Store

end Lineage
