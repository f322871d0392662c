import Lineage.Source.Store
import Mathlib.Data.List.Basic
import Mathlib.Data.List.Nodup

/-!
# Editing a store

Every edit keeps the paths and changes contents by a rule. Two edits in a row are one, as long as
neither takes a byte away: a file that was changed stays dirty, and holds something else.

## Main definitions

- `SourceFile.copy`: what a file holds, apart from whether it is dirty
- `Store.Grown`: a store after edits that only added

## Main statements

- `Store.edit_eq_self`: an edit that changes no content
- `Store.edit_edit`, `Store.Grown.edit`: edits that only add
- `Store.Grown.exists_of_mem_dirtyFiles`: what dirty files hold after them
- `Store.files_ofFiles_map`: contents changed before the files are gathered
- `Store.files_ofFiles`: files gathered in order
- `Store.mem_of_mem_ofFiles`, `Store.exists_mem_ofFiles`: which files are in a store
- `Store.dirtyFiles_settle`, `Store.exists_of_mem_settle`: the first dirty files taken to be saved
-/

namespace Lineage

/-- The path and the content of a file. -/
def SourceFile.copy (f : SourceFile) : Path × Bytes := (f.path, f.content)

theorem SourceFile.replace_self (f : SourceFile) : f.replace f.content = f := by
  rw [replace, if_pos rfl]

/-- A file with another content is dirty. -/
theorem SourceFile.dirty_replace {f : SourceFile} {content : Bytes} (h : content ≠ f.content) :
    (f.replace content).dirty = true := by
  rw [replace, if_neg h]

theorem SourceFile.replace_replace {f : SourceFile} {content content' : Bytes}
    (h : content' = f.content → content = f.content) :
    (f.replace content).replace content' = f.replace content' := by
  by_cases hsame : content = f.content
  · rw [hsame, replace_self]
  · -- the file was changed, so the second change does not bring it back
    have hsame' : content' ≠ f.content := fun heq => hsame (h heq)
    unfold replace
    simp only [if_neg hsame, if_neg hsame']
    split
    · rename_i heq
      rw [heq]
    · rfl

namespace Store

variable {s t : Store} {rule rule' : SourceFile → Bytes}

theorem eq_of_files (h : s.files = t.files) : s = t := by
  cases s
  cases t
  cases h
  rfl

@[simp] theorem files_edit (s : Store) (rule : SourceFile → Bytes) :
    (s.edit rule).files = s.files.map fun f => f.replace (rule f) := rfl

theorem map_path_edit (s : Store) (rule : SourceFile → Bytes) :
    (s.edit rule).files.map (·.path) = s.files.map (·.path) := by
  rw [files_edit, List.map_map]
  exact List.map_congr_left fun f _ => SourceFile.path_replace ..

theorem edit_congr (h : ∀ f ∈ s.files, rule f = rule' f) : s.edit rule = s.edit rule' := by
  apply eq_of_files
  rw [files_edit, files_edit]
  refine List.map_congr_left fun f hf => ?_
  rw [h f hf]

/-- An edit that changes no content changes nothing. -/
theorem edit_eq_self (h : ∀ f ∈ s.files, rule f = f.content) : s.edit rule = s := by
  apply eq_of_files
  rw [files_edit]
  have hid : ∀ f ∈ s.files, f.replace (rule f) = id f := by
    intro f hf
    rw [h f hf, SourceFile.replace_self, id]
  rw [List.map_congr_left hid, List.map_id]

/-- A store has one file at a path. -/
theorem eq_of_path {f g : SourceFile} (hf : f ∈ s.files) (hg : g ∈ s.files)
    (hpath : f.path = g.path) : f = g := by
  have hdiff : s.files.Pairwise fun f g => f.path ≠ g.path := by
    refine s.ordered.imp fun {f g} hlt heq => ?_
    have hself : g.path.compare g.path = .eq := Std.ReflCmp.compare_self
    rw [heq, hself] at hlt
    cases hlt
  exact List.inj_on_of_nodup_map (List.pairwise_map.mpr hdiff) hf hg hpath

/-- A dirty file after an edit holds what the rule made of it. -/
theorem exists_of_mem_dirtyFiles_edit {g : SourceFile} (hg : g ∈ (s.edit rule).dirtyFiles) :
    ∃ f ∈ s.files, g.path = f.path ∧ g.content = rule f := by
  obtain ⟨hmem, -⟩ := List.mem_filter.mp hg
  obtain ⟨f, hf, rfl⟩ := List.mem_map.mp hmem
  exact ⟨f, hf, SourceFile.path_replace .., SourceFile.content_replace ..⟩

/-- An edit makes every file dirty that it changes. -/
theorem mem_dirtyFiles_edit {f : SourceFile} (hf : f ∈ s.files) (hne : rule f ≠ f.content) :
    f.replace (rule f) ∈ (s.edit rule).dirtyFiles :=
  List.mem_filter.mpr ⟨List.mem_map_of_mem hf, SourceFile.dirty_replace hne⟩

/-- Of a store without dirty files, an edit makes those dirty that it changes. -/
theorem dirtyFiles_edit (hclean : ∀ f ∈ s.files, f.dirty = false) :
    (s.edit rule).dirtyFiles
      = (s.files.filter fun f => rule f ≠ f.content).map fun f => f.replace (rule f) := by
  rw [dirtyFiles, files_edit, List.filter_map]
  refine congrArg (List.map _) (List.filter_congr fun f hf => ?_)
  by_cases hsame : rule f = f.content
  · simp [hsame, SourceFile.replace_self, hclean f hf]
  · simp [hsame, SourceFile.dirty_replace hsame]

/-! ## Edits that only add -/

/-- Two edits in a row are one, if neither takes a byte away: the second brings nothing back that
    the first one changed. -/
theorem edit_edit (h : ∀ f ∈ s.files, f.content.Sublist (rule f))
    (h' : ∀ f ∈ s.files, (rule f).Sublist (rule' (f.replace (rule f)))) :
    (s.edit rule).edit rule' = s.edit fun f => rule' (f.replace (rule f)) := by
  apply eq_of_files
  rw [files_edit, files_edit, files_edit, List.map_map]
  refine List.map_congr_left fun f hf => SourceFile.replace_replace fun hback => ?_
  have hlonger := h' f hf
  rw [hback] at hlonger
  exact hlonger.antisymm (h f hf)

/-- A store after edits that took no byte away. -/
def Grown (s t : Store) : Prop :=
  ∃ rule, (∀ f ∈ s.files, f.content.Sublist (rule f)) ∧ t = s.edit rule

theorem grown_refl (s : Store) : s.Grown s :=
  ⟨SourceFile.content, fun _ _ => List.Sublist.refl _, (edit_eq_self fun _ _ => rfl).symm⟩

theorem Grown.edit (h : s.Grown t) (hadds : ∀ f ∈ t.files, f.content.Sublist (rule f)) :
    s.Grown (t.edit rule) := by
  obtain ⟨first, hfirst, rfl⟩ := h
  have hsecond : ∀ f ∈ s.files, (first f).Sublist (rule (f.replace (first f))) := by
    intro f hf
    have hadded := hadds (f.replace (first f)) (List.mem_map_of_mem hf)
    rw [SourceFile.content_replace] at hadded
    exact hadded
  exact ⟨fun f => rule (f.replace (first f)), fun f hf => (hfirst f hf).trans (hsecond f hf),
    edit_edit hfirst hsecond⟩

/-- Of a store without dirty files, those that are dirty after such edits hold something else. -/
theorem Grown.exists_of_mem_dirtyFiles (h : s.Grown t)
    (hclean : ∀ f ∈ s.files, f.dirty = false) {g : SourceFile} (hg : g ∈ t.dirtyFiles) :
    ∃ f ∈ s.files, g.path = f.path ∧ g.content ≠ f.content := by
  obtain ⟨rule, -, rfl⟩ := h
  obtain ⟨hmem, hdirty⟩ := List.mem_filter.mp hg
  obtain ⟨f, hf, rfl⟩ := List.mem_map.mp hmem
  refine ⟨f, hf, SourceFile.path_replace .., fun heq => ?_⟩
  rw [SourceFile.content_replace] at heq
  rw [heq, SourceFile.replace_self, hclean f hf] at hdirty
  cases hdirty

/-! ## Stores of listed files -/

/-- Insertion looks at paths only. -/
theorem insertFile_map {change : SourceFile → SourceFile} (hpath : ∀ f, (change f).path = f.path)
    (f : SourceFile) (files : List SourceFile) :
    insertFile (change f) (files.map change) = (insertFile f files).map change := by
  induction files with
  | nil => rfl
  | cons g rest ih =>
    rw [List.map_cons, insertFile, insertFile, hpath, hpath]
    cases f.path.compare g.path with
    | lt => rfl
    | eq => rfl
    | gt => simp [ih]

theorem files_foldl_insert_map {change : SourceFile → SourceFile}
    (hpath : ∀ f, (change f).path = f.path) (files : List SourceFile)
    (h : t.files = s.files.map change) :
    ((files.map change).foldl insert t).files = (files.foldl insert s).files.map change := by
  induction files generalizing s t with
  | nil => exact h
  | cons f rest ih =>
    rw [List.map_cons, List.foldl_cons, List.foldl_cons]
    apply ih
    show insertFile (change f) t.files = (insertFile f s.files).map change
    rw [h, insertFile_map hpath]

/-- To change contents first is to change them in the store. -/
theorem files_ofFiles_map {change : SourceFile → SourceFile} (hpath : ∀ f, (change f).path = f.path)
    (files : List SourceFile) :
    (ofFiles (files.map change)).files = (ofFiles files).files.map change :=
  files_foldl_insert_map hpath files rfl

/-- A file behind all others comes last. -/
theorem insertFile_eq_append {f : SourceFile} {files : List SourceFile}
    (h : ∀ g ∈ files, g.path.compare f.path = .lt) : insertFile f files = files ++ [f] := by
  induction files with
  | nil => rfl
  | cons g rest ih =>
    have hbehind : f.path.compare g.path = .gt :=
      Std.OrientedCmp.gt_of_lt (h g (List.mem_cons_self ..))
    rw [insertFile, hbehind]
    exact congrArg (g :: ·) (ih fun k hk => h k (List.mem_cons_of_mem _ hk))

theorem files_foldl_insert {files : List SourceFile} (h : PathOrdered (s.files ++ files)) :
    (files.foldl insert s).files = s.files ++ files := by
  induction files generalizing s with
  | nil => exact (List.append_nil _).symm
  | cons f rest ih =>
    have hbefore : ∀ g ∈ s.files, g.path.compare f.path = .lt := fun g hg =>
      (List.pairwise_append.mp h).2.2 g hg f (List.mem_cons_self ..)
    have hinsert : (s.insert f).files = s.files ++ [f] := insertFile_eq_append hbefore
    rw [List.foldl_cons, ih, hinsert, List.append_assoc]
    · rfl
    · rw [hinsert, List.append_assoc]
      exact h

/-- Files that stand in order already are kept as they are. -/
theorem files_ofFiles {files : List SourceFile} (h : PathOrdered files) :
    (ofFiles files).files = files :=
  files_foldl_insert h

theorem mem_of_mem_foldl_insert {files : List SourceFile} {f : SourceFile}
    (h : f ∈ (files.foldl insert s).files) : f ∈ files ∨ f ∈ s.files := by
  induction files generalizing s with
  | nil => exact .inr h
  | cons g rest ih =>
    rcases ih h with hrest | hinserted
    · exact .inl (List.mem_cons_of_mem _ hrest)
    · rcases eq_or_mem_of_mem_insertFile hinserted with rfl | hold
      · exact .inl (List.mem_cons_self ..)
      · exact .inr hold

theorem mem_of_mem_ofFiles {files : List SourceFile} {f : SourceFile}
    (h : f ∈ (ofFiles files).files) : f ∈ files := by
  rcases mem_of_mem_foldl_insert h with hfiles | hempty
  · exact hfiles
  · cases hempty

theorem exists_mem_insertFile (f : SourceFile) (files : List SourceFile) :
    f ∈ insertFile f files ∧
      ∀ g ∈ files, ∃ k ∈ insertFile f files, k.path.compare g.path = .eq := by
  induction files with
  | nil => exact ⟨List.mem_cons_self .., nofun⟩
  | cons g rest ih =>
    have hself : ∀ k ∈ g :: rest, k.path.compare k.path = .eq := fun k _ => Std.ReflCmp.compare_self
    -- the file goes in front, takes the place of one at the same path, or goes further back
    rw [insertFile]
    split
    · exact ⟨List.mem_cons_self .., fun k hk => ⟨k, List.mem_cons_of_mem _ hk, hself k hk⟩⟩
    · rename_i heq
      refine ⟨List.mem_cons_self .., fun k hk => ?_⟩
      rcases List.mem_cons.mp hk with rfl | hrest
      · exact ⟨f, List.mem_cons_self .., heq⟩
      · exact ⟨k, List.mem_cons_of_mem _ hrest, hself k hk⟩
    · refine ⟨List.mem_cons_of_mem _ ih.1, fun k hk => ?_⟩
      rcases List.mem_cons.mp hk with rfl | hrest
      · exact ⟨k, List.mem_cons_self .., hself k hk⟩
      · obtain ⟨other, hother, heq⟩ := ih.2 k hrest
        exact ⟨other, List.mem_cons_of_mem _ hother, heq⟩

theorem exists_mem_foldl_insert {files : List SourceFile} {f : SourceFile}
    (h : f ∈ files ∨ ∃ g ∈ s.files, g.path.compare f.path = .eq) :
    ∃ g ∈ (files.foldl insert s).files, g.path.compare f.path = .eq := by
  induction files generalizing s with
  | nil => exact h.resolve_left List.not_mem_nil
  | cons file rest ih =>
    have hinsert := exists_mem_insertFile file s.files
    rw [List.foldl_cons]
    apply ih
    rcases h with hmem | ⟨g, hg, heq⟩
    · rcases List.mem_cons.mp hmem with rfl | hrest
      · exact .inr ⟨f, hinsert.1, Std.ReflCmp.compare_self⟩
      · exact .inl hrest
    · obtain ⟨k, hk, hsame⟩ := hinsert.2 g hg
      exact .inr ⟨k, hk, Std.TransCmp.eq_trans hsame heq⟩

/-- For every listed file the store has one at the same path. -/
theorem exists_mem_ofFiles {files : List SourceFile} {f : SourceFile} (h : f ∈ files) :
    ∃ g ∈ (ofFiles files).files, g.path.compare f.path = .eq :=
  exists_mem_foldl_insert (.inl h)

/-! ## Taking files to be saved -/

theorem map_copy_settleFiles (count : Nat) (files : List SourceFile) :
    (settleFiles count files).map SourceFile.copy = files.map SourceFile.copy := by
  fun_induction settleFiles count files <;> simp_all [SourceFile.copy]

/-- No content changes. -/
theorem map_copy_settle (s : Store) (count : Nat) :
    (s.settle count).files.map SourceFile.copy = s.files.map SourceFile.copy :=
  map_copy_settleFiles count s.files

theorem map_path_settle (s : Store) (count : Nat) :
    (s.settle count).files.map (·.path) = s.files.map (·.path) :=
  map_path_settleFiles count s.files

@[simp] theorem settle_zero (s : Store) : s.settle 0 = s := by
  apply eq_of_files
  show settleFiles 0 s.files = s.files
  cases s.files <;> rfl

theorem filter_dirty_settleFiles (count : Nat) (files : List SourceFile) :
    (settleFiles count files).filter (·.dirty) = (files.filter (·.dirty)).drop count := by
  fun_induction settleFiles count files <;> simp_all

/-- The first dirty files are dirty no longer, and the others still are. -/
theorem dirtyFiles_settle (s : Store) (count : Nat) :
    (s.settle count).dirtyFiles = s.dirtyFiles.drop count :=
  filter_dirty_settleFiles count s.files

theorem exists_of_mem_settleFiles {count : Nat} {files : List SourceFile} {f : SourceFile}
    (h : f ∈ settleFiles count files) (hclean : f.dirty = false) :
    ∃ g ∈ files, g.copy = f.copy ∧
      (g.dirty = false ∨ g ∈ (files.filter (·.dirty)).take count) := by
  fun_induction settleFiles count files with
  | case1 => cases h
  | case2 files => exact ⟨f, h, rfl, .inl hclean⟩
  | case3 count g rest hdirty ih =>
    rcases List.mem_cons.mp h with rfl | hrest
    · refine ⟨g, List.mem_cons_self .., rfl, .inr ?_⟩
      rw [List.filter_cons_of_pos hdirty, List.take_succ_cons]
      exact List.mem_cons_self ..
    · obtain ⟨k, hk, hcopy, hkind⟩ := ih hrest
      refine ⟨k, List.mem_cons_of_mem _ hk, hcopy, hkind.imp_right fun htaken => ?_⟩
      rw [List.filter_cons_of_pos hdirty, List.take_succ_cons]
      exact List.mem_cons_of_mem _ htaken
  | case4 count g rest hnot ih =>
    rcases List.mem_cons.mp h with rfl | hrest
    · exact ⟨f, List.mem_cons_self .., rfl, .inl hclean⟩
    · obtain ⟨k, hk, hcopy, hkind⟩ := ih hrest
      refine ⟨k, List.mem_cons_of_mem _ hk, hcopy, hkind.imp_right fun htaken => ?_⟩
      rw [List.filter_cons_of_neg hnot]
      exact htaken

/-- A file that is not dirty afterwards was not dirty before, or is one of those taken. -/
theorem exists_of_mem_settle {count : Nat} {f : SourceFile} (h : f ∈ (s.settle count).files)
    (hclean : f.dirty = false) :
    ∃ g ∈ s.files, g.copy = f.copy ∧ (g.dirty = false ∨ g ∈ s.dirtyFiles.take count) :=
  exists_of_mem_settleFiles h hclean

end Store

end Lineage
