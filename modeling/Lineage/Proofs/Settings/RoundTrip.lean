import Lineage.Proofs.Yaml.Reading
import Lineage.Settings.Loading

/-!
# Writing and loading settings

Settings that are written and loaded again are checked like those that were never written: loading
gives them back if they pass, and else the first fault. The values of the fields do not matter. A
text is never taken for anything else, and a header that is switched off stays so.

## Main statements

- `Yaml.natural?_repr`: a number reads as itself
- `Yaml.Document.field?_of_mem`: a field is read from the member with its name
- `VersionedSettings.ofDocument?_members`: the sections of what was written
- `Settings.ofYaml_toYaml`: writing and loading
-/

namespace Lineage

namespace Yaml

/-! ## Numbers -/

theorem isDigit_of_mem_repr {n : Nat} {x : Char} (hx : x ∈ (Nat.repr n).toList) :
    x.isDigit = true := by
  rw [Nat.repr_eq_ofList_toDigits, String.toList_ofList] at hx
  exact Nat.isDigit_of_mem_toDigits (by decide) (by decide) hx

theorem ne_of_mem_repr {n : Nat} {x d : Char} (hx : x ∈ (Nat.repr n).toList)
    (hd : d.isDigit = false) : x ≠ d := by
  intro heq
  rw [← heq, isDigit_of_mem_repr hx] at hd
  cases hd

theorem hasLeadingZero_repr (n : Nat) : hasLeadingZero (Nat.repr n).toList = false := by
  have hhead : (Nat.repr n).toList.head? = some '0' → n = 0 := by
    rw [Nat.repr_eq_ofList_toDigits, String.toList_ofList]
    exact eq_zero_of_head?_toDigits
  have hne {x d : Char} (hx : x ∈ (Nat.repr n).toList) (hd : d.isDigit = false) : x ≠ d :=
    ne_of_mem_repr hx hd
  unfold hasLeadingZero
  cases hcs : (Nat.repr n).toList with
  | nil => rfl
  | cons x rest =>
    rw [hcs] at hne hhead
    have hplus : x ≠ '+' := hne (List.mem_cons_self ..) (by decide)
    have hminus : x ≠ '-' := hne (List.mem_cons_self ..) (by decide)
    by_cases hzero : x = '0'
    · -- only zero starts so, and nothing follows it
      obtain rfl : n = 0 := hhead (by rw [hzero]; rfl)
      obtain ⟨-, rfl⟩ := List.cons.inj (show '0' :: [] = x :: rest from hcs)
      simp [hzero]
    · simp [hplus, hminus, hzero]

theorem digits?_repr (n : Nat) : digits? 10 (Nat.repr n).toList = some n := by
  have hdigits := digits?_map_toDigits id (by decide) digit?_digitChar_of_lt_ten n
  rw [List.map_id] at hdigits
  rw [Nat.repr_eq_ofList_toDigits, String.toList_ofList, hdigits]

theorem magnitude?_repr (n : Nat) : magnitude? (Nat.repr n).toList = some n := by
  -- the second character of a number is no mark of another base
  have hmark (d : Char) (hd : d.isDigit = false) (rest : List Char) :
      (Nat.repr n).toList ≠ '0' :: d :: rest := by
    intro heq
    exact ne_of_mem_repr (n := n) (x := d) (by rw [heq]; simp) hd rfl
  rw [← digits?_repr n]
  unfold magnitude?
  split
  · rename_i heq
    exact absurd heq (hmark 'x' (by decide) _)
  · rename_i heq
    exact absurd heq (hmark 'o' (by decide) _)
  · rename_i heq
    exact absurd heq (hmark 'b' (by decide) _)
  · rfl

/-- A number reads as itself. -/
theorem natural?_repr {bound n : Nat} (h : n < bound) : natural? bound (Nat.repr n) = some n := by
  simp only [natural?, hasLeadingZero_repr, Bool.false_eq_true, if_false]
  split
  · rename_i heq
    exact absurd rfl (ne_of_mem_repr (n := n) (x := '+') (by rw [heq]; simp) (by decide))
  · rw [magnitude?_repr]
    simp [h]

/-- No number is taken for nothing. -/
theorem repr_ne_null (n : Nat) : ¬(Nat.repr n = "" ∨ isNull (Nat.repr n) = true) := by
  intro h
  have hnatural := natural?_repr (Nat.lt_succ_self n)
  have hnone : natural? (n + 1) (Nat.repr n) = none := by
    simp only [isNull, Bool.or_eq_true, decide_eq_true_eq] at h
    rcases h with h | ((h | h) | h) | h <;> rw [h] <;> rfl
  rw [hnone] at hnatural
  cases hnatural

/-! ## Values -/

theorem ne_null_of_readsAsText {s : String} (h : readsAsText s = true) :
    s ≠ "" ∧ isNull s = false := by
  simp only [readsAsText, Bool.not_eq_true', Bool.or_eq_false_iff, decide_eq_false_iff_not] at h
  exact ⟨h.1.1.1.1.1, h.1.1.1.1.2⟩

theorem mapM_map_eq_some {α β : Type} {f : α → β} {g : β → Option α} (h : ∀ x, g (f x) = some x)
    (l : List α) : (l.map f).mapM g = some l := by
  induction l with
  | nil => rfl
  | cons x l ih => simp [h, ih]

namespace Document

variable {α : Type} {d : Document} {name : String} {read : Linked → Option α}

theorem natural?_node {bound n : Nat} (h : n < bound) :
    d.natural? bound (Value.scalar (.nat n)).node = some n := by
  have hopen : d.open? "int" (Value.scalar (.nat n)).node = some (Nat.repr n) :=
    congrArg some (String.ofList_toList ..)
  rw [natural?, hopen, Option.bind_some, natural?_repr h]

theorem bool?_node (b : Bool) : d.bool? (Value.scalar (.bool b)).node = some b := by
  cases b with
  | false => rfl
  | true => rfl

theorem text?_node (s : String) : d.text? (Value.scalar (.text s)).node = some s :=
  congrArg some (String.ofList_toList ..)

theorem texts?_node (texts : List String) :
    d.texts? (Value.list (texts.map .text)).node = some texts := by
  have hitems : (texts.map Scalar.text).map Scalar.node
      = texts.map fun s => ((Value.scalar (.text s)).node : Linked) := List.map_map
  have htexts := mapM_map_eq_some (fun s => text?_node (d := d) s) texts
  rw [← hitems] at htexts
  exact htexts

theorem optional?_scalar {style : Style} {s : String}
    (h : style = .plain → s ≠ "" ∧ isNull s = false) :
    d.optional? d.text? (.scalar none none style s) = some (some s) := by
  cases style with
  | plain =>
    have ⟨hne, hnull⟩ := h rfl
    have hword : ¬(s = "" ∨ isNull s = true) := by simp [hne, hnull]
    exact if_neg hword
  | quoted => rfl
  | literal => rfl
  | folded => rfl

/-- A header is read as it is, and one that is missing as missing. -/
theorem optional?_text (text : Option String) :
    d.optional? d.text? (Value.scalar (text.elim .null .text)).node = some text := by
  cases text with
  | none => rfl
  | some s =>
    -- a text that would read as nothing is not written plain
    have hplain : (TextForm.of s).style = .plain → s ≠ "" ∧ isNull s = false := by
      intro hstyle
      have hspec := TextForm.of_spec s
      cases hform : TextForm.of s with
      | plain =>
        rw [hform] at hspec
        exact ne_null_of_readsAsText hspec.1
      | single => rw [hform] at hstyle; cases hstyle
      | double => rw [hform] at hstyle; cases hstyle
      | block => rw [hform] at hstyle; cases hstyle
    have hnode : (Value.scalar (.text s)).node
        = (.scalar none none (TextForm.of s).style s : Linked) :=
      congrArg (Node.scalar none none _) (String.ofList_toList ..)
    rw [Option.elim, hnode, optional?_scalar hplain]

theorem optional?_map (members : List (String × Value)) :
    d.optional? read (Value.map members).node = (read (Value.map members).node).map some := rfl

theorem optional?_nat (n : Nat) :
    d.optional? read (Value.scalar (.nat n)).node
      = (read (Value.scalar (.nat n)).node).map some := by
  have hnode : (Value.scalar (.nat n)).node = (.scalar none none .plain (Nat.repr n) : Linked) :=
    congrArg (Node.scalar none none .plain) (String.ofList_toList ..)
  rw [hnode]
  exact if_neg (repr_ne_null n)

/-! ## Members -/

/-- Members by their names. -/
def named (members : List (String × Value)) : List (String × Linked) :=
  members.map fun m => (m.1, m.2.node)

theorem members?_node (members : List (String × Value)) :
    d.members? (Value.map members).node = some (named members) := by
  have hmembers : (memberNodes members).mapM (fun m => (d.text? m.1).map (·, m.2))
      = some (named members) := by
    induction members with
    | nil => rfl
    | cons m members ih =>
      have hkey : d.text? (.scalar none none .plain m.1) = some m.1 := rfl
      simp only [memberNodes, List.mapM_cons, hkey, ih]
      rfl
  exact hmembers

/-- The only member with its name. -/
theorem filter_named {members : List (String × Value)} {v : Value}
    (hnodup : (members.map (·.1)).Nodup) (hmem : (name, v) ∈ members) :
    (named members).filter (·.1 = name) = [(name, v.node)] := by
  induction members with
  | nil => cases hmem
  | cons m members ih =>
    rw [List.map_cons, List.nodup_cons] at hnodup
    rw [named, List.map_cons]
    cases hmem with
    | head =>
      have hrest : (named members).filter (·.1 = name) = [] := by
        rw [List.filter_eq_nil_iff]
        intro m hm hname
        obtain ⟨other, hother, rfl⟩ := List.mem_map.mp hm
        rw [← of_decide_eq_true hname] at hnodup
        exact hnodup.1 (List.mem_map_of_mem (f := (·.1)) hother)
      rw [List.filter_cons_of_pos (by simp)]
      exact congrArg _ hrest
    | tail _ hmem =>
      have hne : m.1 ≠ name := fun heq => hnodup.1 (heq ▸ List.mem_map_of_mem hmem)
      rw [List.filter_cons_of_neg (by simpa using hne)]
      exact ih hnodup.2 hmem

/-- A field is read from the member with its name. -/
theorem field?_of_mem {members : List (String × Value)} {v : Value}
    (hnodup : (members.map (·.1)).Nodup) (hmem : (name, v) ∈ members) (standard : α) :
    field? (named members) name read standard = read v.node := by
  have hmember : member? (named members) name = some (some v.node) := by
    rw [member?, filter_named hnodup hmem]
  rw [field?, hmember]
  rfl

end Document

end Yaml

open Yaml
open Yaml.Document

/-! ## Sections -/

section Sections

variable {d : Document}

theorem ScanSettings.ofNode?_members {s : ScanSettings} (h : s.workers < fieldBound) :
    ScanSettings.ofNode? d (Value.map s.members).node = some s := by
  have hnodup : (s.members.map (·.1)).Nodup := by simp [members]
  have hworkers : ("workers", .scalar (.nat s.workers)) ∈ s.members := by simp [members]
  have hmarkup : ("markup_extension", .scalar (.text s.markupExtension)) ∈ s.members := by
    simp [members]
  have hsource : ("source_extension", .scalar (.text s.sourceExtension)) ∈ s.members := by
    simp [members]
  have htags : ("frame_tags", .list (s.frameTags.map .text)) ∈ s.members := by simp [members]
  have hstrict : ("strict_markup", .scalar (.bool s.strictMarkup)) ∈ s.members := by
    simp [members]
  simp only [ofNode?, members?_node, Option.bind_eq_bind, Option.bind_some,
    field?_of_mem hnodup hworkers, field?_of_mem hnodup hmarkup, field?_of_mem hnodup hsource,
    field?_of_mem hnodup htags, field?_of_mem hnodup hstrict, natural?_node h, text?_node,
    texts?_node, bool?_node]
  rfl

theorem HierarchySettings.ofNode?_members (s : HierarchySettings) :
    HierarchySettings.ofNode? d (Value.map s.members).node = some s := by
  have hnodup : (s.members.map (·.1)).Nodup := by simp [members]
  have hparent : ("frame_parent", .scalar (.text s.frameParent)) ∈ s.members := by simp [members]
  simp only [ofNode?, members?_node, Option.bind_eq_bind, Option.bind_some,
    field?_of_mem hnodup hparent, text?_node]
  rfl

theorem SiteSettings.ofNode?_members {s : SiteSettings} (h : s.maxPasses < fieldBound) :
    SiteSettings.ofNode? d (Value.map s.members).node = some s := by
  have hnodup : (s.members.map (·.1)).Nodup := by simp [members]
  have hpasses : ("max_passes", .scalar (.nat s.maxPasses)) ∈ s.members := by simp [members]
  have hcompose : ("compose_function", .scalar (.text s.composeFunction)) ∈ s.members := by
    simp [members]
  have hmarker : ("annotation_marker", .scalar (.text s.annotationMarker)) ∈ s.members := by
    simp [members]
  have hheader : ("meta_header", .scalar (s.metaHeader.elim .null .text)) ∈ s.members := by
    simp [members]
  simp only [ofNode?, members?_node, Option.bind_eq_bind, Option.bind_some,
    field?_of_mem hnodup hpasses, field?_of_mem hnodup hcompose, field?_of_mem hnodup hmarker,
    field?_of_mem hnodup hheader, natural?_node h, text?_node, optional?_text]
  rfl

theorem EmitSettings.ofNode?_members (s : EmitSettings) :
    EmitSettings.ofNode? d (Value.map s.members).node = some s := by
  have hnodup : (s.members.map (·.1)).Nodup := by simp [members]
  have hsigil : ("synthetic_sigil", .scalar (.text s.syntheticSigil)) ∈ s.members := by
    simp [members]
  have hpath : ("generated_path", .scalar (.text s.generatedPath)) ∈ s.members := by
    simp [members]
  simp only [ofNode?, members?_node, Option.bind_eq_bind, Option.bind_some,
    field?_of_mem hnodup hsigil, field?_of_mem hnodup hpath, text?_node]
  rfl

end Sections

/-! ## Whole settings -/

/-- A section is read from the member with its name. -/
theorem field?_optional?_of_mem {α : Type} {d : Document} {s : Settings} {name : String}
    {read : Linked → Option α} {members : List (String × Value)} {a : α}
    (hmem : (name, .map members) ∈ s.members) (hread : read (Value.map members).node = some a) :
    field? (named s.members) name (d.optional? read) none = some (some a) := by
  have hnodup : (s.members.map (·.1)).Nodup := by simp [Settings.members]
  rw [field?_of_mem hnodup hmem, optional?_map, hread]
  rfl

/-- The settings that were written, with their version. -/
theorem VersionedSettings.ofDocument?_members {s : Settings} {targets : Targets}
    (hworkers : s.scan.workers < fieldBound) (hpasses : s.sites.maxPasses < fieldBound) :
    VersionedSettings.ofDocument? ⟨some (Value.map s.members).node, targets⟩
      = some ⟨some settingsVersion, s⟩ := by
  have hnodup : (s.members.map (·.1)).Nodup := by simp [Settings.members]
  have hversion : ("version", .scalar (.nat settingsVersion)) ∈ s.members := by
    simp [Settings.members]
  have hscan : ("scan", .map s.scan.members) ∈ s.members := by simp [Settings.members]
  have hhierarchy : ("hierarchy", .map s.hierarchy.members) ∈ s.members := by
    simp [Settings.members]
  have hsites : ("rewrite", .map s.sites.members) ∈ s.members := by simp [Settings.members]
  have hemit : ("emit", .map s.emit.members) ∈ s.members := by simp [Settings.members]
  have hnames : (named s.members).all (sectionNames.contains ·.1) = true := by
    simp [named, Settings.members, sectionNames]
  have hbound : settingsVersion < versionBound := by decide
  simp only [ofDocument?, ofMembers?, members?_node, Option.bind_eq_bind, Option.bind_some, hnames,
    if_true, field?_of_mem hnodup hversion, optional?_nat, natural?_node hbound, Option.map_some,
    field?_optional?_of_mem hscan (ScanSettings.ofNode?_members hworkers),
    field?_optional?_of_mem hhierarchy (HierarchySettings.ofNode?_members _),
    field?_optional?_of_mem hsites (SiteSettings.ofNode?_members hpasses),
    field?_optional?_of_mem hemit (EmitSettings.ofNode?_members _), Option.getD_some]
  rfl

namespace Settings

theorem validate_of_check_eq_ok {s : Settings} (h : s.check = .ok ()) :
    ∃ v, s.validate = .ok v ∧ v.toSettings = s := by
  refine ⟨⟨s, h⟩, ?_, rfl⟩
  unfold validate
  split
  · rfl
  · rename_i e he
    rw [h] at he
    cases he

theorem validate_of_check_eq_error {s : Settings} {e : SettingsError} (h : s.check = .error e) :
    s.validate = .error e := by
  unfold validate
  split
  · rename_i hok
    rw [h] at hok
    cases hok
  · rename_i e' he
    rw [h] at he
    cases he
    rfl

theorem membersHaveKeys_members (s : Settings) : membersHaveKeys s.members = true := rfl

/-- Writing settings and loading them is the same as checking them: settings that pass come back,
    and the fault of others is the one that is found without a file. The numbers are those that
    their fields hold; nothing is asked of the texts. -/
theorem ofYaml_toYaml {s : Settings} (hworkers : s.scan.workers < fieldBound)
    (hpasses : s.sites.maxPasses < fieldBound) :
    ofYaml s.toYaml = s.validate ∧
      (s.check = .ok () → ∃ v, ofYaml s.toYaml = .ok v ∧ v.toSettings = s) ∧
      ∀ e, s.check = .error e → ofYaml s.toYaml = .error e := by
  have hparse : Document.parse? s.toYaml = some ⟨some (Value.map s.members).node, []⟩ :=
    Document.parse?_render (List.cons_ne_nil _ _) s.membersHaveKeys_members
  have hload : ofYaml s.toYaml = s.validate := by
    simp only [ofYaml, hparse, Option.bind_some,
      VersionedSettings.ofDocument?_members hworkers hpasses, VersionedSettings.validate, if_true]
  refine ⟨hload, ?_, ?_⟩
  · intro hcheck
    rw [hload]
    exact validate_of_check_eq_ok hcheck
  · intro e hcheck
    rw [hload]
    exact validate_of_check_eq_error hcheck

/-- Texts that would read as something else, or with quotes, breaks and spaces at their ends, and a
    header that is switched off. -/
def misleading : Settings where
  scan := {
    workers := 512
    markupExtension := "null"
    sourceExtension := " 1\n\n  'two' "
    frameTags := ["true", "", "- a: #b", "0x1F", "\n"]
    strictMarkup := false }
  hierarchy := ⟨"\"\\\t"⟩
  sites := {
    maxPasses := 1
    composeFunction := "~"
    annotationMarker := "-.5e3"
    metaHeader := none }
  emit := ⟨"1_000 \n", " "⟩

theorem ofYaml_toYaml_misleading :
    misleading.scan.workers < fieldBound ∧ misleading.sites.maxPasses < fieldBound ∧
      (∃ v, ofYaml misleading.toYaml = .ok v ∧ v.toSettings = misleading) ∧
      ofYaml { misleading with sites.annotationMarker := "\n" }.toYaml
        = .error (.blank .annotationMarker) := by
  have hcheck : misleading.check = .ok () := by decide +kernel
  have hfault : { misleading with sites.annotationMarker := "\n" }.check
      = .error (.blank .annotationMarker) := by decide +kernel
  exact ⟨by decide, by decide, (ofYaml_toYaml (by decide) (by decide)).2.1 hcheck,
    (ofYaml_toYaml (by decide) (by decide)).2.2 _ hfault⟩

end Settings

end Lineage
