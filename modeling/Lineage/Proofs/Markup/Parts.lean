import Lineage.Markup.Reading
import Mathlib.Tactic

/-!
# Parts of markup

The end of a construct shows in the construct itself: whatever follows, the same bytes are used up.
So a content can be read in parts. A part leads from some open tags to others and lists elements;
every content is such a part, or such a part and a construct behind it that is at fault.

## Main definitions

- `Construct.effect?` is what a construct comes to inside some open tags
- `Reads` holds for a part of a content that is read without fault
- `Faulty` holds where a construct is at fault

## Main statements

- `exists_used_of_construct`: a construct is read whatever follows it
- `Reads.readFrom_append`: a part and what follows it
- `exists_reads`: a content is read up to its first fault
- `Faulty.of_append`: a construct that is cut short is still at fault
-/

namespace Lineage

namespace Markup

variable {bs used text after content rest : Bytes} {openTags openTags' : List Bytes}
  {elements elements' : List Element} {c : Construct}

/-! ## The end of a construct -/

theorem exists_used_of_splitAtClose {closes : Bytes → Bool} {read : Bytes}
    (h : splitAtClose closes read bs = some (content, rest)) :
    ∃ used, bs = used ++ rest ∧
      ∀ other, splitAtClose closes read (used ++ other) = some (content, other) := by
  induction bs generalizing read with
  | nil => cases h
  | cons b bs ih =>
    rw [splitAtClose] at h
    by_cases hclose : (b == 0x3E && closes read) = true
    · rw [if_pos hclose] at h
      cases h
      exact ⟨[b], rfl, fun other => if_pos hclose⟩
    · rw [if_neg hclose] at h
      obtain ⟨used, rfl, hused⟩ := ih h
      exact ⟨b :: used, rfl, fun other => (if_neg hclose).trans (hused other)⟩

theorem exists_used_of_splitBalanced {depth : Nat} {read : Bytes}
    (h : splitBalanced depth read bs = some (content, rest)) :
    ∃ used, bs = used ++ rest ∧
      ∀ other, splitBalanced depth read (used ++ other) = some (content, other) := by
  induction bs generalizing depth read with
  | nil => cases h
  | cons b bs ih =>
    unfold splitBalanced at h
    split at h
    case isTrue hopen =>
      obtain ⟨used, rfl, hused⟩ := ih h
      refine ⟨b :: used, rfl, fun other => ?_⟩
      simp only [List.cons_append, splitBalanced, hopen, if_true, hused]
    case isFalse hopen =>
      split at h
      case isTrue hclose =>
        split at h
        · cases h
          refine ⟨[b], rfl, fun other => ?_⟩
          simp only [List.cons_append, List.nil_append, splitBalanced, hopen, hclose, if_true]
          rfl
        · obtain ⟨used, rfl, hused⟩ := ih h
          refine ⟨b :: used, rfl, fun other => ?_⟩
          simp only [List.cons_append, splitBalanced, hopen, hclose, if_true, hused]
          rfl
      case isFalse hclose =>
        obtain ⟨used, rfl, hused⟩ := ih h
        refine ⟨b :: used, rfl, fun other => ?_⟩
        simp only [List.cons_append, splitBalanced, hopen, hclose, hused]
        rfl

theorem exists_used_of_splitUnquoted {quote : Option UInt8} {read : Bytes}
    (h : splitUnquoted quote read bs = some (content, rest)) :
    ∃ used, bs = used ++ rest ∧
      ∀ other, splitUnquoted quote read (used ++ other) = some (content, other) := by
  induction bs generalizing quote read with
  | nil => cases h
  | cons b bs ih =>
    cases quote with
    | some q =>
      obtain ⟨used, rfl, hused⟩ := ih h
      exact ⟨b :: used, rfl, hused⟩
    | none =>
      rw [splitUnquoted] at h
      by_cases hclose : (b == 0x3E) = true
      · rw [if_pos hclose] at h
        cases h
        exact ⟨[b], rfl, fun other => if_pos hclose⟩
      · rw [if_neg hclose] at h
        obtain ⟨used, rfl, hused⟩ := ih h
        exact ⟨b :: used, rfl, fun other => (if_neg hclose).trans (hused other)⟩

/-- The kind of an aside shows in the byte behind its mark, and that byte closes nothing. -/
theorem exists_used_of_aside? {kind : Aside}
    (h : aside? (0x21 :: after) = some (kind, some (content, rest))) :
    ∃ used, after = used ++ rest ∧
      ∀ other, aside? (0x21 :: (used ++ other)) = some (kind, some (content, other)) := by
  cases after with
  | nil => cases h
  | cons b tail =>
    unfold aside? at h
    split at h
    case h_5 => cases h
    all_goals
      rename_i heq
      cases heq
      obtain ⟨rfl, hsplit⟩ := Prod.mk.inj (Option.some.inj h)
    · change splitAtClose _ [0x5B, 0x21] _ = _ at hsplit
      obtain ⟨used, rfl, hused⟩ := exists_used_of_splitAtClose hsplit
      exact ⟨0x5B :: used, rfl, fun other => by rw [← hused other]; rfl⟩
    · change splitAtClose _ [0x2D, 0x21] _ = _ at hsplit
      obtain ⟨used, rfl, hused⟩ := exists_used_of_splitAtClose hsplit
      exact ⟨0x2D :: used, rfl, fun other => by rw [← hused other]; rfl⟩
    · change splitBalanced 0 [0x44, 0x21] _ = _ at hsplit
      obtain ⟨used, rfl, hused⟩ := exists_used_of_splitBalanced hsplit
      exact ⟨0x44 :: used, rfl, fun other => by rw [← hused other]; rfl⟩
    · change splitBalanced 0 [0x64, 0x21] _ = _ at hsplit
      obtain ⟨used, rfl, hused⟩ := exists_used_of_splitBalanced hsplit
      exact ⟨0x64 :: used, rfl, fun other => by rw [← hused other]; rfl⟩

/-- What stands between a bracket and the end of a tag. -/
theorem construct_tag {b : UInt8} (hmark : b ≠ 0x21) (hquestion : b ≠ 0x3F) (hslash : b ≠ 0x2F) :
    construct (b :: bs) =
      match splitUnquoted none [] (b :: bs) with
      | none => .error (.tagNotClosed, [])
      | some (content, rest) => .ok (tagOf content, rest) := by
  unfold construct
  split
  case h_5 => rfl
  all_goals simp_all

/-- A construct is read whatever follows it. -/
theorem exists_used_of_construct (h : construct bs = .ok (c, rest)) :
    ∃ used, bs = used ++ rest ∧ ∀ other, construct (used ++ other) = .ok (c, other) := by
  unfold construct at h
  split at h
  · cases h
  · -- an aside
    rename_i after
    split at h
    · cases h
    · cases h
    · rename_i kind content rest' haside
      obtain ⟨used, rfl, hused⟩ := exists_used_of_aside? haside
      refine ⟨0x21 :: used, ?_⟩
      split at h
      · cases h
      · rename_i hcheck
        cases h
        refine ⟨rfl, fun other => ?_⟩
        simp only [List.cons_append, construct, hused, hcheck]
  · -- an instruction
    rename_i after
    split at h
    · cases h
    · rename_i content rest' hsplit
      change splitAtClose _ [0x3F] after = _ at hsplit
      obtain ⟨used, rfl, hused⟩ := exists_used_of_splitAtClose hsplit
      refine ⟨0x3F :: used, ?_⟩
      split at h
      · cases h
      · rename_i hlength
        cases h
        refine ⟨rfl, fun other => ?_⟩
        have hagain : splitAtClose ([0x3F].isPrefixOf ·) [] (0x3F :: (used ++ other))
            = some (content, other) := hused other
        simp only [List.cons_append, construct, hagain, hlength, if_false]
  · -- an end tag
    rename_i after
    split at h
    · cases h
    · rename_i content rest' hsplit
      obtain ⟨used, rfl, hused⟩ := exists_used_of_splitUnquoted hsplit
      cases h
      refine ⟨0x2F :: used, rfl, fun other => ?_⟩
      simp only [List.cons_append, construct, hused]
  · -- any other tag, which takes up at least its closing bracket
    rename_i hmark hquestion hslash
    split at h
    · cases h
    · rename_i content rest' hsplit
      have hlt := length_lt_of_splitUnquoted hsplit
      obtain ⟨used, rfl, hused⟩ := exists_used_of_splitUnquoted hsplit
      cases h
      cases used with
      | nil => simp at hlt
      | cons b used =>
        refine ⟨b :: used, rfl, fun other => ?_⟩
        rw [List.cons_append, construct_tag, ← List.cons_append, hused]
        · rintro rfl
          exact hmark _ rfl
        · rintro rfl
          exact hquestion _ rfl
        · rintro rfl
          exact hslash _ rfl

/-! ## Parts -/

/-- What a construct comes to inside some open tags: the tags that are open behind it, and the
    element that starts with it. There is nothing if the construct is at fault. -/
def Construct.effect? (openTags : List Bytes) : Construct → Option (List Bytes × Option Element)
  | .aside => some (openTags, none)
  | .endTag name => (close openTags name).toOption.map (·, none)
  | .startTag content => (element content).toOption.map (tagName content :: openTags, some ·)
  | .emptyTag content => (element content).toOption.map (openTags, some ·)

/-- A part of a content that is read without fault, from some open tags to others. -/
inductive Reads : List Bytes → Bytes → List Element → List Bytes → Prop where
  | text {text : Bytes} (openTags : List Bytes) (plain : 0x3C ∉ text) :
    Reads openTags text [] openTags
  | construct {text used part : Bytes} {openTags openTags' openTags'' : List Bytes} {c : Construct}
      {e? : Option Element} {elements : List Element} (plain : 0x3C ∉ text)
      (reads : ∀ rest, construct (used ++ rest) = .ok (c, rest))
      (effect : c.effect? openTags = some (openTags', e?))
      (rest : Reads openTags' part elements openTags'') :
      Reads openTags (text ++ 0x3C :: (used ++ part)) (e?.toList ++ elements) openTags''

/-- A construct by itself is a part. -/
theorem reads_of_construct {e? : Option Element}
    (hreads : ∀ rest, construct (used ++ rest) = .ok (c, rest))
    (heffect : c.effect? openTags = some (openTags', e?)) :
    Reads openTags (0x3C :: used) e?.toList openTags' := by
  have hpart : Reads openTags ([] ++ 0x3C :: (used ++ [])) (e?.toList ++ []) openTags' :=
    .construct List.not_mem_nil hreads heffect (.text openTags' List.not_mem_nil)
  rw [List.append_nil, List.append_nil] at hpart
  exact hpart

/-- Parts that follow one another are a part. -/
theorem Reads.append {part others : Bytes} {openTags'' : List Bytes}
    (h : Reads openTags part elements openTags')
    (hothers : Reads openTags' others elements' openTags'') :
    Reads openTags (part ++ others) (elements ++ elements') openTags'' := by
  induction h with
  | @text text openTags plain =>
    -- the text joins the text at the start of what follows
    cases hothers with
    | @text text' _ plain' =>
      exact .text _ fun hmem => (List.mem_append.mp hmem).elim plain plain'
    | @construct text' used part _ _ _ _ _ _ plain' reads effect rest =>
      rw [← List.append_assoc]
      exact .construct (fun hmem => (List.mem_append.mp hmem).elim plain plain') reads effect rest
  | construct plain reads effect rest ih =>
    rw [List.append_assoc, List.cons_append, List.append_assoc, List.append_assoc]
    exact .construct plain reads effect (ih hothers)

/-- What stands behind a bracket is no construct, or one that is at fault inside the open tags. -/
def Faulty (openTags : List Bytes) (after : Bytes) : Prop :=
  ∀ c rest, construct after = .ok (c, rest) → c.effect? openTags = none

/-- A construct that is cut short is still at fault. -/
theorem Faulty.of_append {cut : Bytes} (h : Faulty openTags (after ++ cut)) :
    Faulty openTags after := by
  intro c rest hc
  obtain ⟨used, rfl, hused⟩ := exists_used_of_construct hc
  apply h c (rest ++ cut)
  rw [List.append_assoc, hused]

/-! ## Reading in parts -/

variable {length : Nat}

/-- Reading step by step, without the facts that make it come to an end. -/
theorem readFrom_eq :
    readFrom length openTags bs =
      match bs.dropWhile (· != 0x3C) with
      | [] => ⟨[], none⟩
      | _ :: after =>
        match construct after with
        | .error (fault, rest) => ⟨[], some (.syntaxAt fault (length - rest.length))⟩
        | .ok (.aside, rest) => readFrom length openTags rest
        | .ok (.endTag name, rest) =>
          match close openTags name with
          | .ok outer => readFrom length outer rest
          | .error fault => ⟨[], some (.syntaxAt fault (length - rest.length))⟩
        | .ok (.startTag content, rest) =>
          match element content with
          | .ok e => (readFrom length (tagName content :: openTags) rest).cons e
          | .error fault => ⟨[], some (.inAttribute fault)⟩
        | .ok (.emptyTag content, rest) =>
          match element content with
          | .ok e => (readFrom length openTags rest).cons e
          | .error fault => ⟨[], some (.inAttribute fault)⟩ := by
  conv_lhs => rw [readFrom]
  split <;> rename_i hdrop <;> simp only [hdrop]
  split <;> rename_i hc <;> exact hc ▸ rfl

@[simp] theorem readFrom_nil : readFrom length openTags [] = ⟨[], none⟩ := readFrom_eq

/-- Text in front of a bracket is passed over. -/
theorem readFrom_text_append (h : 0x3C ∉ text) :
    readFrom length openTags (text ++ bs) = readFrom length openTags bs := by
  have hdrop : (text ++ bs).dropWhile (· != 0x3C) = bs.dropWhile (· != 0x3C) := by
    apply List.dropWhile_append_of_pos
    intro b hb
    simpa using ne_of_mem_of_not_mem hb h
  rw [readFrom_eq, hdrop, ← readFrom_eq]

/-- Reading goes on behind a construct that is not at fault. -/
theorem readFrom_of_effect {e? : Option Element} (hc : construct after = .ok (c, rest))
    (he : c.effect? openTags = some (openTags', e?)) :
    readFrom length openTags (0x3C :: after)
      = e?.toList.foldr Reading.cons (readFrom length openTags' rest) := by
  have hdrop : (0x3C :: after).dropWhile (· != 0x3C) = 0x3C :: after := rfl
  rw [readFrom_eq, hdrop]
  cases c with
  | aside =>
    simp only [hc]
    cases he
    rfl
  | endTag name =>
    simp only [hc]
    cases hclose : close openTags name with
    | error fault =>
      rw [Construct.effect?, hclose] at he
      cases he
    | ok outer =>
      rw [Construct.effect?, hclose] at he
      cases he
      rfl
  | startTag content | emptyTag content =>
    simp only [hc]
    cases helement : element content with
    | error fault =>
      rw [Construct.effect?, helement] at he
      cases he
    | ok e =>
      rw [Construct.effect?, helement] at he
      cases he
      rfl

/-- Reading ends where a construct is at fault. -/
theorem exists_fault_of_faulty (h : Faulty openTags after) :
    ∃ fault, readFrom length openTags (0x3C :: after) = ⟨[], some fault⟩ := by
  have hdrop : (0x3C :: after).dropWhile (· != 0x3C) = 0x3C :: after := rfl
  rw [readFrom_eq, hdrop]
  simp only
  split
  · exact ⟨_, rfl⟩
  all_goals
    rename_i hc
    have hnone := h _ _ hc
    simp only [Construct.effect?, Option.map_eq_none_iff, reduceCtorEq] at hnone
  all_goals
    split
    · rename_i hok
      rw [hok] at hnone
      cases hnone
    · exact ⟨_, rfl⟩

theorem Reading.foldr_cons (elements : List Element) (r : Reading) :
    elements.foldr Reading.cons r = ⟨elements ++ r.elements, r.fault⟩ := by
  induction elements with
  | nil => rfl
  | cons e elements ih =>
    rw [List.foldr_cons, ih]
    rfl

/-- A part and what follows it. -/
theorem Reads.readFrom_append {part : Bytes} (h : Reads openTags part elements openTags') :
    readFrom length openTags (part ++ bs)
      = elements.foldr Reading.cons (readFrom length openTags' bs) := by
  induction h with
  | text openTags plain => exact readFrom_text_append plain
  | construct plain reads effect rest ih =>
    rw [List.append_assoc, List.cons_append, List.append_assoc, readFrom_text_append plain,
      readFrom_of_effect (reads _) effect, ih, List.foldr_append]

/-- A part by itself. -/
theorem Reads.readFrom_eq {part : Bytes} (h : Reads openTags part elements openTags') :
    readFrom length openTags part = ⟨elements, none⟩ := by
  have hread : readFrom length openTags (part ++ []) = _ := h.readFrom_append
  rw [List.append_nil, readFrom_nil, Reading.foldr_cons, List.append_nil] at hread
  exact hread

/-- A content is read without fault, or up to a construct that is at fault. -/
theorem exists_reads (openTags : List Bytes) (bs : Bytes) :
    (∃ elements openTags', Reads openTags bs elements openTags') ∨
      ∃ before after elements openTags', bs = before ++ 0x3C :: after ∧
        Reads openTags before elements openTags' ∧ Faulty openTags' after := by
  induction hlength : bs.length using Nat.strong_induction_on generalizing openTags bs with
  | _ _ ih =>
    by_cases hplain : 0x3C ∈ bs
    · obtain ⟨text, after, rfl, htext⟩ := List.eq_append_cons_of_mem hplain
      by_cases hfaulty : Faulty openTags after
      · exact .inr ⟨text, after, [], openTags, rfl, .text openTags htext, hfaulty⟩
      · -- a construct without fault, and the induction hypothesis for what follows it
        simp only [Faulty, not_forall] at hfaulty
        obtain ⟨c, rest, hc, heffect⟩ := hfaulty
        obtain ⟨⟨openTags', e?⟩, heffect⟩ := Option.ne_none_iff_exists'.mp heffect
        obtain ⟨used, rfl, hused⟩ := exists_used_of_construct hc
        have hlt : rest.length < (text ++ 0x3C :: (used ++ rest)).length := by
          simp only [List.length_append, List.length_cons]
          omega
        rcases ih _ (hlength ▸ hlt) openTags' rest rfl with ⟨elements, openTags'', hreads⟩ |
          ⟨before, after, elements, openTags'', rfl, hreads, hfaulty⟩
        · exact .inl ⟨_, _, .construct htext hused heffect hreads⟩
        · refine .inr ⟨_, after, _, _, ?_, .construct htext hused heffect hreads, hfaulty⟩
          simp
    · exact .inl ⟨[], openTags, .text openTags hplain⟩

end Markup

end Lineage
