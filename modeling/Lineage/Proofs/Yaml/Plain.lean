import Lineage.Proofs.Yaml.Cursor
import Lineage.Yaml.FlowScalar

/-!
# Plain texts

A plain text is read word by word. What the printer writes plain has no colon at the end of a word
and no number sign at the start of one, so every word is read as it is. The text ends with its line
if the next one is indented less.

## Main definitions

- `PlainText`: what is kept of a text that may be written plain from one word to the next

## Main statements

- `plain?_eq`: a plain text reads as itself
- `plain?_key_eq`: so does a key, up to its colon
-/

namespace Lineage.Yaml

variable {c : Cursor} {cs word more tail : List Char} {before : Char}

/-! ## What may be written plain -/

/-- A text on one line that starts and ends with a word, without marks that would end it inside. -/
structure PlainText (cs : List Char) : Prop where
  shown : ∀ x ∈ cs, isPrintable x = true ∧ isBreak x = false
  starts : ∃ first rest, cs = first :: rest ∧ isGap first = false ∧ first ≠ '#'
  ends : cs.getLast? ≠ some ' '
  /-- No word ends with a colon. -/
  colon : ∀ front back, cs = front ++ ':' :: back → endsWord back.head? = false
  /-- No further word starts with a number sign. -/
  comment : ∀ front back, cs ≠ front ++ ' ' :: '#' :: back

theorem endsWord_head?_of_endsInside (h : TextForm.endsInside before cs = false) :
    ∀ front back, cs = front ++ ':' :: back → endsWord back.head? = false := by
  induction cs generalizing before with
  | nil => simp
  | cons c cs ih =>
    simp only [TextForm.endsInside, Bool.or_eq_false_iff, Bool.and_eq_false_iff] at h
    intro front back heq
    cases front with
    | nil =>
      obtain ⟨rfl, rfl⟩ := List.cons.inj heq
      exact h.1.1.resolve_left (by decide)
    | cons x front => exact ih h.2 front back (List.tail_eq_of_cons_eq heq)

theorem not_comment_of_endsInside (h : TextForm.endsInside before cs = false) :
    ∀ front back, before :: cs ≠ front ++ ' ' :: '#' :: back := by
  induction cs generalizing before with
  | nil =>
    intro front back heq
    have hlength := congrArg List.length heq
    simp only [List.length_cons, List.length_nil, List.length_append] at hlength
    omega
  | cons c cs ih =>
    simp only [TextForm.endsInside, Bool.or_eq_false_iff, Bool.and_eq_false_iff] at h
    intro front back heq
    cases front with
    | nil =>
      obtain ⟨rfl, hcs⟩ := List.cons.inj heq
      obtain ⟨rfl, -⟩ := List.cons.inj hcs
      rcases h.1.2 with hmark | hspace
      · exact absurd hmark (by decide)
      · exact absurd hspace (by decide)
    | cons x front => exact ih h.2 front back (List.tail_eq_of_cons_eq heq)

theorem PlainText.of_allowsPlain (hne : cs ≠ []) (h : TextForm.allowsPlain cs = true) :
    PlainText cs := by
  cases cs with
  | nil => exact absurd rfl hne
  | cons first rest =>
    simp only [TextForm.allowsPlain, TextForm.needsEscapes, TextForm.startMisleads,
      Bool.and_eq_true, Bool.not_eq_true', Bool.or_eq_false_iff, Bool.not_eq_false',
      decide_eq_true_eq, List.all_eq_true, List.any_eq_false, Bool.not_eq_true,
      Bool.and_eq_false_iff] at h
    obtain ⟨⟨⟨⟨⟨hfirst, hlast⟩, hbreak⟩, hprint, -⟩, -, hmark, hword⟩, hinside⟩ := h
    have hcomment := not_comment_of_endsInside hinside
    refine ⟨fun x hx => ⟨hprint x hx, hbreak x hx⟩, ⟨first, rest, rfl, ?_, ?_⟩, hlast, ?_, hcomment⟩
    · by_contra hgap
      exact hfirst (eq_space_of_isGap (hprint first (List.mem_cons_self ..)) (by simpa using hgap))
    · rintro rfl
      exact absurd hmark (by decide)
    · intro front back heq
      cases front with
      | nil =>
        obtain ⟨rfl, rfl⟩ := List.cons.inj heq
        exact hword.resolve_left (by decide)
      | cons x front =>
        exact endsWord_head?_of_endsInside hinside front back (List.tail_eq_of_cons_eq heq)

theorem endsInside_eq_false (h : ∀ x ∈ cs, x ≠ ':' ∧ x ≠ '#') (before : Char) :
    TextForm.endsInside before cs = false := by
  induction cs generalizing before with
  | nil => rfl
  | cons c cs ih =>
    obtain ⟨hcolon, hmark⟩ := h c (List.mem_cons_self ..)
    simp [TextForm.endsInside, hcolon, hmark, ih fun x hx => h x (List.mem_cons_of_mem _ hx)]

theorem hasPair_eq_false {p q : Char → Bool} (h : ∀ x ∈ cs, p x = false) :
    TextForm.hasPair p q cs = false := by
  induction cs with
  | nil => rfl
  | cons c cs ih =>
    have hcs := ih fun x hx => h x (List.mem_cons_of_mem _ hx)
    cases cs with
    | nil => rfl
    | cons d cs => simp [TextForm.hasPair, h c (List.mem_cons_self ..), hcs]

theorem endsWord_of_isNameChar {x : Char} (h : isNameChar x = true) :
    endsWord (some x) = false := by
  have hne {d : Char} (hd : isNameChar d = false) : x ≠ d := by
    rintro rfl
    rw [h] at hd
    cases hd
  simp [endsWord, isGap, isBreak, hne (d := ' ') (by decide), hne (d := '\t') (by decide),
    hne (d := '\r') (by decide), hne (d := '\n') (by decide), hne (d := '\u0085') (by decide),
    hne (d := '\u2028') (by decide), hne (d := '\u2029') (by decide)]

theorem ne_of_isAlphanum {x d : Char} (h : x.isAlphanum = true) (hd : d.isAlphanum = false) :
    x ≠ d := by
  rintro rfl
  rw [h] at hd
  cases hd

theorem contains_eq_false_of_isAlphanum {x : Char} {marks : List Char} (h : x.isAlphanum = true)
    (hmarks : marks.any Char.isAlphanum = false) : marks.contains x = false := by
  rw [List.contains_eq_mem, decide_eq_false_iff_not]
  exact fun hmem => List.any_eq_false.mp hmarks x hmem h

theorem atDocumentMarker_of_isAlphanum {x : Char} (hrest : c.rest = x :: more)
    (h : x.isAlphanum = true) : c.atDocumentMarker = false := by
  simp [Cursor.atDocumentMarker, Cursor.atMarker, hrest, List.replicate,
    (ne_of_isAlphanum h (d := '-') (by decide)).symm,
    (ne_of_isAlphanum h (d := '.') (by decide)).symm]

/-- A word of letters and digits can be written plain. -/
theorem allowsPlain_of_isAlphanum (h : ∀ x ∈ cs, x.isAlphanum = true) :
    TextForm.allowsPlain cs = true := by
  have hne {x d : Char} (hx : x ∈ cs) (hd : d.isAlphanum = false) : x ≠ d :=
    ne_of_isAlphanum (h x hx) hd
  have hword : ∀ x ∈ cs, endsWord (some x) = false := fun x hx =>
    endsWord_of_isNameChar (by simp [isNameChar, h x hx])
  have hprint : cs.all isPrintable = true :=
    List.all_eq_true.mpr fun x hx => isPrintable_of_isAlphanum (h x hx)
  have hbreak : cs.any isBreak = false :=
    List.any_eq_false.mpr fun x hx => by simp [(endsWord_some_eq_false_iff.mp (hword x hx)).2]
  have hpair : TextForm.hasPair (· = ' ') isBreak cs = false :=
    hasPair_eq_false fun x hx => decide_eq_false (hne hx (by decide))
  cases cs with
  | nil => rfl
  | cons first rest =>
    have hlast : (first :: rest).getLast? ≠ some ' ' := fun hlast =>
      hne (List.mem_of_getLast? hlast) (by decide) rfl
    have hfirst {d : Char} (hd : d.isAlphanum = false) : first ≠ d :=
      hne (List.mem_cons_self ..) hd
    have hinside : TextForm.endsInside first rest = false := by
      refine endsInside_eq_false (fun x hx => ?_) first
      have hmem : x ∈ first :: rest := List.mem_cons_of_mem _ hx
      exact ⟨hne hmem (by decide), hne hmem (by decide)⟩
    have hmisleads : TextForm.startMisleads (first :: rest) = false := by
      have hnot (marks : List Char) (hmarks : marks.any Char.isAlphanum = false) :
          marks.contains first = false :=
        contains_eq_false_of_isAlphanum (h first (List.mem_cons_self ..)) hmarks
      simp only [TextForm.startMisleads, hnot "?:-".toList (by decide),
        hnot "#,[]\x7b\x7d&*!|>'\"%@\x60".toList (by decide), Bool.false_and,
        Bool.or_false]
      simp [List.isPrefixOf, (hfirst (d := '-') (by decide)).symm,
        (hfirst (d := '.') (by decide)).symm]
    simp only [TextForm.allowsPlain, TextForm.needsEscapes, hprint, hbreak, hpair, hinside,
      hmisleads, hlast, hfirst (d := ' ') (by decide), ne_eq, not_false_eq_true, decide_true,
      Bool.not_true, Bool.not_false, Bool.or_false, Bool.and_true]

/-! ## Words -/

/-- A word is read up to where it ends, if none of its own colons ends it. -/
theorem plainWord?_append (hword : ∀ x ∈ word, endsWord (some x) = false)
    (hcolon : ∀ front back, word = front ++ ':' :: back → endsWord (back ++ more).head? = false)
    (hstop : ∀ read, plainWord? false read more = some read.reverse) (read : List Char) :
    plainWord? false read (word ++ more) = some (read.reverse ++ word) := by
  induction word generalizing read with
  | nil => rw [List.nil_append, hstop, List.append_nil]
  | cons c word ih =>
    have hinside : (c = ':' && endsWord (word ++ more).head?) = false := by
      by_cases hc : c = ':'
      · rw [hcolon [] word (by rw [hc]; rfl), Bool.and_false]
      · simp [hc]
    rw [List.cons_append, plainWord?, hword c (List.mem_cons_self ..), hinside]
    simp only [Bool.false_eq_true, if_false, Bool.false_and, Bool.or_false]
    rw [ih (fun x hx => hword x (List.mem_cons_of_mem _ hx))
      (fun front back heq => hcolon (c :: front) back (by rw [heq]; rfl)) (c :: read),
      List.reverse_cons, List.append_assoc, List.singleton_append]

theorem plainWord?_of_endsWord (h : endsWord more.head? = true) (read : List Char) :
    plainWord? false read more = some read.reverse := by
  cases more with
  | nil => rfl
  | cons x more =>
    have hx : endsWord (some x) = true := h
    rw [plainWord?, if_pos hx]

/-- What stands behind a gap is a plain text again. -/
theorem PlainText.of_append {first : Char} {front back : List Char}
    (h : PlainText (front ++ ' ' :: first :: back)) (hfirst : isGap first = false) :
    PlainText (first :: back) where
  shown := fun x hx => h.shown x (List.mem_append_right _ (List.mem_cons_of_mem _ hx))
  starts := by
    refine ⟨first, back, rfl, hfirst, ?_⟩
    rintro rfl
    exact h.comment front back rfl
  ends := by
    have hends := h.ends
    rwa [List.getLast?_append_of_ne_nil _ (List.cons_ne_nil _ _), List.getLast?_cons_cons] at hends
  colon := by
    intro before after heq
    refine h.colon (front ++ ' ' :: before) after ?_
    rw [heq, List.append_assoc, List.cons_append]
  comment := by
    intro before after heq
    refine h.comment (front ++ ' ' :: before) after ?_
    rw [heq, List.append_assoc, List.cons_append]

/-- The first word of a plain text, and what is left of the text behind it: nothing, or a gap and a
    plain text. -/
theorem PlainText.exists_word (h : PlainText cs) :
    ∃ word rest, cs = word ++ rest ∧ word ≠ [] ∧ (∀ x ∈ word, endsWord (some x) = false) ∧
      (rest = [] ∨ ∃ n cs', rest = spaces (n + 1) ++ cs' ∧ PlainText cs') := by
  obtain ⟨word, rest, rfl, hword, hrest⟩ := exists_run (!isGap ·) cs
  have hshown : ∀ x ∈ rest, isPrintable x = true := fun x hx =>
    (h.shown x (List.mem_append_right _ hx)).1
  refine ⟨word, rest, rfl, ?_, fun x hx => ?_, ?_⟩
  · rintro rfl
    obtain ⟨first, back, heq, hfirst, -⟩ := h.starts
    have hhead : rest.head? = some first := by
      rw [← List.nil_append rest, heq]
      rfl
    have hgap : isGap first = true := by simpa using hrest first hhead
    rw [hfirst] at hgap
    cases hgap
  · refine endsWord_some_eq_false_iff.mpr ⟨by simpa using hword x hx, ?_⟩
    exact (h.shown x (List.mem_append_left _ hx)).2
  · obtain ⟨n, cs', rfl, hcs'⟩ := exists_spaces hshown
    cases n with
    | zero =>
      -- the word would not have ended
      cases cs' with
      | nil => exact .inl rfl
      | cons x cs' =>
        have hgap : isGap x = true := by simpa using hrest x rfl
        rw [hcs' x rfl] at hgap
        cases hgap
    | succ n =>
      refine .inr ⟨n, cs', rfl, ?_⟩
      cases cs' with
      | nil =>
        -- the text would end with the gap
        refine absurd ?_ h.ends
        simp [spaces, List.getLast?_append, List.getLast?_replicate]
      | cons first back =>
        rw [spaces_succ', List.append_assoc, ← List.append_assoc word] at h
        exact h.of_append (hcs' first rfl)

/-! ## Texts -/

/-- The word that comes next in a plain text is read, whether the text or a gap follows it. -/
theorem PlainText.plainWord?_eq {rest : List Char} (h : PlainText (word ++ rest))
    (hword : ∀ x ∈ word, endsWord (some x) = false)
    (hrest : endsWord (rest ++ '\n' :: tail).head? = true) :
    plainWord? false [] (word ++ (rest ++ '\n' :: tail)) = some word := by
  refine plainWord?_append hword (fun front back heq => ?_) (plainWord?_of_endsWord hrest) []
  have hcolon : endsWord (back ++ rest).head? = false :=
    h.colon front (back ++ rest) (by rw [heq, List.append_assoc]; rfl)
  -- the colon is not the last character of the text
  cases hback : back ++ rest with
  | nil =>
    rw [hback] at hcolon
    cases hcolon
  | cons x _ =>
    rw [← List.append_assoc, hback, List.cons_append]
    rwa [hback] at hcolon

/-- Behind the last word of a text its line ends, and one that is indented less follows. -/
theorem plainFrom?_last {limit indent : Nat} (hfollows : Follows limit tail)
    (hlimit : limit < indent) (hstart : ¬ (c.atDocumentMarker = true ∨ c.peek = some '#'))
    (hread : plainWord? false [] c.rest = some word) (hne : word ≠ [])
    (hnext : (c.skip word.length).rest = '\n' :: tail) (words : Nat) (read gap : List Char)
    (crossed : Bool) :
    ∃ next, plainFrom? false indent (words + 1) read gap crossed c
        = some ⟨read.reverse ++ gap ++ word, next, true⟩ ∧
      next.OnLine tail ∧ c.line < next.line := by
  have hspan : (c.skip word.length).span isGap = ([], c.skip word.length) :=
    Cursor.span_of_isBreak (by decide) hnext
  have hbreak := Cursor.break?_of_isPrintable (by decide) (by decide) hnext
  obtain ⟨next, hlines, honLine, hindent, hline⟩ :=
    Cursor.exists_blankLines_of_follows hfollows indent hnext
  have hless : next.column < indent := by omega
  refine ⟨next, ?_, honLine, ?_⟩
  · simp [plainFrom?, hstart, hread, hne, hspan, hbreak, hlines, hless]
  · rw [hline]
    exact Nat.lt_succ_self _

/-- A gap leads from one word to the next one. -/
theorem plainFrom?_gap {first : Char} {n : Nat} (hfirst : endsWord (some first) = false)
    (hstart : ¬ (c.atDocumentMarker = true ∨ c.peek = some '#'))
    (hread : plainWord? false [] c.rest = some word) (hne : word ≠ [])
    (hnext : (c.skip word.length).rest = spaces (n + 1) ++ first :: more) (indent words : Nat)
    (read gap : List Char) (crossed : Bool) :
    plainFrom? false indent (words + 1) read gap crossed c
      = plainFrom? false indent words (word.reverse ++ gap.reverse ++ read) (spaces (n + 1)) false
          ((c.skip word.length).skip (n + 1)) := by
  obtain ⟨hgap, hbreak⟩ := endsWord_some_eq_false_iff.mp hfirst
  have hspan : (c.skip word.length).span isGap
      = (spaces (n + 1), (c.skip word.length).skip (n + 1)) :=
    Cursor.span_spaces hnext (by simpa using hgap)
  have hnone : ((c.skip word.length).skip (n + 1)).break? = none := by
    apply Cursor.break?_eq_none
    rw [Cursor.rest_skip_spaces hnext]
    simpa using hbreak
  simp [plainFrom?, hstart, hread, hne, hspan, hnone, spaces_succ]

/-- From the start of a word on, a plain text is read to its end. -/
theorem plainFrom?_eq {limit indent : Nat} (hfollows : Follows limit tail)
    (hlimit : limit < indent) {words : Nat} (h : PlainText cs) (hwords : cs.length < words)
    (read gap : List Char) (crossed : Bool) (hrest : c.rest = cs ++ '\n' :: tail)
    (hcolumn : 0 < c.column) :
    ∃ next, plainFrom? false indent words read gap crossed c
        = some ⟨read.reverse ++ gap ++ cs, next, true⟩ ∧
      next.OnLine tail ∧ c.line < next.line := by
  -- by induction on the bound: there are no more words than characters
  induction words generalizing cs read gap crossed c with
  | zero => exact absurd hwords (Nat.not_lt_zero _)
  | succ words ih =>
    have hstart : ¬ (c.atDocumentMarker = true ∨ c.peek = some '#') := by
      obtain ⟨first, back, rfl, -, hfirst⟩ := h.starts
      simpa [Cursor.atDocumentMarker_eq_false hcolumn, Cursor.peek, hrest] using hfirst
    obtain ⟨word, rest, rfl, hne, hword, hgap⟩ := h.exists_word
    rw [List.append_assoc] at hrest
    have hnext : (c.skip word.length).rest = rest ++ '\n' :: tail :=
      Cursor.rest_skip_of_eq_append hrest
    have hread : plainWord? false [] c.rest = some word := by
      rw [hrest]
      apply h.plainWord?_eq hword
      rcases hgap with rfl | ⟨n, cs', rfl, -⟩
      · rfl
      · rfl
    rcases hgap with rfl | ⟨n, cs', rfl, hcs'⟩
    · rw [List.append_nil]
      exact plainFrom?_last hfollows hlimit hstart hread hne hnext words read gap crossed
    · obtain ⟨first, back, rfl, hfirst, -⟩ := hcs'.starts
      have hstops : endsWord (some first) = false :=
        endsWord_some_eq_false_iff.mpr ⟨hfirst, (hcs'.shown first (List.mem_cons_self ..)).2⟩
      rw [List.append_assoc] at hnext
      have hfewer : (first :: back).length < words := by
        simp only [List.length_append, length_spaces] at hwords
        omega
      have hposition : 0 < ((c.skip word.length).skip (n + 1)).column := by
        simp only [Cursor.skip]
        omega
      obtain ⟨next, hplain, honLine, hline⟩ :=
        ih hcs' hfewer (word.reverse ++ gap.reverse ++ read) (spaces (n + 1)) false
          (Cursor.rest_skip_spaces hnext) hposition
      refine ⟨next, ?_, honLine, hline⟩
      rw [plainFrom?_gap hstops hstart hread hne hnext, hplain]
      simp

/-- A plain text reads as itself. -/
theorem plain?_eq {limit indent : Nat} (h : PlainText cs) (hfollows : Follows limit tail)
    (hlimit : limit < indent) (hrest : c.rest = cs ++ '\n' :: tail) (hcolumn : 0 < c.column) :
    ∃ next, plain? false indent c = some ⟨cs, next, true⟩ ∧ next.OnLine tail ∧
      c.line < next.line := by
  have hwords : cs.length < c.rest.length + 1 := by
    rw [hrest, List.length_append]
    omega
  exact plainFrom?_eq hfollows hlimit h hwords [] [] false hrest hcolumn

/-! ## Keys -/

/-- Whether a text may stand for itself as a key: a name that starts with a letter and is not too
    long. -/
def isKey (key : List Char) : Bool :=
  key.head?.any Char.isAlpha && key.all isNameChar && key.length ≤ 1024

/-- A key is read up to its colon. -/
theorem plain?_key_eq {key : List Char} (hkey : isKey key = true) (indent : Nat)
    (hmore : endsWord more.head? = true) (hrest : c.rest = key ++ ':' :: more) :
    plain? false indent c = some ⟨key, c.skip key.length, false⟩ := by
  simp only [isKey, Bool.and_eq_true, List.all_eq_true] at hkey
  obtain ⟨⟨hfirst, hname⟩, -⟩ := hkey
  obtain ⟨first, back, rfl⟩ : ∃ first back, key = first :: back := by
    cases key with
    | nil => cases hfirst
    | cons first back => exact ⟨first, back, rfl⟩
  have halphanum : first.isAlphanum = true := by
    have halpha : first.isAlpha = true := by simpa using hfirst
    rw [Char.isAlphanum, halpha, Bool.true_or]
  have hstart : ¬ (c.atDocumentMarker = true ∨ c.peek = some '#') := by
    simp [atDocumentMarker_of_isAlphanum hrest halphanum, Cursor.peek, hrest,
      ne_of_isAlphanum halphanum (d := '#') (by decide)]
  have hcolon : ':' ∉ first :: back := fun hmem => absurd (hname ':' hmem) (by decide)
  have hread : plainWord? false [] c.rest = some (first :: back) := by
    rw [hrest]
    refine plainWord?_append (fun x hx => endsWord_of_isNameChar (hname x hx)) ?_ ?_ []
    · intro before after heq
      exact absurd (heq ▸ List.mem_append_right _ (List.mem_cons_self ..)) hcolon
    · intro read
      have hnot : endsWord (some ':') = false := by decide
      simp [plainWord?, hnot, hmore]
  have hnext : (c.skip (first :: back).length).rest = ':' :: more :=
    Cursor.rest_skip_of_eq_append hrest
  have hspan : (c.skip (first :: back).length).span isGap
      = ([], c.skip (first :: back).length) :=
    Cursor.span_eq_nil (by rw [hnext]; simp [isGap])
  have hbreak : (c.skip (first :: back).length).break? = none := by
    apply Cursor.break?_eq_none
    rw [hnext]
    simp [isBreak]
  rw [List.length_cons] at hspan hbreak
  simp [plain?, plainFrom?, hstart, hread, hspan, hbreak]

end Lineage.Yaml
