import Lineage.Proofs.Text.Characters
import Lineage.Yaml.Printer
import Mathlib.Tactic

/-!
# Positions in a written text

What is written holds printable characters and nothing else. Among them a space is the only gap, and
a break reads as itself. Behind a value comes the end of the text or a line that starts with the
letter of a key or the dash of an item.

## Main definitions

- `Follows`: what comes behind a value
- `Cursor.OnLine`: nothing but indentation stands in front of a cursor on its line

## Main statements

- `Cursor.blankLines_eq`: how far breaks and indentation are skipped
-/

namespace Lineage.Yaml

/-! ## Characters -/

theorem isAllowed_of_isPrintable {c : Char} (h : isPrintable c = true) : isAllowed c = true := by
  simp only [isPrintable, isAllowed, Bool.or_eq_true, Bool.and_eq_true, beq_iff_eq,
    decide_eq_true_eq] at h ⊢
  omega

theorem isPrintable_of_isAlphanum {c : Char} (h : c.isAlphanum = true) : isPrintable c = true := by
  have hranges : (decide (65 ≤ c.val ∧ c.val ≤ 90) || (decide (97 ≤ c.val) && decide (c.val ≤ 122))
      || (decide (48 ≤ c.val) && decide (c.val ≤ 57))) = true := h
  simp only [Bool.or_eq_true, Bool.and_eq_true, decide_eq_true_eq, UInt32.le_iff_toNat_le,
    UInt32.reduceToNat] at hranges
  simp only [isPrintable, Char.toNat, Bool.or_eq_true, Bool.and_eq_true, beq_iff_eq,
    decide_eq_true_eq]
  omega

theorem eq_space_of_isGap {c : Char} (hc : isPrintable c = true) (h : isGap c = true) :
    c = ' ' := by
  simp only [isGap, Bool.or_eq_true, decide_eq_true_eq] at h
  refine h.resolve_right fun htab => ?_
  rw [htab] at hc
  exact absurd hc (by decide)

/-- A printable break is one of three. -/
theorem isBreak_iff_of_isPrintable {c : Char} (hc : isPrintable c = true) :
    isBreak c = true ↔ c = '\n' ∨ c = '\u2028' ∨ c = '\u2029' := by
  have hreturn : c ≠ '\r' := fun heq => absurd (heq ▸ hc) (by decide)
  have hnext : c ≠ '\u0085' := fun heq => absurd (heq ▸ hc) (by decide)
  simp [isBreak, hreturn, hnext, or_assoc]

theorem isGap_eq_false_of_isBreak {c : Char} (h : isBreak c = true) : isGap c = false := by
  have hspace : c ≠ ' ' := fun heq => absurd (heq ▸ h) (by decide)
  have htab : c ≠ '\t' := fun heq => absurd (heq ▸ h) (by decide)
  simp [isGap, hspace, htab]

theorem endsWord_some_eq_false_iff {c : Char} :
    endsWord (some c) = false ↔ isGap c = false ∧ isBreak c = false := by
  rw [endsWord, Bool.or_eq_false_iff]

@[simp]
theorem mem_spaces {c : Char} {n : Nat} : c ∈ spaces n ↔ n ≠ 0 ∧ c = ' ' := List.mem_replicate

@[simp]
theorem length_spaces (n : Nat) : (spaces n).length = n := List.length_replicate

theorem spaces_add (m n : Nat) : spaces (m + n) = spaces m ++ spaces n :=
  List.replicate_add m n ' '

theorem spaces_succ (n : Nat) : spaces (n + 1) = ' ' :: spaces n := rfl

theorem spaces_succ' (n : Nat) : spaces (n + 1) = spaces n ++ [' '] := List.replicate_succ'

/-! ## Runs -/

/-- A text starts with a run of characters of a class, which may be empty. -/
theorem exists_run (p : Char → Bool) (cs : List Char) :
    ∃ run rest, cs = run ++ rest ∧ (∀ x ∈ run, p x = true) ∧ ∀ x ∈ rest.head?, p x = false := by
  induction cs with
  | nil => exact ⟨[], [], rfl, by simp, by simp⟩
  | cons c cs ih =>
    cases hc : p c with
    | false => exact ⟨[], c :: cs, rfl, by simp, by simpa using hc⟩
    | true =>
      obtain ⟨run, rest, rfl, hrun, hrest⟩ := ih
      refine ⟨c :: run, rest, rfl, ?_, hrest⟩
      simpa [hc] using hrun

/-- A printable text starts with spaces, and no gap stands behind them. -/
theorem exists_spaces {cs : List Char} (h : ∀ x ∈ cs, isPrintable x = true) :
    ∃ n rest, cs = spaces n ++ rest ∧ ∀ x ∈ rest.head?, isGap x = false := by
  obtain ⟨run, rest, rfl, hrun, hrest⟩ := exists_run isGap cs
  have hspaces : run = spaces run.length := by
    refine List.eq_replicate_iff.mpr ⟨rfl, fun x hx => ?_⟩
    exact eq_space_of_isGap (h x (List.mem_append_left _ hx)) (hrun x hx)
  exact ⟨run.length, rest, by rw [← hspaces], hrest⟩

/-! ## What follows a value -/

/-- Whether a written line starts with a character: the letter of a key or the dash of an item. -/
def startsLine (c : Char) : Bool := c.isAlpha || c = '-'

/-- The end of a text, or a line that is indented by at most so many columns. -/
def Follows (limit : Nat) (tail : List Char) : Prop :=
  ∃ n body, tail = spaces n ++ body ∧ n ≤ limit ∧ ∀ c ∈ body.head?, startsLine c = true

theorem ne_of_startsLine {c d : Char} (h : startsLine c = true) (hd : startsLine d = false) :
    c ≠ d := by
  intro heq
  rw [heq, hd] at h
  cases h

theorem endsWord_of_startsLine {c : Char} (h : startsLine c = true) :
    endsWord (some c) = false := by
  have hne {d : Char} (hd : startsLine d = false) : c ≠ d := ne_of_startsLine h hd
  simp [endsWord, isGap, isBreak, hne (d := ' ') (by decide), hne (d := '\t') (by decide),
    hne (d := '\r') (by decide), hne (d := '\n') (by decide), hne (d := '\u0085') (by decide),
    hne (d := '\u2028') (by decide), hne (d := '\u2029') (by decide)]

theorem Follows.mono {m n : Nat} {tail : List Char} (h : Follows m tail) (hmn : m ≤ n) :
    Follows n tail := by
  obtain ⟨k, body, htail, hk, hbody⟩ := h
  exact ⟨k, body, htail, hk.trans hmn, hbody⟩

theorem follows_nil (limit : Nat) : Follows limit [] := ⟨0, [], rfl, Nat.zero_le _, by simp⟩

theorem follows_spaces_append {n limit : Nat} {c : Char} {body : List Char} (hn : n ≤ limit)
    (hc : startsLine c = true) : Follows limit (spaces n ++ c :: body) :=
  ⟨n, c :: body, rfl, hn, by simpa using hc⟩

/-- If the same line is indented in two ways, then one of them leaves the rest of the other. -/
theorem eq_of_spaces_append_eq {m n : Nat} {body rest : List Char}
    (h : spaces n ++ body = spaces m ++ rest) (hbody : body.head? ≠ some ' ') :
    ∃ k, n = m + k ∧ rest = spaces k ++ body := by
  induction m generalizing n with
  | zero => exact ⟨n, (Nat.zero_add n).symm, h.symm⟩
  | succ m ih =>
    cases n with
    | zero =>
      refine absurd ?_ hbody
      rw [show body = spaces (m + 1) ++ rest from h]
      rfl
    | succ n =>
      obtain ⟨k, rfl, hrest⟩ := ih (List.tail_eq_of_cons_eq h)
      exact ⟨k, by omega, hrest⟩

/-! ## Cursors -/

namespace Cursor

variable {c : Cursor} {b : Char} {p : Char → Bool} {run more tail : List Char}

theorem rest_skip_of_eq_append (h : c.rest = run ++ more) : (c.skip run.length).rest = more := by
  rw [skip, h, List.drop_left]

theorem rest_skip_one (h : c.rest = b :: more) : (c.skip 1).rest = more := by
  rw [skip, h]
  rfl

theorem rest_nextLine (h : c.rest = b :: more) : (c.nextLine 1).rest = more := by
  rw [nextLine, h]
  rfl

theorem peek_of_eq_cons (h : c.rest = b :: more) : c.peek = some b := by
  rw [peek, h]
  rfl

theorem peekAt_one (h : c.rest = b :: more) : c.peekAt 1 = more.head? := by
  rw [peekAt, h, List.getElem?_cons_succ, List.head?_eq_getElem?]

theorem rest_skip_spaces {n : Nat} (h : c.rest = spaces n ++ more) : (c.skip n).rest = more := by
  have hskip := rest_skip_of_eq_append h
  rwa [length_spaces] at hskip

theorem span_eq (h : c.rest = run ++ more) (hrun : ∀ x ∈ run, p x = true)
    (hmore : ∀ x ∈ more.head?, p x = false) : c.span p = (run, c.skip run.length) := by
  simp only [span, h, takeWhile_run hrun hmore]

theorem span_eq_nil (h : ∀ x ∈ c.rest.head?, p x = false) : c.span p = ([], c) :=
  span_eq rfl (by simp) h

/-- No gap stands in front of a break. -/
theorem span_of_isBreak (hb : isBreak b = true) (h : c.rest = b :: more) :
    c.span isGap = ([], c) := by
  refine span_eq_nil fun x hx => ?_
  rw [h] at hx
  rw [← Option.some.inj hx]
  exact isGap_eq_false_of_isBreak hb

theorem span_spaces {n : Nat} (h : c.rest = spaces n ++ more)
    (hmore : ∀ x ∈ more.head?, isGap x = false) : c.span isGap = (spaces n, c.skip n) := by
  have hrun : ∀ x ∈ spaces n, isGap x = true := by
    intro x hx
    rw [(mem_spaces.mp hx).2]
    rfl
  have hspan := span_eq h hrun hmore
  rwa [length_spaces] at hspan

theorem break?_eq_none (h : ∀ x ∈ c.rest.head?, isBreak x = false) : c.break? = none := by
  unfold break?
  split
  · rename_i hrest
    rw [hrest] at h
    exact absurd (h '\r' rfl) (by decide)
  · rename_i b rest _ hrest
    rw [hrest] at h
    have hb : isBreak b = false := h b rfl
    have hseparator : ¬ (b = '\u2028' ∨ b = '\u2029') := by
      rintro (rfl | rfl)
      · exact absurd hb (by decide)
      · exact absurd hb (by decide)
    rw [if_neg hseparator, if_neg (by rw [hb]; decide)]
  · rfl

/-- A printable break reads as itself. -/
theorem break?_of_isPrintable (hb : isBreak b = true) (hprint : isPrintable b = true)
    (h : c.rest = b :: more) : c.break? = some (b, c.nextLine 1) := by
  obtain rfl | rfl | rfl := (isBreak_iff_of_isPrintable hprint).mp hb
  · simp [break?, h, isBreak]
  · simp [break?, h]
  · simp [break?, h]

/-- Spaces in front of a word are skipped. -/
theorem blankLines_spaces {n : Nat} (indent : Nat)
    (hmore : ∀ x ∈ more.head?, endsWord (some x) = false) (h : c.rest = spaces n ++ more) :
    c.blankLines indent = some ([], c.skip n) := by
  have hspan : c.span isGap = (spaces n, c.skip n) :=
    span_spaces h fun x hx => (endsWord_some_eq_false_iff.mp (hmore x hx)).1
  have hindents : c.indentsWell indent = true := by
    have hrun : c.rest.takeWhile isGap = spaces n := congrArg Prod.fst hspan
    -- a line indents well as long as no tab is part of its indentation
    have htab : '\t' ∉ (spaces n).take (indent - c.column) := fun hmem =>
      absurd (mem_spaces.mp (List.mem_of_mem_take hmem)).2 (by decide)
    simpa [indentsWell, hrun] using htab
  have hbreak : (c.skip n).break? = none := by
    apply break?_eq_none
    rw [rest_skip_spaces h]
    exact fun x hx => (endsWord_some_eq_false_iff.mp (hmore x hx)).2
  rw [blankLines, if_pos hindents, hspan]
  split
  · rfl
  · rename_i heq
    rw [hbreak] at heq
    cases heq

/-- A break is skipped alone. -/
theorem blankLines_break (indent : Nat) (hb : isBreak b = true) (hprint : isPrintable b = true)
    (h : c.rest = b :: more) :
    c.blankLines indent
      = ((c.nextLine 1).blankLines indent).map fun (breaks, next) => (b :: breaks, next) := by
  have hspan : c.span isGap = ([], c) := span_of_isBreak hb h
  have hindents : c.indentsWell indent = true := by
    have hrun : c.rest.takeWhile isGap = [] := congrArg Prod.fst hspan
    simp [indentsWell, hrun]
  have hbreak : c.break? = some (b, c.nextLine 1) := break?_of_isPrintable hb hprint h
  rw [blankLines, if_pos hindents, hspan]
  split
  · rename_i heq
    rw [hbreak] at heq
    cases heq
  · rename_i heq
    rw [hbreak] at heq
    cases heq
    rfl

/-- Breaks are skipped one by one, and spaces behind them. -/
theorem blankLines_eq {n : Nat} (breaks : List Char) (indent : Nat)
    (hbreaks : ∀ x ∈ breaks, isBreak x = true ∧ isPrintable x = true)
    (hmore : ∀ x ∈ more.head?, endsWord (some x) = false)
    (h : c.rest = breaks ++ (spaces n ++ more)) :
    ∃ next, c.blankLines indent = some (breaks, next) ∧ next.rest = more ∧
      next.column = (if breaks = [] then c.column else 0) + n ∧
      next.line = c.line + breaks.length := by
  induction breaks generalizing c with
  | nil => exact ⟨c.skip n, blankLines_spaces indent hmore h, rest_skip_spaces h, rfl, rfl⟩
  | cons b breaks ih =>
    obtain ⟨hb, hprint⟩ := hbreaks b (List.mem_cons_self ..)
    obtain ⟨next, hlines, hrest, hcolumn, hline⟩ :=
      ih (fun x hx => hbreaks x (List.mem_cons_of_mem _ hx)) (rest_nextLine h)
    refine ⟨next, ?_, hrest, ?_, ?_⟩
    · rw [blankLines_break indent hb hprint h, hlines]
      rfl
    · simp [hcolumn, nextLine]
    · rw [hline, List.length_cons]
      simp only [nextLine]
      omega

/-- Document markers stand at the start of a line. -/
theorem atDocumentMarker_eq_false (h : 0 < c.column) : c.atDocumentMarker = false := by
  have hne : c.column ≠ 0 := by omega
  simp [atDocumentMarker, atMarker, hne]

/-! ## Cursors on a line -/

/-- Only indentation stands in front of a cursor on the line that starts with some text. -/
def OnLine (c : Cursor) (text : List Char) : Prop := text = spaces c.column ++ c.rest

theorem onLine_nextLine (h : c.rest = b :: tail) : (c.nextLine 1).OnLine tail := by
  rw [OnLine, rest_nextLine h]
  rfl

/-- From a place on a line spaces lead to its first sign. -/
theorem OnLine.exists_spaces {limit : Nat} (h : c.OnLine tail) (hfollows : Follows limit tail) :
    ∃ n body, c.rest = spaces n ++ body ∧ (∀ x ∈ body.head?, startsLine x = true) ∧
      c.column + n ≤ limit ∧ (c.skip n).rest = body ∧ (c.skip n).OnLine tail := by
  obtain ⟨m, body, rfl, hm, hbody⟩ := hfollows
  -- the sign is no space, so it ends the indentation wherever that is counted from
  have hspace : body.head? ≠ some ' ' := fun hhead =>
    absurd (hbody ' ' hhead) (by decide)
  obtain ⟨n, rfl, hrest⟩ := eq_of_spaces_append_eq h hspace
  have hskip : (c.skip n).rest = body := rest_skip_spaces hrest
  refine ⟨n, body, hrest, hbody, hm, hskip, ?_⟩
  rw [OnLine, hskip]
  rfl

/-- At the end of a line, blanks are skipped up to the first sign of the next one. -/
theorem exists_blankLines_of_follows {limit : Nat} (hfollows : Follows limit tail) (indent : Nat)
    (h : c.rest = '\n' :: tail) :
    ∃ next, (c.nextLine 1).blankLines indent = some ([], next) ∧ next.OnLine tail ∧
      next.column ≤ limit ∧ next.line = c.line + 1 := by
  obtain ⟨n, body, htail, hstarts, hn, -⟩ := (onLine_nextLine h).exists_spaces hfollows
  obtain ⟨next, hlines, hrest, hcolumn, hline⟩ :=
    blankLines_eq [] indent (by simp)
      (fun x hx => endsWord_of_startsLine (hstarts x hx)) htail
  have hindent : next.column = n := by
    rw [hcolumn, if_pos rfl, nextLine, Nat.zero_add]
  refine ⟨next, hlines, ?_, ?_, hline⟩
  · rw [OnLine, hindent, hrest, ← htail, rest_nextLine h]
  · rw [hindent]
    exact le_trans (Nat.le_add_left ..) hn

end Cursor

end Lineage.Yaml
