import Lineage.Proofs.Yaml.Block
import Lineage.Proofs.Yaml.Plain
import Lineage.Yaml.Token

/-!
# Reading tokens

While a written text is scanned, only block mappings are open, each indented by two columns more
than the one around it. So their number says everything about the levels of a scanner, and the
number that is left when a line comes follows from its column. What the scanner does from one place
to another is one relation, which hides the bound of its loop.

## Main definitions

- `Scanner.inBlocks`: a scanner inside some block mappings
- `Scanner.Leads`: reading from one scanner on comes to another one
- `Scanner.Rests`: a scanner behind which a line comes next

## Main statements

- `Scanner.closeBlocks_inBlocks`: which mappings a line ends
-/

namespace Lineage.Yaml

/-! ## Levels -/

/-- The column of the innermost of so many block mappings. -/
def indentAt : Nat → Option Nat
  | 0 => none
  | n + 1 => some (2 * n)

/-- The columns of the mappings around it. -/
def outerAt : Nat → List (Option Nat)
  | 0 => []
  | n + 1 => indentAt n :: outerAt n

namespace Scanner

/-- A scanner inside so many block mappings and no brackets. -/
def inBlocks (n : Nat) (read : List Token) (c : Cursor) (keyAllowed : Bool)
    (possible : Option PossibleKey) : Scanner :=
  { cursor := c, read, count := read.length, indent := indentAt n, outer := outerAt n
    possible, enclosing := [], keyAllowed }

variable {s s' t : Scanner} {n : Nat} {read : List Token} {c : Cursor} {k : Bool}
  {p : Option PossibleKey} {more tail : List Char}

@[simp]
theorem cursor_inBlocks : (inBlocks n read c k p).cursor = c := rfl

theorem inFlow_inBlocks : (inBlocks n read c k p).inFlow = false := rfl

theorem closeBlocks_succ {column : Option Nat} (h : column.all (· < 2 * n) = true) :
    (inBlocks (n + 1) read c k p).closeBlocks column
      = (inBlocks n (.blockEnd :: read) c k p).closeBlocks column := by
  show closeBlocksFrom column (indentAt n :: outerAt n) (inBlocks (n + 1) read c k p) = _
  rw [closeBlocksFrom]
  simp only [inBlocks, indentAt, h, if_true]
  rfl

theorem closeBlocks_of_le {column : Nat} (h : ∀ m ∈ indentAt n, m ≤ column) :
    (inBlocks n read c k p).closeBlocks (some column) = inBlocks n read c k p := by
  cases n with
  | zero => rfl
  | succ n =>
    have hle : ¬ column < 2 * n := Nat.not_lt.mpr (h (2 * n) rfl)
    show closeBlocksFrom (some column) (indentAt n :: outerAt n) (inBlocks (n + 1) read c k p) = _
    rw [closeBlocksFrom]
    simp [inBlocks, indentAt, hle]

/-- A line ends the mappings that are indented more. -/
theorem closeBlocks_inBlocks (d ended : Nat) (read : List Token) :
    (inBlocks (d + 1 + ended) read c k p).closeBlocks (some (2 * d))
      = inBlocks (d + 1) (List.replicate ended .blockEnd ++ read) c k p := by
  induction ended generalizing read with
  | zero => exact closeBlocks_of_le (by simp [indentAt])
  | succ ended ih =>
    have hless : (some (2 * d)).all (· < 2 * (d + 1 + ended)) = true := by
      simp only [Option.all_some, decide_eq_true_eq]
      omega
    rw [← Nat.add_assoc, closeBlocks_succ hless, ih, List.replicate_succ', List.append_assoc]
    rfl

/-- The end of the text ends all mappings. -/
theorem closeBlocks_none (n : Nat) (read : List Token) :
    (inBlocks n read c k p).closeBlocks none
      = inBlocks 0 (List.replicate n .blockEnd ++ read) c k p := by
  induction n generalizing read with
  | zero => rfl
  | succ n ih =>
    rw [closeBlocks_succ rfl, ih, List.replicate_succ', List.append_assoc]
    rfl

/-! ## Blanks -/

/-- Whether a character is neither skipped in front of a token nor starts a comment. -/
def isVisible (x : Char) : Bool := !endsWord (some x) && x ≠ '#' && x ≠ '\ufeff'

theorem isVisible_of_startsLine {x : Char} (h : startsLine x = true) : isVisible x = true := by
  have hcomment : x ≠ '#' := ne_of_startsLine h (by decide)
  have hmark : x ≠ '\ufeff' := ne_of_startsLine h (by decide)
  simp [isVisible, endsWord_of_startsLine h, hcomment, hmark]

theorem skipBlanks_spaces {m : Nat} {body : List Char} (lines : Nat)
    (hrest : s.cursor.rest = spaces m ++ body) (hbody : ∀ x ∈ body.head?, isVisible x = true) :
    s.skipBlanks (lines + 1) = { s with cursor := s.cursor.skip m } := by
  have hvisible : ∀ x ∈ body.head?,
      isGap x = false ∧ isBreak x = false ∧ x ≠ '#' ∧ x ≠ '\ufeff' := by
    intro x hx
    have hx := hbody x hx
    simp only [isVisible, Bool.and_eq_true, Bool.not_eq_true', decide_eq_true_eq] at hx
    obtain ⟨⟨hword, hcomment⟩, hmark⟩ := hx
    obtain ⟨hgap, hbreak⟩ := endsWord_some_eq_false_iff.mp hword
    exact ⟨hgap, hbreak, hcomment, hmark⟩
  have hmark : ¬ (s.cursor.index = 0 ∧ s.cursor.peek = some '\ufeff') := by
    rintro ⟨-, hpeek⟩
    rw [Cursor.peek, hrest] at hpeek
    cases m with
    | zero => exact (hvisible '\ufeff' hpeek).2.2.2 rfl
    | succ m => exact absurd (Option.some.inj hpeek) (by decide)
  have hspan : s.cursor.span (fun x => x = ' ' || (s.inFlow || !s.keyAllowed) && x = '\t')
      = (spaces m, s.cursor.skip m) := by
    have hrun := Cursor.span_eq
      (p := fun x => x = ' ' || (s.inFlow || !s.keyAllowed) && x = '\t') hrest
      (fun x hx => by simp [(mem_spaces.mp hx).2]) fun x hx => by
        have hgap := (hvisible x hx).1
        simp only [isGap, Bool.or_eq_false_iff, decide_eq_false_iff_not] at hgap
        simp [hgap.1, hgap.2]
    rwa [length_spaces] at hrun
  have hnext : (s.cursor.skip m).rest = body := Cursor.rest_skip_spaces hrest
  have hcomment : (s.cursor.skip m).peek ≠ some '#' := by
    rw [Cursor.peek, hnext]
    exact fun hpeek => (hvisible '#' hpeek).2.2.1 rfl
  have hbreak : (s.cursor.skip m).break? = none := by
    apply Cursor.break?_eq_none
    rw [hnext]
    exact fun x hx => (hvisible x hx).2.1
  simp only [skipBlanks, if_neg hmark, hspan, if_neg hcomment, hbreak]

theorem skipBlanks_newline (lines : Nat) (hrest : s.cursor.rest = '\n' :: tail) :
    s.skipBlanks (lines + 1)
      = { s with cursor := s.cursor.nextLine 1, keyAllowed := !s.inFlow || s.keyAllowed }.skipBlanks
          lines := by
  have hmark : ¬ (s.cursor.index = 0 ∧ s.cursor.peek = some '\ufeff') := by
    simp [Cursor.peek, hrest]
  have hspan : s.cursor.span (fun x => x = ' ' || (s.inFlow || !s.keyAllowed) && x = '\t')
      = ([], s.cursor) :=
    Cursor.span_eq_nil (by simp [hrest])
  have hcomment : s.cursor.peek ≠ some '#' := by simp [Cursor.peek, hrest]
  have hbreak : s.cursor.break? = some ('\n', s.cursor.nextLine 1) :=
    Cursor.break?_of_isPrintable (by decide) (by decide) hrest
  simp only [skipBlanks, if_neg hmark, hspan, if_neg hcomment, hbreak]

/-- In front of the next token, with possible keys given up that cannot be one any more. -/
def settle? (s : Scanner) : Option Scanner :=
  (s.skipBlanks (s.cursor.rest.length + 1)).dropStale?

theorem dropStale?_inBlocks {p' : Option PossibleKey} (h : refresh? c p = some p') :
    (inBlocks n read c k p).dropStale? = some (inBlocks n read c k p') := by
  simp [dropStale?, inBlocks, h]

theorem settle?_spaces {m : Nat} {body : List Char} {p' : Option PossibleKey}
    (hrest : c.rest = spaces m ++ body) (hbody : ∀ x ∈ body.head?, isVisible x = true)
    (hp : refresh? (c.skip m) p = some p') :
    (inBlocks n read c k p).settle? = some (inBlocks n read (c.skip m) k p') := by
  rw [settle?, skipBlanks_spaces _ (s := inBlocks n read c k p) hrest hbody]
  exact dropStale?_inBlocks hp

theorem settle?_newline {m : Nat} {body : List Char} {p' : Option PossibleKey}
    (hrest : c.rest = '\n' :: (spaces m ++ body)) (hbody : ∀ x ∈ body.head?, isVisible x = true)
    (hp : refresh? ((c.nextLine 1).skip m) p = some p') :
    (inBlocks n read c k p).settle? = some (inBlocks n read ((c.nextLine 1).skip m) true p') := by
  have hnext : (c.nextLine 1).rest = spaces m ++ body := Cursor.rest_nextLine hrest
  have hline (lines : Nat) : (inBlocks n read c k p).skipBlanks (lines + 1)
      = (inBlocks n read (c.nextLine 1) true p).skipBlanks lines :=
    skipBlanks_newline lines hrest
  rw [settle?, cursor_inBlocks, hrest, List.length_cons, hline,
    skipBlanks_spaces _ (s := inBlocks n read (c.nextLine 1) true p) hnext hbody]
  exact dropStale?_inBlocks hp

/-! ## From one place to another -/

/-- From one scanner reading comes to another one. Every token on the way takes up a character. -/
def Leads (s s' : Scanner) : Prop :=
  ∃ tokens, tokens + s'.cursor.rest.length ≤ s.cursor.rest.length ∧
    ∀ bound, s.tokens? (bound + tokens) = s'.tokens? bound

theorem Leads.refl (s : Scanner) : s.Leads s := ⟨0, by omega, fun _ => rfl⟩

theorem Leads.trans (h : s.Leads t) (h' : t.Leads s') : s.Leads s' := by
  obtain ⟨m, hm, hfirst⟩ := h
  obtain ⟨n, hn, hthen⟩ := h'
  refine ⟨n + m, by omega, fun bound => ?_⟩
  rw [← Nat.add_assoc, hfirst, hthen]

/-- A token leads on. -/
theorem Leads.token (first : Char) (hsettle : s.settle? = some t)
    (hpeek : t.cursor.peek = some first)
    (htoken : (t.closeBlocks (some t.cursor.column)).tokenAt? first = some s')
    (hless : s'.cursor.rest.length < s.cursor.rest.length) : s.Leads s' := by
  refine ⟨1, by omega, fun bound => ?_⟩
  have hsettle' : (s.skipBlanks (s.cursor.rest.length + 1)).dropStale? = some t := hsettle
  simp [tokens?, hsettle', hpeek, htoken]

/-- Behind a scanner a line comes next. -/
def Rests (s : Scanner) (tail : List Char) (n : Nat) (read : List Token) : Prop :=
  ∃ c, s.settle? = some (inBlocks n read c true none) ∧ c.OnLine tail ∧
    c.rest.length ≤ s.cursor.rest.length ∧ ∀ x ∈ c.rest.head?, startsLine x = true

/-- A possible key that need not be one is given up on the next line. -/
theorem refresh?_stale (hp : ∀ key ∈ p, key.required = false ∧ key.line ≠ c.line) :
    refresh? c p = some none := by
  cases p with
  | none => rfl
  | some key =>
    obtain ⟨hrequired, hline⟩ := hp key rfl
    have hfresh : key.isFresh c = false := by simp [PossibleKey.isFresh, hline]
    simp [refresh?, hfresh, hrequired]

theorem Rests.of_onLine {limit : Nat} (honLine : c.OnLine tail) (hfollows : Follows limit tail)
    (hp : ∀ key ∈ p, key.required = false ∧ key.line ≠ c.line) :
    (inBlocks n read c true p).Rests tail n read := by
  obtain ⟨m, body, hrest, hbody, -, hskip, hskipLine⟩ := honLine.exists_spaces hfollows
  refine ⟨c.skip m, ?_, hskipLine, Cursor.length_skip_le .., by rwa [hskip]⟩
  exact settle?_spaces hrest (fun x hx => isVisible_of_startsLine (hbody x hx)) (refresh?_stale hp)

theorem Rests.of_newline {limit : Nat} (hrest : c.rest = '\n' :: tail)
    (hfollows : Follows limit tail) (hp : ∀ key ∈ p, key.required = false ∧ key.line ≤ c.line) :
    (inBlocks n read c k p).Rests tail n read := by
  obtain ⟨m, body, htail, hbody, -, hskip, hskipLine⟩ :=
    (Cursor.onLine_nextLine hrest).exists_spaces hfollows
  have htail' : tail = spaces m ++ body := by rw [← htail, Cursor.rest_nextLine hrest]
  refine ⟨(c.nextLine 1).skip m, ?_, hskipLine, ?_, by rwa [hskip]⟩
  · rw [htail'] at hrest
    refine settle?_newline hrest (fun x hx => isVisible_of_startsLine (hbody x hx)) ?_
    refine refresh?_stale fun key hkey => ⟨(hp key hkey).1, ?_⟩
    have hle := (hp key hkey).2
    exact Nat.ne_of_lt (Nat.lt_succ_of_le hle)
  · rw [hskip, cursor_inBlocks, hrest, htail', List.length_cons, List.length_append]
    omega

/-- A line comes next, and if all but so many mappings end, then so many tokens were read. -/
def Stands (s : Scanner) (tail : List Char) (n : Nat) (read : List Token) : Prop :=
  ∃ ended front, s.Rests tail (n + ended) front ∧ read = List.replicate ended .blockEnd ++ front

theorem Rests.stands (h : s.Rests tail n read) : s.Stands tail n read := ⟨0, read, h, rfl⟩

/-- One more mapping ends. -/
theorem Stands.blockEnd (h : s.Stands tail (n + 1) read) : s.Stands tail n (.blockEnd :: read) := by
  obtain ⟨ended, front, hrests, rfl⟩ := h
  refine ⟨ended + 1, front, ?_, rfl⟩
  rwa [Nat.add_right_comm, Nat.add_assoc] at hrests

end Scanner

end Lineage.Yaml
