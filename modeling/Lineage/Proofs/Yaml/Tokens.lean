import Lineage.Proofs.Yaml.Scanner

/-!
# Tokens of a single value

In front of a value the scanner stands in block mappings, and behind it the next line comes. Between
them it takes one token: the value, whether it is written plain, in quotes or as a block.

## Main definitions

- `Scalar.token`: the token of a single value
- `Scalar.Written`: how a single value is written

## Main statements

- `TextForm.of_spec`: what the form of a text says about it
- `Scanner.exists_leads_line`: a line with a single value gives its token
-/

namespace Lineage.Yaml

namespace Scanner

variable {s s' t : Scanner} {n : Nat} {read : List Token} {c next : Cursor} {k : Bool}
  {p : Option PossibleKey} {more tail cs : List Char} {first : Char}

/-! ## Single tokens -/

/-- The key that is possible at a cursor, if one may start there. -/
def noted (n : Nat) (read : List Token) (c : Cursor) (keyAllowed : Bool) : Option PossibleKey :=
  if keyAllowed then
    some
      { required := indentAt n == some c.column
        tokens := read.length, index := c.index, line := c.line, column := c.column }
  else none

theorem noteKey?_inBlocks :
    (inBlocks n read c k none).noteKey? = some (inBlocks n read c k (noted n read c k)) := by
  cases k with
  | false => rfl
  | true => simp [noteKey?, dropKey?, inBlocks, noted, inFlow]

/-- Whether a token that starts with a character is told by it alone. -/
def isIndicator (first : Char) : Bool :=
  "#,[]\x7b\x7d&*!|>'\"%@\x60".toList.contains first

theorem startsPlain_eq (hrest : c.rest = first :: more) (hindicator : isIndicator first = false)
    (hword : endsWord (some first) = false)
    (halone : "?:-".toList.contains first = true → endsWord more.head? = false) :
    startsPlain false c = true := by
  have hgap (h : "?:-".toList.contains first = true) : more.head?.any isGap = false := by
    cases hhead : more.head? with
    | none => rfl
    | some y =>
      have hy := halone h
      rw [hhead] at hy
      exact (endsWord_some_eq_false_iff.mp hy).1
  simp only [startsPlain, Cursor.peek_of_eq_cons hrest, Cursor.peekAt_one hrest]
  by_cases hdash : first = '-'
  · rw [hgap (by rw [hdash]; decide)]
    simp [hdash]
  · by_cases hquestion : first = '?'
    · rw [halone (by rw [hquestion]; decide)]
      simp [hquestion]
    · by_cases hcolon : first = ':'
      · rw [halone (by rw [hcolon]; decide)]
        simp [hcolon]
      · -- the other marks that start no plain text are the indicators
        have hother : "-?:,[]\x7b\x7d#&*!|>'\"%@\x60".toList.contains first = false := by
          rw [← Bool.not_eq_true]
          intro hmem
          simp only [isIndicator] at hindicator
          simp_all
        simp only [hword, hother, Bool.not_false, Bool.and_self, Bool.true_or]

/-- What starts with no indicator is plain, unless a dash, a question mark or a colon stands
    alone. -/
theorem tokenAt?_plain (hrest : c.rest = first :: more) (hmarker : c.atDocumentMarker = false)
    (hindicator : isIndicator first = false) (hword : endsWord (some first) = false)
    (halone : "?:-".toList.contains first = true → endsWord more.head? = false) :
    (inBlocks n read c k p).tokenAt? first = (inBlocks n read c k p).plain? := by
  have hne {d : Char} (hd : isIndicator d = true) : first ≠ d := by
    rintro rfl
    rw [hindicator] at hd
    cases hd
  simp only [Cursor.atDocumentMarker, Bool.or_eq_false_iff] at hmarker
  have hpeek : c.peekAt 1 = more.head? := Cursor.peekAt_one hrest
  have hnot {d : Char} (hd : "?:-".toList.contains d = true) :
      ¬ (first = d ∧ endsWord more.head? = true) := by
    intro hboth
    have hends := halone (hboth.1 ▸ hd)
    rw [hboth.2] at hends
    cases hends
  have hstarts : startsPlain false c = true := startsPlain_eq hrest hindicator hword halone
  simp [tokenAt?, inFlow_inBlocks, hmarker.1, hmarker.2, hpeek, hnot (d := '-') (by decide),
    hnot (d := '?') (by decide), hnot (d := ':') (by decide), hstarts,
    hne (d := '%') (by decide), hne (d := '[') (by decide), hne (d := ']') (by decide),
    hne (d := '\x7b') (by decide), hne (d := '\x7d') (by decide), hne (d := ',') (by decide),
    hne (d := '*') (by decide), hne (d := '&') (by decide), hne (d := '!') (by decide),
    hne (d := '|') (by decide), hne (d := '>') (by decide), hne (d := '\'') (by decide),
    hne (d := '"') (by decide)]

theorem tokenAt?_colon (hrest : c.rest = ':' :: more) (hmarker : c.atDocumentMarker = false)
    (hmore : endsWord more.head? = true) :
    (inBlocks n read c k p).tokenAt? ':' = (inBlocks n read c k p).value? := by
  simp only [Cursor.atDocumentMarker, Bool.or_eq_false_iff] at hmarker
  have hpeek : c.peekAt 1 = more.head? := Cursor.peekAt_one hrest
  simp [tokenAt?, hmarker, hpeek, hmore]

theorem tokenAt?_dash (hrest : c.rest = '-' :: ' ' :: more) :
    (inBlocks n read c k p).tokenAt? '-' = Scanner.entry? (inBlocks n read c k p) := by
  have hmarker : c.atMarker '-' = false ∧ c.atMarker '.' = false := by
    simp [Cursor.atMarker, hrest, List.replicate]
  have hpeek : endsWord (c.peekAt 1) = true := by
    rw [Cursor.peekAt_one hrest]
    rfl
  simp [tokenAt?, hmarker, hpeek]

/-! ## Scalars -/

section Scalars

variable {d : Nat}

/-- Behind the column of a mapping, a possible key need not be one. -/
theorem not_required_of_noted (hcolumn : 2 * d < c.column) :
    ∀ key ∈ noted (d + 1) read c k, key.required = false ∧ key.line = c.line := by
  intro key hkey
  unfold noted at hkey
  split at hkey
  · obtain rfl := Option.some.inj hkey
    refine ⟨?_, rfl⟩
    simp only [indentAt, beq_eq_false_iff_ne, ne_eq, Option.some.injEq]
    omega
  · cases hkey

theorem closeBlocks_of_lt (hcolumn : 2 * d < c.column) :
    (inBlocks (d + 1) read c k p).closeBlocks (some c.column) = inBlocks (d + 1) read c k p := by
  refine closeBlocks_of_le fun m hm => ?_
  obtain rfl : 2 * d = m := Option.some.inj hm
  exact Nat.le_of_lt hcolumn

theorem length_rest_le_of_onLine (h : c.OnLine tail) : c.rest.length ≤ tail.length := by
  rw [h, List.length_append]
  omega

theorem plain_start_of_allowsPlain {back : List Char}
    (h : TextForm.allowsPlain (first :: back) = true) :
    isIndicator first = false ∧ endsWord (some first) = false ∧
      ("?:-".toList.contains first = true → endsWord back.head? = false) := by
  have hplain := PlainText.of_allowsPlain (List.cons_ne_nil _ _) h
  have hgap : isGap first = false := by
    obtain ⟨x, rest, heq, hx, -⟩ := hplain.starts
    obtain ⟨rfl, -⟩ := List.cons.inj heq
    exact hx
  have hbreak : isBreak first = false := (hplain.shown first (List.mem_cons_self ..)).2
  simp only [TextForm.allowsPlain, TextForm.startMisleads, Bool.and_eq_true, Bool.not_eq_true',
    Bool.or_eq_false_iff, Bool.and_eq_false_iff] at h
  obtain ⟨⟨-, -, hindicator, halone⟩, -⟩ := h
  refine ⟨hindicator, endsWord_some_eq_false_iff.mpr ⟨hgap, hbreak⟩, fun hmark => ?_⟩
  exact halone.resolve_left (by rw [hmark]; decide)

theorem isVisible_of_allowsPlain {back : List Char}
    (h : TextForm.allowsPlain (first :: back) = true) : isVisible first = true := by
  obtain ⟨hindicator, hword, -⟩ := plain_start_of_allowsPlain h
  have hprint : isPrintable first = true :=
    ((PlainText.of_allowsPlain (List.cons_ne_nil _ _) h).shown first (List.mem_cons_self ..)).1
  have hcomment : first ≠ '#' := by
    rintro rfl
    exact absurd hindicator (by decide)
  have hmark : first ≠ '\ufeff' := by
    rintro rfl
    exact absurd hprint (by decide)
  simp [isVisible, hword, hcomment, hmark]

/-- Behind a space a token leads on, if it does not end a mapping. -/
theorem leads_of_space (hcolumn : 2 * d ≤ c.column) (hrest : c.rest = ' ' :: first :: more)
    (hvisible : isVisible first = true)
    (htoken : (inBlocks (d + 1) read (c.skip 1) k none).tokenAt? first = some s')
    (hless : s'.cursor.rest.length ≤ more.length) :
    (inBlocks (d + 1) read c k none).Leads s' := by
  have hsettle : (inBlocks (d + 1) read c k none).settle?
      = some (inBlocks (d + 1) read (c.skip 1) k none) :=
    settle?_spaces (show c.rest = spaces 1 ++ first :: more from hrest)
      (fun y hy => by rwa [← Option.some.inj hy]) rfl
  refine .token first hsettle (Cursor.peek_of_eq_cons (Cursor.rest_skip_one hrest)) ?_ ?_
  · rw [cursor_inBlocks, closeBlocks_of_lt (Nat.lt_succ_of_le hcolumn), htoken]
  · rw [cursor_inBlocks, hrest, List.length_cons, List.length_cons]
    omega

theorem exists_leads_plain (hcolumn : 2 * d ≤ c.column) (hfollows : Follows (2 * d) tail)
    (hne : cs ≠ []) (h : TextForm.allowsPlain cs = true)
    (hrest : c.rest = ' ' :: (cs ++ '\n' :: tail)) :
    ∃ s', (inBlocks (d + 1) read c k none).Leads s' ∧
      s'.Rests tail (d + 1) (.scalar .plain cs :: read) := by
  have hbehind : 2 * d < (c.skip 1).column := Nat.lt_succ_of_le hcolumn
  have hskip := Cursor.rest_skip_one hrest
  obtain ⟨next, hplain, honLine, hline⟩ :=
    plain?_eq (.of_allowsPlain hne h) hfollows (Nat.lt_succ_self _) hskip (by omega)
  have hrests : (inBlocks (d + 1) (.scalar .plain cs :: read) next true
      (noted (d + 1) read (c.skip 1) k)).Rests tail (d + 1) (.scalar .plain cs :: read) := by
    refine .of_onLine honLine hfollows fun key hkey => ?_
    obtain ⟨hrequired, hkeyLine⟩ := not_required_of_noted hbehind key hkey
    exact ⟨hrequired, by omega⟩
  refine ⟨_, ?_, hrests⟩
  obtain ⟨first, back, rfl⟩ := List.exists_cons_of_ne_nil hne
  obtain ⟨hindicator, hword, halone⟩ := plain_start_of_allowsPlain h
  have halone' : "?:-".toList.contains first = true →
      endsWord (back ++ '\n' :: tail).head? = false := by
    intro hmark
    have hends := halone hmark
    cases back with
    | nil => cases hends
    | cons y back => exact hends
  refine leads_of_space hcolumn hrest (isVisible_of_allowsPlain h) ?_ ?_
  · have hmarker : (c.skip 1).atDocumentMarker = false :=
      Cursor.atDocumentMarker_eq_false (by omega)
    rw [tokenAt?_plain hskip hmarker hindicator hword halone', plain?, noteKey?_inBlocks]
    simp only [Option.bind_eq_bind, Option.bind_some]
    show Option.bind (Yaml.plain? false (2 * d + 1) (c.skip 1)) _ = _
    rw [hplain]
    rfl
  · have hle := length_rest_le_of_onLine honLine
    show next.rest.length ≤ (back ++ '\n' :: tail).length
    simp only [List.length_append, List.length_cons]
    omega

theorem exists_leads_quoted {body : List Char} (hquote : first = '\'' ∨ first = '"')
    (hcolumn : 2 * d ≤ c.column) (hfollows : Follows (2 * d) tail)
    (hrest : c.rest = ' ' :: first :: (body ++ '\n' :: tail))
    (hread : ∃ next, quoted? (c.skip 1) = some (cs, next) ∧ next.rest = '\n' :: tail ∧
      (c.skip 1).line ≤ next.line) :
    ∃ s', (inBlocks (d + 1) read c k none).Leads s' ∧
      s'.Rests tail (d + 1) (.scalar .quoted cs :: read) := by
  have hbehind : 2 * d < (c.skip 1).column := Nat.lt_succ_of_le hcolumn
  obtain ⟨next, hquoted, hnext, hline⟩ := hread
  have hrests : (inBlocks (d + 1) (.scalar .quoted cs :: read) next false
      (noted (d + 1) read (c.skip 1) k)).Rests tail (d + 1) (.scalar .quoted cs :: read) := by
    refine .of_newline hnext hfollows fun key hkey => ?_
    obtain ⟨hrequired, hkeyLine⟩ := not_required_of_noted hbehind key hkey
    exact ⟨hrequired, by omega⟩
  have hvisible : isVisible first = true := by
    rcases hquote with rfl | rfl
    · decide
    · decide
  refine ⟨_, leads_of_space hcolumn hrest hvisible ?_ ?_, hrests⟩
  · have hmarker : (c.skip 1).atDocumentMarker = false :=
      Cursor.atDocumentMarker_eq_false (by omega)
    simp only [Cursor.atDocumentMarker, Bool.or_eq_false_iff] at hmarker
    have htoken : (inBlocks (d + 1) read (c.skip 1) k none).tokenAt? first
        = (inBlocks (d + 1) read (c.skip 1) k none).keyPart? (.scalar .quoted cs) next := by
      rcases hquote with rfl | rfl
      · simp [tokenAt?, hmarker, hquoted]
      · simp [tokenAt?, hmarker, hquoted]
    rw [htoken, keyPart?, noteKey?_inBlocks]
    rfl
  · simp only [cursor_inBlocks, hnext, List.length_append, List.length_cons]
    omega

theorem exists_leads_block (hcolumn : 2 * d ≤ c.column) (hfollows : Follows (2 * d) tail)
    (h : TextForm.allowsBlock cs = true)
    (hrest : c.rest = ' ' :: '|' :: (BlockHeader.render ⟨chompingOf cs, incrementOf cs⟩
      ++ '\n' :: (blockLines (2 * d + 2) true (closed cs) ++ tail))) :
    ∃ s', (inBlocks (d + 1) read c k none).Leads s' ∧
      s'.Rests tail (d + 1) (.scalar .literal cs :: read) := by
  obtain ⟨next, hblock, honLine, -⟩ :=
    block?_eq h hfollows (Nat.lt_add_of_pos_right (by decide))
      (Cursor.rest_skip_one (Cursor.rest_skip_one hrest))
  have hrests : (inBlocks (d + 1) (.scalar .literal cs :: read) next true none).Rests tail (d + 1)
      (.scalar .literal cs :: read) :=
    .of_onLine honLine hfollows fun key hkey => by cases hkey
  refine ⟨_, leads_of_space hcolumn hrest (by decide) ?_ ?_, hrests⟩
  · have hmarker : (c.skip 1).atDocumentMarker = false :=
      Cursor.atDocumentMarker_eq_false (Nat.succ_pos _)
    simp only [Cursor.atDocumentMarker, Bool.or_eq_false_iff] at hmarker
    have htoken : (inBlocks (d + 1) read (c.skip 1) k none).tokenAt? '|'
        = (inBlocks (d + 1) read (c.skip 1) k none).block? .literal := by
      simp [tokenAt?, hmarker, inFlow_inBlocks]
    rw [htoken]
    show Option.bind (Yaml.block? false (some (2 * d)) ((c.skip 1).skip 1)) _ = _
    rw [hblock]
    rfl
  · have hle := length_rest_le_of_onLine honLine
    simp only [List.length_append, List.length_cons, cursor_inBlocks]
    omega

end Scalars

end Scanner

/-! ## Single values -/

/-- What is known of a text that has a form. -/
theorem TextForm.of_spec (s : String) :
    match TextForm.of s with
    | .plain => readsAsText s = true ∧ allowsPlain s.toList = true
    | .single => '\n' ∉ s.toList ∧ allowsSingle s.toList = true
    | .double => True
    | .block => allowsBlock s.toList = true := by
  simp only [TextForm.of]
  by_cases hline : s.toList.contains '\n' = true
  · rw [if_pos hline]
    by_cases hblock : allowsBlock s.toList = true
    · rwa [if_pos hblock]
    · rw [if_neg hblock]
      trivial
  · rw [if_neg hline]
    by_cases hplain : (readsAsText s && allowsPlain s.toList) = true
    · rw [if_pos hplain]
      exact Bool.and_eq_true_iff.mp hplain
    · rw [if_neg hplain]
      by_cases hsingle : allowsSingle s.toList = true
      · rw [if_pos hsingle]
        exact ⟨by simpa using hline, hsingle⟩
      · rw [if_neg hsingle]
        trivial

theorem toList_ne_nil_of_readsAsText {s : String} (h : readsAsText s = true) : s.toList ≠ [] := by
  intro hnil
  rw [String.toList_eq_nil_iff] at hnil
  rw [hnil] at h
  exact absurd h (by decide)

/-- The style of the form of a text. -/
def TextForm.style : TextForm → Style
  | .plain => .plain
  | .single | .double => .quoted
  | .block => .literal

namespace Scalar

/-- The style in which a value is written. -/
def style : Scalar → Style
  | .text s => (TextForm.of s).style
  | _ => .plain

/-- The text that is written for a value. -/
def content : Scalar → List Char
  | .null => "null".toList
  | .bool b => (if b then "true" else "false").toList
  | .nat n => (Nat.repr n).toList
  | .text s => s.toList

/-- The token of a value. -/
def token (s : Scalar) : Token := .scalar s.style s.content

/-- How a line with a value goes on behind the key or the dash. -/
inductive Written (indent : Nat) (s : Scalar) : List Char → Prop where
  | plain (hstyle : s.style = .plain) (hne : s.content ≠ [])
      (h : TextForm.allowsPlain s.content = true) : Written indent s (s.content ++ ['\n'])
  | single (hstyle : s.style = .quoted) (h : SingleText s.content) :
      Written indent s (singleQuoted indent s.content ++ ['\n'])
  | double (hstyle : s.style = .quoted) : Written indent s (doubleQuoted s.content ++ ['\n'])
  | block (hstyle : s.style = .literal) (h : TextForm.allowsBlock s.content = true) :
      Written indent s ('|' :: BlockHeader.render ⟨chompingOf s.content, incrementOf s.content⟩
        ++ '\n' :: blockLines indent true (closed s.content))

theorem line_eq (before : List Char) (indent : Nat) (s : Scalar) :
    line before indent s = before ++ line [] indent s := by
  simp [line]

/-- A value that is no text is a word of letters and digits. -/
theorem isAlphanum_of_mem_content {s : Scalar} (h : ∀ text, s ≠ .text text) :
    s.style = .plain ∧ s.content ≠ [] ∧ ∀ x ∈ s.content, x.isAlphanum = true := by
  cases s with
  | null => exact ⟨rfl, by decide, List.all_eq_true.mp (by decide)⟩
  | bool b =>
    cases b with
    | false => exact ⟨rfl, by decide, List.all_eq_true.mp (by decide)⟩
    | true => exact ⟨rfl, by decide, List.all_eq_true.mp (by decide)⟩
  | nat n =>
    have hcontent : (Scalar.nat n).content = Nat.toDigits 10 n := by
      rw [content, Nat.repr_eq_ofList_toDigits, String.toList_ofList]
    rw [hcontent]
    refine ⟨rfl, Nat.toDigits_ne_nil, fun x hx => ?_⟩
    have hdigit : x.isDigit = true := Nat.isDigit_of_mem_toDigits (by decide) (by decide) hx
    simp [Char.isAlphanum, hdigit]
  | text s => exact absurd rfl (h s)

/-- A text that ends with no break has its line ended by one. -/
theorem line_of_getLast? {indent : Nat} {s : Scalar} {front : List Char} {last : Char}
    (hrender : s.render indent = front ++ [last]) (hlast : isBreak last = false) :
    line [] indent s = front ++ [last] ++ ['\n'] := by
  simp [line, hrender, hlast]

theorem written_plain {indent : Nat} {s : Scalar} (hstyle : s.style = .plain)
    (hrender : s.render indent = s.content) (hne : s.content ≠ [])
    (h : TextForm.allowsPlain s.content = true) : s.Written indent (line [] indent s) := by
  obtain ⟨front, last, hcontent⟩ := (List.eq_nil_or_concat' s.content).resolve_left hne
  have hlast : isBreak last = false :=
    ((PlainText.of_allowsPlain hne h).shown last (by rw [hcontent]; simp)).2
  rw [line_of_getLast? (hrender.trans hcontent) hlast, ← hcontent]
  exact .plain hstyle hne h

theorem written_block {indent : Nat} {s : Scalar} (hstyle : s.style = .literal)
    (hrender : s.render indent = blockMark s.content ++ '\n' :: blockLines indent true s.content)
    (h : TextForm.allowsBlock s.content = true) : s.Written indent (line [] indent s) := by
  have hne : s.content ≠ [] := by
    intro hnil
    rw [hnil] at h
    exact absurd h (by decide)
  have hlines : blockLines indent true s.content ≠ [] := by
    intro hnil
    have hlength := length_le_blockLines indent true s.content
    rw [hnil, List.length_nil, Nat.le_zero, List.length_eq_zero_iff] at hlength
    exact hne hlength
  have hline : line [] indent s
      = '|' :: BlockHeader.render ⟨chompingOf s.content, incrementOf s.content⟩
        ++ '\n' :: blockLines indent true (closed s.content) := by
    have hsplit : blockMark s.content ++ '\n' :: blockLines indent true s.content
        = (blockMark s.content ++ ['\n']) ++ blockLines indent true s.content := by simp
    rw [line, hrender, hsplit, List.getLast?_append_of_ne_nil _ hlines, ← blockLines_closed hne,
      ← blockMark_eq]
    simp
  rw [hline]
  exact .block hstyle h

/-- Every value is written in one of the forms. -/
theorem written_line (indent : Nat) (s : Scalar) : s.Written indent (line [] indent s) := by
  -- only texts have a form, all other values are words
  by_cases htext : ∀ text, s ≠ .text text
  · obtain ⟨hstyle, hne, halphanum⟩ := isAlphanum_of_mem_content htext
    refine written_plain hstyle ?_ hne (allowsPlain_of_isAlphanum halphanum)
    cases s with
    | text s => exact absurd rfl (htext s)
    | _ => rfl
  · simp only [ne_eq, not_forall, not_not] at htext
    obtain ⟨text, rfl⟩ := htext
    have hspec := TextForm.of_spec text
    have hstyle : (Scalar.text text).style = (TextForm.of text).style := rfl
    cases hform : TextForm.of text with
    | plain =>
      rw [hform] at hspec hstyle
      obtain ⟨hreads, hplain⟩ := hspec
      refine written_plain hstyle ?_ (toList_ne_nil_of_readsAsText hreads) hplain
      simp only [render, renderText, hform, content]
    | single =>
      rw [hform] at hspec hstyle
      obtain ⟨hline, hsingle⟩ := hspec
      have hrender : (Scalar.text text).render indent
          = ('\'' :: indentLines indent doubled false text.toList) ++ ['\''] := by
        simp only [render, renderText, hform]
        rfl
      rw [line_of_getLast? hrender (by decide)]
      exact .single hstyle (.of_allowsSingle hsingle hline)
    | double =>
      rw [hform] at hstyle
      have hrender : (Scalar.text text).render indent
          = ('"' :: text.toList.flatMap escapeInDouble) ++ ['"'] := by
        simp only [render, renderText, hform]
        rfl
      rw [line_of_getLast? hrender (by decide)]
      exact .double hstyle
    | block =>
      rw [hform] at hspec hstyle
      refine written_block hstyle ?_ hspec
      simp only [render, renderText, hform, content]

theorem isPrintable_of_mem_concat {front : List Char} {last : Char}
    (hfront : ∀ z ∈ front, isPrintable z = true) (hlast : isPrintable last = true) :
    ∀ z ∈ front ++ [last], isPrintable z = true :=
  List.forall_mem_append.mpr ⟨hfront, by simpa using hlast⟩

theorem isPrintable_of_mem_quotes {quote : Char} {body : List Char}
    (hquote : isPrintable quote = true) (hbody : ∀ z ∈ body, isPrintable z = true) :
    ∀ z ∈ quote :: body ++ [quote], isPrintable z = true :=
  isPrintable_of_mem_concat (List.forall_mem_cons.mpr ⟨hquote, hbody⟩) hquote

/-- What is written for a value is printable. -/
theorem Written.isPrintable {indent : Nat} {s : Scalar} {text : List Char}
    (h : s.Written indent text) : ∀ z ∈ text, isPrintable z = true := by
  have hnewline : Yaml.isPrintable '\n' = true := by decide
  cases h with
  | plain hstyle hne h =>
    have hshown := (PlainText.of_allowsPlain hne h).shown
    exact isPrintable_of_mem_concat (fun z hz => (hshown z hz).1) hnewline
  | single hstyle h =>
    have hdoubled : ∀ y ∈ s.content, Yaml.isPrintable y = true ∧
        ∀ w ∈ doubled y, Yaml.isPrintable w = true := by
      intro y hy
      refine ⟨(h.shown y hy).1, fun w hw => ?_⟩
      unfold doubled at hw
      split at hw
      · have hquote : w = '\'' := by simpa using hw
        rw [hquote]
        decide
      · rw [List.mem_singleton.mp hw]
        exact (h.shown y hy).1
    have hlines : ∀ z ∈ indentLines indent doubled false s.content, Yaml.isPrintable z = true :=
      isPrintable_of_mem_indentLines hdoubled false
    exact isPrintable_of_mem_concat (isPrintable_of_mem_quotes (by decide) hlines) hnewline
  | double hstyle =>
    have hescaped : ∀ z ∈ s.content.flatMap escapeInDouble, Yaml.isPrintable z = true := by
      intro z hz
      obtain ⟨x, -, hx⟩ := List.mem_flatMap.mp hz
      exact isPrintable_of_mem_escapeInDouble x z hx
    exact isPrintable_of_mem_concat (isPrintable_of_mem_quotes (by decide) hescaped) hnewline
  | block hstyle h =>
    have hheader := BlockHeader.isPrintable_of_mem_render
      ⟨chompingOf s.content, incrementOf s.content⟩
    have hlines : ∀ z ∈ blockLines indent true (closed s.content), Yaml.isPrintable z = true :=
      isPrintable_of_mem_blockLines (BlockText.closed h).shown true
    exact List.forall_mem_append.mpr ⟨List.forall_mem_cons.mpr ⟨by decide, hheader⟩,
      List.forall_mem_cons.mpr ⟨hnewline, hlines⟩⟩

end Scalar

namespace Scanner

variable {d : Nat} {read : List Token} {c : Cursor} {k : Bool} {tail : List Char}

/-- A single value gives its token, whatever its form. -/
theorem exists_leads_line {v : Scalar} (hcolumn : 2 * d ≤ c.column)
    (hfollows : Follows (2 * d) tail) (hrest : c.rest = line [' '] (2 * d + 2) v ++ tail) :
    ∃ s', (inBlocks (d + 1) read c k none).Leads s' ∧
      s'.Rests tail (d + 1) (v.token :: read) := by
  rw [Scalar.line_eq, List.append_assoc] at hrest
  have hskip : (c.skip 1).rest = line [] (2 * d + 2) v ++ tail := Cursor.rest_skip_one hrest
  have hwritten := v.written_line (2 * d + 2)
  generalize line [] (2 * d + 2) v = text at hwritten hrest hskip
  rw [Scalar.token]
  cases hwritten with
  | plain hstyle hne h =>
    rw [hstyle]
    exact exists_leads_plain hcolumn hfollows hne h (by simpa using hrest)
  | single hstyle h =>
    rw [hstyle]
    rw [List.append_assoc] at hrest hskip
    exact exists_leads_quoted (.inl rfl) hcolumn hfollows hrest
      (quoted?_singleQuoted (by simp) h hskip)
  | double hstyle =>
    rw [hstyle]
    rw [List.append_assoc] at hrest hskip
    exact exists_leads_quoted (.inr rfl) hcolumn hfollows hrest (quoted?_doubleQuoted hskip)
  | block hstyle h =>
    rw [hstyle]
    exact exists_leads_block hcolumn hfollows h (by simpa using hrest)

end Scanner

end Lineage.Yaml
