import Lineage.Proofs.Text.Digits
import Lineage.Proofs.Yaml.Cursor
import Lineage.Yaml.FlowScalar

/-!
# Texts in quotes

A text in quotes is read in pieces: single characters, runs of spaces, escapes, and breaks with the
indentation behind them. The printer escapes what would end such a piece too early, so both kinds of
quotes give back the text they were put around.

## Main definitions

- `SingleText`: what is kept of a text in single quotes from one piece to the next

## Main statements

- `quoted?_singleQuoted`, `quoted?_doubleQuoted`: a text in quotes reads as itself
-/

namespace Lineage.Yaml

variable {c : Cursor} {cs more read : List Char} {quote x : Char}

/-! ## Pieces -/

/-- From a cursor a text is read up to the quote in front of what is left. Every piece holds at
    least one of its characters. -/
def Reads (quote : Char) (c : Cursor) (cs more : List Char) : Prop :=
  ∀ pieces read, cs.length < pieces →
    ∃ next, quotedFrom? quote pieces read c = some (read.reverse ++ cs, next) ∧
      next.rest = more ∧ c.line ≤ next.line

namespace Reads

variable {line : List Char}

/-- One more piece in front. -/
theorem piece {piece : List Char} {next : Cursor}
    (hpiece : quotedPiece? quote c = some (.text piece next)) (hne : piece ≠ [])
    (hline : c.line ≤ next.line) (h : Reads quote next cs more) :
    Reads quote c (piece ++ cs) more := by
  intro pieces read hpieces
  have hpos : 0 < piece.length := List.length_pos_iff.mpr hne
  rw [List.length_append] at hpieces
  cases pieces with
  | zero => exact absurd hpieces (Nat.not_lt_zero _)
  | succ pieces =>
    obtain ⟨last, hread, hrest, hlast⟩ := h pieces (piece.reverse ++ read) (by omega)
    refine ⟨last, ?_, hrest, hline.trans hlast⟩
    rw [quotedFrom?, hpiece]
    simpa using hread

theorem stop (hrest : c.rest = quote :: more) (hquote : endsWord (some quote) = false)
    (hmore : quote = '\'' → more.head? ≠ some '\'') : Reads quote c [] more := by
  intro pieces read hpieces
  obtain ⟨hgap, hbreak⟩ := endsWord_some_eq_false_iff.mp hquote
  have hstop : ¬ (quote = '\'' ∧ more.head? = some '\'') := fun ⟨heq, hhead⟩ => hmore heq hhead
  have hpiece : quotedPiece? quote c = some (.stop (c.skip 1)) := by
    simp [quotedPiece?, hrest, hgap, hbreak, hstop]
  cases pieces with
  | zero => exact absurd hpieces (Nat.not_lt_zero _)
  | succ pieces =>
    refine ⟨c.skip 1, ?_, Cursor.rest_skip_one hrest, le_refl _⟩
    rw [quotedFrom?, hpiece, List.append_nil]

theorem spaces {n : Nat} (hrest : c.rest = Yaml.spaces (n + 1) ++ line)
    (hline : ∀ y ∈ line.head?, endsWord (some y) = false)
    (h : ∀ next : Cursor, next.rest = line → Reads quote next cs more) :
    Reads quote c (Yaml.spaces (n + 1) ++ cs) more := by
  have hspan : c.span isGap = (Yaml.spaces (n + 1), c.skip (n + 1)) :=
    Cursor.span_spaces hrest fun y hy => (endsWord_some_eq_false_iff.mp (hline y hy)).1
  have hnext : (c.skip (n + 1)).rest = line := Cursor.rest_skip_spaces hrest
  have hbreak : (c.skip (n + 1)).break? = none := by
    apply Cursor.break?_eq_none
    rw [hnext]
    exact fun y hy => (endsWord_some_eq_false_iff.mp (hline y hy)).2
  have hpiece : quotedPiece? quote c = some (.text (Yaml.spaces (n + 1)) (c.skip (n + 1))) := by
    rw [spaces_succ, List.cons_append] at hrest
    simp [quotedPiece?, hrest, isGap, hspan, hbreak]
  exact piece hpiece (List.cons_ne_nil _ _) (le_refl _) (h _ hnext)

theorem char (hrest : c.rest = x :: line) (hx : endsWord (some x) = false) (hquote : x ≠ quote)
    (hescape : quote = '"' → x ≠ '\\')
    (h : ∀ next : Cursor, next.rest = line → Reads quote next cs more) :
    Reads quote c (x :: cs) more := by
  obtain ⟨hgap, hbreak⟩ := endsWord_some_eq_false_iff.mp hx
  have hplain : ¬ (quote = '"' ∧ x = '\\') := fun ⟨heq, hx⟩ => hescape heq hx
  have hpiece : quotedPiece? quote c = some (.text [x] (c.skip 1)) := by
    simp [quotedPiece?, hrest, hgap, hbreak, hquote, hplain]
  exact piece hpiece (List.cons_ne_nil _ _) (le_refl _) (h _ (Cursor.rest_skip_one hrest))

theorem doubledQuote (hrest : c.rest = '\'' :: '\'' :: line)
    (h : ∀ next : Cursor, next.rest = line → Reads '\'' next cs more) :
    Reads '\'' c ('\'' :: cs) more := by
  have hpiece : quotedPiece? '\'' c = some (.text ['\''] (c.skip 2)) := by
    simp [quotedPiece?, hrest, isGap, isBreak]
  exact piece hpiece (List.cons_ne_nil _ _) (le_refl _) (h _ (by simp [Cursor.skip, hrest]))

/-- Several breaks are read as they are if the first one is no newline, which would be folded. -/
theorem breaks {b : Char} {breaks : List Char} {indent : Nat}
    (hbreaks : ∀ y ∈ b :: breaks, isBreak y = true ∧ isPrintable y = true) (hb : b ≠ '\n')
    (hrest : c.rest = b :: breaks ++ (Yaml.spaces (indent + 1) ++ line))
    (hline : ∀ y ∈ line.head?, endsWord (some y) = false)
    (h : ∀ next : Cursor, next.rest = line → Reads quote next cs more) :
    Reads quote c (b :: breaks ++ cs) more := by
  obtain ⟨hbreak, hprint⟩ := hbreaks b (List.mem_cons_self ..)
  have hspan : c.span isGap = ([], c) := Cursor.span_of_isBreak hbreak hrest
  have hread : c.break? = some (b, c.nextLine 1) :=
    Cursor.break?_of_isPrintable hbreak hprint hrest
  have hafter : (c.nextLine 1).rest = breaks ++ (Yaml.spaces (indent + 1) ++ line) :=
    Cursor.rest_nextLine hrest
  obtain ⟨next, hlines, hnext, hcolumn, hnextLine⟩ :=
    Cursor.blankLines_eq breaks 0 (fun y hy => hbreaks y (List.mem_cons_of_mem _ hy)) hline hafter
  have hmarker : next.atDocumentMarker = false := by
    apply Cursor.atDocumentMarker_eq_false
    omega
  have hpiece : quotedPiece? quote c = some (.text (b :: breaks) next) := by
    simp [quotedPiece?, hrest, hbreak, hspan, hread, hlines, hmarker, Cursor.folded, hb]
  have hless : c.line ≤ next.line := by
    rw [hnextLine]
    simp only [Cursor.nextLine]
    omega
  exact piece hpiece (List.cons_ne_nil _ _) hless (h next hnext)

theorem escape {letter : Char} {code : List Char}
    (hrest : c.rest = '\\' :: letter :: (code ++ line)) (hletter : isBreak letter = false)
    (hescape : escape? (letter :: (code ++ line)) = some (x, code.length + 1))
    (h : ∀ next : Cursor, next.rest = line → Reads '"' next cs more) :
    Reads '"' c (x :: cs) more := by
  have hbreak : (c.skip 1).break? = none := by
    apply Cursor.break?_eq_none
    simp [Cursor.skip, hrest, hletter]
  have hpiece : quotedPiece? '"' c = some (.text [x] (c.skip (code.length + 2))) := by
    simp [quotedPiece?, hrest, isGap, isBreak, hbreak, hescape]
  exact piece hpiece (List.cons_ne_nil _ _) (le_refl _) (h _ (by simp [Cursor.skip, hrest]))

end Reads

/-! ## Single quotes -/

/-- In single quotes a quote is written twice. -/
def doubled (c : Char) : List Char := if c = '\'' then ['\'', '\''] else [c]

/-- A text whose breaks are no newlines and do not touch spaces. -/
structure SingleText (cs : List Char) : Prop where
  shown : ∀ x ∈ cs, isPrintable x = true ∧ x ≠ '\n'
  spaceBefore : ∀ front b back, cs = front ++ ' ' :: b :: back → isBreak b = false
  spaceBehind : ∀ front b back, cs = front ++ b :: ' ' :: back → isBreak b = false

theorem SingleText.of_append {front back : List Char} (h : SingleText (front ++ back)) :
    SingleText back where
  shown := fun x hx => h.shown x (List.mem_append_right _ hx)
  spaceBefore := fun before b after heq => by
    refine h.spaceBefore (front ++ before) b after ?_
    rw [heq, List.append_assoc]
  spaceBehind := fun before b after heq => by
    refine h.spaceBehind (front ++ before) b after ?_
    rw [heq, List.append_assoc]

theorem not_pair_of_hasPair {p q : Char → Bool} (h : TextForm.hasPair p q cs = false) :
    ∀ front a b back, cs = front ++ a :: b :: back → p a = true → q b = false := by
  induction cs with
  | nil => simp
  | cons c cs ih =>
    intro front a b back heq ha
    cases cs with
    | nil =>
      have hlength := congrArg List.length heq
      simp only [List.length_cons, List.length_nil, List.length_append] at hlength
      omega
    | cons d cs =>
      simp only [TextForm.hasPair, Bool.or_eq_false_iff, Bool.and_eq_false_iff] at h
      cases front with
      | nil =>
        obtain ⟨rfl, htail⟩ := List.cons.inj heq
        obtain ⟨rfl, -⟩ := List.cons.inj htail
        exact h.1.resolve_left (by simp [ha])
      | cons _ front => exact ih h.2 front a b back (List.tail_eq_of_cons_eq heq) ha

theorem SingleText.of_allowsSingle (h : TextForm.allowsSingle cs = true) (hline : '\n' ∉ cs) :
    SingleText cs := by
  simp only [TextForm.allowsSingle, TextForm.needsEscapes, Bool.and_eq_true, Bool.not_eq_true',
    Bool.or_eq_false_iff, Bool.not_eq_false', List.all_eq_true] at h
  obtain ⟨⟨hshown, hbefore⟩, hbehind⟩ := h
  refine ⟨fun x hx => ⟨hshown x hx, ?_⟩, fun front b back heq => ?_, fun front b back heq => ?_⟩
  · rintro rfl
    exact hline hx
  · exact not_pair_of_hasPair hbefore front ' ' b back heq (by decide)
  · by_contra hbreak
    have hspace := not_pair_of_hasPair hbehind front b ' ' back heq (by simpa using hbreak)
    exact absurd hspace (by decide)

/-! ### Lines in quotes -/

section Lines

variable {indent : Nat} {escape : Char → List Char}

theorem indentLines_breaks_append {breaks : List Char}
    (h : ∀ y ∈ breaks, isBreak y = true) (hne : breaks ≠ []) (atStart : Bool) :
    indentLines indent escape atStart (breaks ++ cs)
      = breaks ++ indentLines indent escape true cs := by
  induction breaks generalizing atStart with
  | nil => exact absurd rfl hne
  | cons b breaks ih =>
    rw [List.cons_append, indentLines, if_pos (h b (List.mem_cons_self ..)), List.cons_append]
    cases breaks with
    | nil => rfl
    | cons d breaks => rw [ih (fun y hy => h y (List.mem_cons_of_mem _ hy)) (List.cons_ne_nil _ _)]

/-- A line that holds something is indented, and so is the end. -/
theorem indentLines_true (h : ∀ y ∈ cs.head?, isBreak y = false) :
    indentLines indent escape true cs = spaces indent ++ indentLines indent escape false cs := by
  cases cs with
  | nil => simp [indentLines]
  | cons y cs => simp [indentLines, h y rfl]

theorem indentLines_cons (hx : isBreak x = false) :
    indentLines indent escape false (x :: cs) = escape x ++ indentLines indent escape false cs := by
  simp [indentLines, hx]

theorem indentLines_spaces_append (hescape : escape ' ' = [' ']) (n : Nat) :
    indentLines indent escape false (spaces n ++ cs)
      = spaces n ++ indentLines indent escape false cs := by
  induction n with
  | zero => rfl
  | succ n ih =>
    rw [spaces_succ, List.cons_append, indentLines_cons (by decide), hescape, ih]
    rfl

theorem length_le_indentLines (hescape : ∀ y, 0 < (escape y).length) (atStart : Bool) :
    cs.length ≤ (indentLines indent escape atStart cs).length := by
  induction cs generalizing atStart with
  | nil => exact Nat.zero_le _
  | cons y cs ih =>
    rw [indentLines, List.length_cons]
    split
    · exact Nat.succ_le_succ (ih true)
    · have hy := hescape y
      have hcs := ih false
      simp only [List.length_append]
      omega

theorem isPrintable_of_mem_indentation (atStart : Bool) :
    ∀ z ∈ (if atStart then spaces indent else []), isPrintable z = true := by
  intro z hz
  split at hz
  · rw [(mem_spaces.mp hz).2]
    decide
  · cases hz

theorem isPrintable_of_mem_indentLines
    (h : ∀ y ∈ cs, isPrintable y = true ∧ ∀ z ∈ escape y, isPrintable z = true) (atStart : Bool) :
    ∀ z ∈ indentLines indent escape atStart cs, isPrintable z = true := by
  induction cs generalizing atStart with
  | nil => exact isPrintable_of_mem_indentation atStart
  | cons y cs ih =>
    obtain ⟨hy, hescape⟩ := h y (List.mem_cons_self ..)
    have hcs (atStart : Bool) := ih (fun w hw => h w (List.mem_cons_of_mem _ hw)) atStart
    intro z hz
    rw [indentLines] at hz
    split at hz
    · rcases List.mem_cons.mp hz with rfl | hrest
      · exact hy
      · exact hcs true z hrest
    · rcases List.mem_append.mp hz with hfront | hrest
      · rcases List.mem_append.mp hfront with hspace | hshown
        · exact isPrintable_of_mem_indentation atStart z hspace
        · exact hescape z hshown
      · exact hcs false z hrest

/-- Where a piece of a text ends, so does the piece of its line. -/
theorem endsWord_head?_indentLines_doubled (h : ∀ y ∈ cs.head?, endsWord (some y) = false) :
    ∀ y ∈ (indentLines indent doubled false cs ++ '\'' :: more).head?,
      endsWord (some y) = false := by
  have hquote : endsWord (some '\'') = false := by decide
  cases cs with
  | nil => simpa [indentLines] using hquote
  | cons x cs =>
    have hx : endsWord (some x) = false := h x rfl
    rw [indentLines_cons (endsWord_some_eq_false_iff.mp hx).2, doubled]
    split
    · simpa using hquote
    · simpa using hx

end Lines

/-- No break stands behind spaces. -/
theorem SingleText.endsWord_head? {n : Nat} {rest : List Char}
    (h : SingleText (Yaml.spaces (n + 1) ++ rest)) (hrest : ∀ y ∈ rest.head?, isGap y = false) :
    ∀ y ∈ rest.head?, endsWord (some y) = false := by
  intro y hy
  obtain ⟨back, rfl⟩ := List.head?_eq_some_iff.mp hy
  refine endsWord_some_eq_false_iff.mpr ⟨hrest y hy, h.spaceBefore (Yaml.spaces n) y back ?_⟩
  rw [spaces_succ', List.append_assoc]
  rfl

/-- A break starts a run of breaks, behind which no space comes. -/
theorem SingleText.exists_breaks {back : List Char} (h : SingleText (x :: back))
    (hx : isBreak x = true) :
    ∃ breaks rest, back = breaks ++ rest ∧ (∀ y ∈ x :: breaks, isBreak y = true) ∧
      ∀ y ∈ rest.head?, endsWord (some y) = false := by
  obtain ⟨breaks, rest, rfl, hbreaks, hrest⟩ := exists_run isBreak back
  have hall : ∀ y ∈ x :: breaks, isBreak y = true := by simpa [hx] using hbreaks
  refine ⟨breaks, rest, rfl, hall, fun y hy => ?_⟩
  cases rest with
  | nil => cases hy
  | cons z rest =>
    obtain rfl : z = y := Option.some.inj hy
    refine endsWord_some_eq_false_iff.mpr ⟨?_, hrest z rfl⟩
    by_contra hgap
    have hspace : z = ' ' := by
      refine eq_space_of_isGap (h.shown z ?_).1 (by simpa using hgap)
      exact List.mem_cons_of_mem _ (List.mem_append_right _ (List.mem_cons_self ..))
    -- the space would touch the last of the breaks
    obtain ⟨init, last, heq⟩ : ∃ init last, x :: breaks = init ++ [last] :=
      (List.eq_nil_or_concat' (x :: breaks)).resolve_left (List.cons_ne_nil _ _)
    have hlast : isBreak last = true :=
      hall last (heq ▸ List.mem_append_right _ (List.mem_singleton_self _))
    have hnot : isBreak last = false := by
      refine h.spaceBehind init last rest ?_
      rw [hspace, ← List.cons_append, heq, List.append_assoc]
      rfl
    rw [hlast] at hnot
    cases hnot

/-- The rest of a text in single quotes is read piece by piece. -/
theorem reads_single {indent : Nat} (hmore : more.head? ≠ some '\'') (h : SingleText cs)
    (hrest : c.rest = indentLines (indent + 1) doubled false cs ++ '\'' :: more) :
    Reads '\'' c cs more := by
  -- by induction on the length: a piece may be a run of spaces or of breaks
  induction hlength : cs.length using Nat.strong_induction_on generalizing cs c with
  | _ length ih =>
    obtain ⟨n, rest, rfl, hstop⟩ := exists_spaces fun y hy => (h.shown y hy).1
    have hnext {run cs' : List Char} (hcs : spaces n ++ rest = run ++ cs') (hne : run ≠ [])
        (next : Cursor)
        (hnext : next.rest = indentLines (indent + 1) doubled false cs' ++ '\'' :: more) :
        Reads '\'' next cs' more := by
      have hpos : 0 < run.length := List.length_pos_iff.mpr hne
      have hsum := congrArg List.length hcs
      rw [@List.length_append _ run] at hsum
      exact ih cs'.length (by omega) (SingleText.of_append (hcs ▸ h)) hnext rfl
    cases n with
    | succ n =>
      rw [indentLines_spaces_append rfl, List.append_assoc] at hrest
      exact .spaces hrest (endsWord_head?_indentLines_doubled (h.endsWord_head? hstop))
        (hnext rfl (List.cons_ne_nil _ _))
    | zero =>
      rw [show spaces 0 = [] from rfl, List.nil_append] at *
      cases rest with
      | nil => exact .stop hrest (by decide) fun _ => hmore
      | cons x back =>
        cases hx : isBreak x with
        | true =>
          obtain ⟨breaks, rest, rfl, hbreaks, hends⟩ := h.exists_breaks hx
          have hends' : ∀ y ∈ rest.head?, isBreak y = false := fun y hy =>
            (endsWord_some_eq_false_iff.mp (hends y hy)).2
          rw [← List.cons_append] at h hrest ⊢
          rw [indentLines_breaks_append hbreaks (List.cons_ne_nil _ _),
            indentLines_true hends', List.append_assoc, List.append_assoc] at hrest
          exact .breaks (fun y hy => ⟨hbreaks y hy, (h.shown y (List.mem_append_left _ hy)).1⟩)
            (h.shown x (List.mem_cons_self ..)).2 hrest (endsWord_head?_indentLines_doubled hends)
            (hnext rfl (List.cons_ne_nil _ _))
        | false =>
          have hback := hnext (show x :: back = [x] ++ back from rfl) (List.cons_ne_nil _ _)
          rw [indentLines_cons hx, doubled] at hrest
          by_cases hquote : x = '\''
          · rw [hquote, if_pos rfl] at hrest
            rw [hquote]
            exact .doubledQuote hrest hback
          · rw [if_neg hquote] at hrest
            exact .char hrest (endsWord_some_eq_false_iff.mpr ⟨hstop x rfl, hx⟩) hquote
              (fun hdouble => absurd hdouble (by decide)) hback

theorem quoted?_singleQuoted {indent : Nat} (hmore : more.head? ≠ some '\'') (h : SingleText cs)
    (hrest : c.rest = singleQuoted (indent + 1) cs ++ more) :
    ∃ next, quoted? c = some (cs, next) ∧ next.rest = more ∧ c.line ≤ next.line := by
  have hquoted : c.rest = '\'' :: (indentLines (indent + 1) doubled false cs ++ '\'' :: more) := by
    rw [hrest, singleQuoted, List.append_assoc]
    rfl
  have hstart := Cursor.rest_skip_one hquoted
  have hpieces : cs.length
      < (indentLines (indent + 1) doubled false cs ++ '\'' :: more).length + 1 := by
    have hlines : cs.length ≤ (indentLines (indent + 1) doubled false cs).length := by
      refine length_le_indentLines (fun y => ?_) false
      unfold doubled
      split
      · exact Nat.succ_pos _
      · exact Nat.succ_pos _
    rw [List.length_append]
    omega
  rw [quoted?, hquoted]
  exact reads_single hmore h hstart _ [] hpieces

/-! ## Double quotes -/

theorem isPrintable_of_mem_hexDigits {width n : Nat} {z : Char} (hz : z ∈ hexDigits width n) :
    isPrintable z = true := by
  have hdigits : ∀ d < 16, isPrintable d.digitChar.toUpper = true := by decide
  rcases List.mem_append.mp hz with hzero | hdigit
  · rw [(List.mem_replicate.mp hzero).2]
    decide
  · obtain ⟨y, hy, rfl⟩ := List.mem_map.mp hdigit
    obtain ⟨d, hd, rfl⟩ := exists_digit_of_mem_toDigits (by decide) hy
    exact hdigits d hd

theorem isPrintable_of_mem_escapeInDouble (x : Char) :
    ∀ z ∈ escapeInDouble x, isPrintable z = true := by
  have hhex (letter : Char) (width n : Nat) (hletter : isPrintable letter = true) :
      ∀ z ∈ '\\' :: letter :: hexDigits width n, isPrintable z = true := by
    intro z hz
    rcases List.mem_cons.mp hz with rfl | hz
    · decide
    · rcases List.mem_cons.mp hz with rfl | hz
      · exact hletter
      · exact isPrintable_of_mem_hexDigits hz
  unfold escapeInDouble
  split
  · exact List.all_eq_true.mp (by decide)
  · split
    · exact List.all_eq_true.mp (by decide)
    · split
      · rename_i hshown
        rw [Bool.and_eq_true] at hshown
        intro z hz
        rw [List.mem_singleton.mp hz]
        exact hshown.1
      · split
        any_goals
          apply List.all_eq_true.mp
          decide
        dsimp only
        split
        · exact hhex 'x' 2 _ (by decide)
        · exact hhex 'u' 4 _ (by decide)

theorem length_hexDigits {width n : Nat} (hwidth : 0 < width) (hn : n < 16 ^ width) :
    (hexDigits width n).length = width := by
  have hdigits : (Nat.toDigits 16 n).length ≤ width :=
    (Nat.length_toDigits_le_iff (by decide) hwidth).mpr hn
  simp only [hexDigits, List.length_append, List.length_replicate, List.length_map]
  omega

theorem digits?_hexDigits (width n : Nat) : digits? 16 (hexDigits width n) = some n := by
  have hne : (Nat.toDigits 16 n).map Char.toUpper ≠ [] :=
    mt List.map_eq_nil_iff.mp Nat.toDigits_ne_nil
  rw [hexDigits, digits?_replicate_zero_append hne,
    digits?_map_toDigits _ (by decide) digit?_digitChar]

/-- The digits of a character read back. -/
theorem escape?_hexDigits {letter : Char} {width : Nat}
    (hletter : escapeDigits? letter = some width) (hwidth : 0 < width)
    (hx : x.toNat < 16 ^ width) (more : List Char) :
    escape? (letter :: (hexDigits width x.toNat ++ more))
      = some (x, (hexDigits width x.toNat).length + 1) := by
  have hlength := length_hexDigits hwidth hx
  have htake : (hexDigits width x.toNat ++ more).take width = hexDigits width x.toNat := by
    rw [List.take_append_of_le_length (le_of_eq hlength.symm),
      List.take_of_length_le (le_of_eq hlength)]
  have hvalid : x.toNat.isValidChar := x.valid
  simp [escape?, hletter, hlength, htake, digits?_hexDigits, hvalid]

/-- In double quotes a character stands for itself or is escaped. -/
theorem escapeInDouble_cases (hx : x ≠ ' ') :
    (escapeInDouble x = [x] ∧ endsWord (some x) = false ∧ x ≠ '"' ∧ x ≠ '\\') ∨
      ∃ letter code, escapeInDouble x = '\\' :: letter :: code ∧ isBreak letter = false ∧
        ∀ more, escape? (letter :: (code ++ more)) = some (x, code.length + 1) := by
  unfold escapeInDouble
  split
  · rename_i hquote
    exact .inr ⟨'"', [], rfl, by decide, by simp [hquote, escape?, escapeDigits?, shortEscape?]⟩
  · split
    · rename_i hslash
      exact .inr ⟨'\\', [], rfl, by decide, by simp [hslash, escape?, escapeDigits?, shortEscape?]⟩
    · split
      · rename_i hquote hslash hshown
        simp only [Bool.and_eq_true, Bool.not_eq_true'] at hshown
        refine .inl ⟨rfl, endsWord_some_eq_false_iff.mpr ⟨?_, hshown.2⟩, hquote, hslash⟩
        by_contra hgap
        exact hx (eq_space_of_isGap hshown.1 (by simpa using hgap))
      · -- one case for each character with a short escape, and one for the others
        rename_i hshown
        refine .inr ?_
        split
        any_goals exact ⟨_, [], rfl, by decide, fun _ => rfl⟩
        rename_i hnewline _ _ _ _ _ hline hparagraph
        -- all printable breaks have an escape of their own
        have hprint : isPrintable x = false := by
          by_contra hprint
          rw [Bool.not_eq_false] at hprint
          have hbreak : isBreak x = true := by simpa [hprint] using hshown
          obtain heq | heq | heq := (isBreak_iff_of_isPrintable hprint).mp hbreak
          · exact hnewline heq
          · exact hline heq
          · exact hparagraph heq
        have hsmall : x.toNat < 0x10000 := by
          simp only [isPrintable, Bool.or_eq_false_iff, decide_eq_false_iff_not] at hprint
          omega
        by_cases hbyte : x.toNat ≤ 0xFF
        · refine ⟨'x', hexDigits 2 x.toNat, by simp only [hbyte, if_true], by decide, ?_⟩
          exact escape?_hexDigits rfl (by decide) (by omega)
        · refine ⟨'u', hexDigits 4 x.toNat, by simp only [hbyte, if_false], by decide, ?_⟩
          exact escape?_hexDigits rfl (by decide) (by omega)

theorem length_le_flatMap_escapeInDouble (cs : List Char) :
    cs.length ≤ (cs.flatMap escapeInDouble).length := by
  induction cs with
  | nil => exact Nat.zero_le _
  | cons x cs ih =>
    have hpos : 0 < (escapeInDouble x).length := by
      by_cases hx : x = ' '
      · rw [hx]
        decide
      · rcases escapeInDouble_cases hx with ⟨hescape, -⟩ | ⟨letter, code, hescape, -⟩
        · rw [hescape]
          exact Nat.succ_pos _
        · rw [hescape]
          exact Nat.succ_pos _
    rw [List.flatMap_cons, List.length_append, List.length_cons]
    omega

/-- Where a run of spaces ends, so does the piece of its line. -/
theorem endsWord_head?_escapeInDouble (h : cs.head? ≠ some ' ') :
    ∀ y ∈ (cs.flatMap escapeInDouble ++ '"' :: more).head?, endsWord (some y) = false := by
  cases cs with
  | nil =>
    have hquote : endsWord (some '"') = false := by decide
    simpa using hquote
  | cons x cs =>
    have hx : x ≠ ' ' := fun heq => h (congrArg some heq)
    rcases escapeInDouble_cases hx with ⟨hescape, hword, -⟩ | ⟨letter, code, hescape, -⟩
    · simpa [List.flatMap_cons, hescape] using hword
    · have hslash : endsWord (some '\\') = false := by decide
      simpa [List.flatMap_cons, hescape] using hslash

/-- The rest of a text in double quotes is read piece by piece. -/
theorem reads_double (hrest : c.rest = cs.flatMap escapeInDouble ++ '"' :: more) :
    Reads '"' c cs more := by
  -- by induction on the length, because spaces are read as one piece
  induction hlength : cs.length using Nat.strong_induction_on generalizing cs c with
  | _ length ih =>
    obtain ⟨run, rest, rfl, hrun, hstop⟩ := exists_run (· == ' ') cs
    have hspaces : run = spaces run.length :=
      List.eq_replicate_iff.mpr ⟨rfl, fun x hx => by simpa using hrun x hx⟩
    cases hcount : run.length with
    | succ n =>
      rw [hcount] at hspaces
      have hshown : (spaces (n + 1)).flatMap escapeInDouble = spaces (n + 1) := by
        have hspace : escapeInDouble ' ' = [' '] := by decide
        simp [spaces, List.flatMap_replicate, hspace]
      rw [List.flatMap_append, List.append_assoc, hspaces, hshown] at hrest
      have hhead : rest.head? ≠ some ' ' := fun heq => absurd (hstop ' ' heq) (by decide)
      rw [hspaces]
      refine .spaces hrest (endsWord_head?_escapeInDouble hhead) fun next hnext => ?_
      rw [List.length_append] at hlength
      exact ih rest.length (by omega) hnext rfl
    | zero =>
      rw [List.length_eq_zero_iff.mp hcount, List.nil_append] at hrest hlength ⊢
      cases rest with
      | nil => exact .stop hrest (by decide) fun heq => absurd heq (by decide)
      | cons x back =>
        have hx : x ≠ ' ' := by simpa using hstop x rfl
        have hback : ∀ next : Cursor, next.rest = back.flatMap escapeInDouble ++ '"' :: more →
            Reads '"' next back more := fun next hnext =>
          ih back.length (hlength ▸ Nat.lt_succ_self _) hnext rfl
        rw [List.flatMap_cons, List.append_assoc] at hrest
        rcases escapeInDouble_cases hx with
          ⟨hshown, hword, hquote, hslash⟩ | ⟨letter, code, hshown, hletter, hescape⟩
        · rw [hshown] at hrest
          exact .char hrest hword hquote (fun _ => hslash) hback
        · rw [hshown] at hrest
          exact .escape hrest hletter (hescape _) hback

theorem quoted?_doubleQuoted (hrest : c.rest = doubleQuoted cs ++ more) :
    ∃ next, quoted? c = some (cs, next) ∧ next.rest = more ∧ c.line ≤ next.line := by
  have hquoted : c.rest = '"' :: (cs.flatMap escapeInDouble ++ '"' :: more) := by
    rw [hrest, doubleQuoted, List.append_assoc]
    rfl
  have hstart := Cursor.rest_skip_one hquoted
  have hpieces : cs.length < (cs.flatMap escapeInDouble ++ '"' :: more).length + 1 := by
    have hlines := length_le_flatMap_escapeInDouble cs
    rw [List.length_append]
    omega
  rw [quoted?, hquoted]
  exact reads_double hstart _ [] hpieces

end Lineage.Yaml
