import Lineage.Proofs.Yaml.Quoted
import Lineage.Yaml.BlockScalar

/-!
# Blocks of lines

A block is read line by line, with the empty lines behind each. Its lines stand at the indentation
of the block, which its first line shows or its header gives, and it ends where a line is indented
less. The header also says which of the breaks at the end belong to the text.

## Main definitions

- `BlockText`: what is kept of the text of a block from one line to the next
- `closed`: a text with a break at its end

## Main statements

- `emptyLines?_eq`: how far empty lines and indentation are skipped
- `block?_eq`: the text of a block reads as itself
-/

namespace Lineage.Yaml

variable {c : Cursor} {cs more tail : List Char} {x : Char}

/-! ## Empty lines -/

/-- In front of a word as many spaces are skipped as the block is indented by. -/
theorem emptyLines?_spaces (indent : Option Nat) {n : Nat}
    (hmore : ∀ y ∈ more.head?, endsWord (some y) = false) (hcolumn : c.column = 0)
    (hrest : c.rest = spaces n ++ more) (widest : Nat) :
    emptyLines? indent widest c
        = some ⟨[], max widest (indent.elim n (min n)), c.skip (indent.elim n (min n))⟩ ∧
      (c.skip (indent.elim n (min n))).rest = spaces (n - indent.elim n (min n)) ++ more := by
  have hcount : (c.rest.takeWhile (· = ' ')).length = n := by
    have hspaces : ∀ y ∈ spaces n, decide (y = ' ') = true := fun y hy =>
      decide_eq_true (mem_spaces.mp hy).2
    have hrun := Cursor.span_eq (p := (· = ' ')) hrest hspaces fun y hy => by
      rw [decide_eq_false_iff_not]
      rintro rfl
      exact absurd (hmore ' ' hy) (by decide)
    rw [show c.rest.takeWhile (· = ' ') = spaces n from congrArg Prod.fst hrun, length_spaces]
  have helim : indent.elim n (fun m => min n (m - c.column)) = indent.elim n (min n) := by
    cases indent <;> simp [hcolumn]
  have hle : indent.elim n (min n) ≤ n := by
    cases indent with
    | none => exact le_refl n
    | some m => exact Nat.min_le_left n m
  generalize indent.elim n (min n) = m at helim hle ⊢
  have hnext : (c.skip m).rest = spaces (n - m) ++ more := by
    have hsplit : spaces n = spaces m ++ spaces (n - m) := by
      rw [← spaces_add, Nat.add_sub_cancel' hle]
    rw [hsplit, List.append_assoc] at hrest
    exact Cursor.rest_skip_spaces hrest
  have hhead : ∀ y ∈ (spaces (n - m) ++ more).head?, y ≠ '\t' ∧ isBreak y = false := by
    cases n - m with
    | zero =>
      intro y hy
      obtain ⟨hgap, hbreak⟩ := endsWord_some_eq_false_iff.mp (hmore y hy)
      refine ⟨?_, hbreak⟩
      rintro rfl
      exact absurd hgap (by decide)
    | succ k =>
      intro y hy
      obtain rfl : ' ' = y := Option.some.inj hy
      decide
  have hbreak : (c.skip m).break? = none := by
    apply Cursor.break?_eq_none
    rw [hnext]
    exact fun y hy => (hhead y hy).2
  have hpeek : (c.skip m).peek ≠ some '\t' := by
    rw [Cursor.peek, hnext]
    exact fun htab => (hhead '\t' htab).1 rfl
  refine ⟨?_, hnext⟩
  rw [emptyLines?, hcount, helim, if_neg fun h => hpeek h.1]
  split
  · simp [Cursor.skip, hcolumn]
  · rename_i heq
    rw [hbreak] at heq
    cases heq

/-- A break is skipped alone. -/
theorem emptyLines?_break (indent : Option Nat) {b : Char} (hb : isBreak b = true)
    (hprint : isPrintable b = true) (hcolumn : c.column = 0) (hrest : c.rest = b :: more)
    (widest : Nat) :
    emptyLines? indent widest c
      = (emptyLines? indent widest (c.nextLine 1)).map fun e =>
          { e with breaks := b :: e.breaks } := by
  have hspace : b ≠ ' ' := by
    rintro rfl
    exact absurd hb (by decide)
  have htab : b ≠ '\t' := by
    rintro rfl
    exact absurd hb (by decide)
  have hskip : c.skip 0 = c := rfl
  have hcount : (c.rest.takeWhile (· = ' ')).length = 0 := by simp [hrest, hspace]
  have hbreak : c.break? = some (b, c.nextLine 1) := Cursor.break?_of_isPrintable hb hprint hrest
  have hpeek : c.peek ≠ some '\t' := by simp [Cursor.peek, hrest, htab]
  have hzero : indent.elim 0 (fun m => min 0 (m - c.column)) = 0 := by
    cases indent <;> simp
  rw [emptyLines?, hcount, hzero, hskip, if_neg fun h => hpeek h.1]
  split
  · rename_i heq
    rw [hbreak] at heq
    cases heq
  · rename_i heq
    rw [hbreak] at heq
    cases heq
    rw [hcolumn, Nat.max_zero]
    cases emptyLines? indent widest (c.nextLine 1) with
    | none => rfl
    | some lines => rfl

/-- Breaks are skipped one by one, and as many spaces behind them as the block is indented by. -/
theorem emptyLines?_eq (indent : Option Nat) {n : Nat} (breaks : List Char)
    (hbreaks : ∀ y ∈ breaks, isBreak y = true ∧ isPrintable y = true)
    (hmore : ∀ y ∈ more.head?, endsWord (some y) = false) (hcolumn : c.column = 0)
    (hrest : c.rest = breaks ++ (spaces n ++ more)) (widest : Nat) :
    ∃ next, emptyLines? indent widest c
        = some ⟨breaks, max widest (indent.elim n (min n)), next⟩ ∧
      next.column = indent.elim n (min n) ∧
      next.rest = spaces (n - indent.elim n (min n)) ++ more ∧
      next.line = c.line + breaks.length := by
  induction breaks generalizing c with
  | nil =>
    obtain ⟨hlines, hnext⟩ := emptyLines?_spaces indent hmore hcolumn hrest widest
    exact ⟨_, hlines, by simp [Cursor.skip, hcolumn], hnext, rfl⟩
  | cons b breaks ih =>
    obtain ⟨hb, hprint⟩ := hbreaks b (List.mem_cons_self ..)
    obtain ⟨next, hlines, hnextColumn, hnextRest, hline⟩ :=
      ih (fun y hy => hbreaks y (List.mem_cons_of_mem _ hy)) rfl (Cursor.rest_nextLine hrest)
    refine ⟨next, ?_, hnextColumn, hnextRest, ?_⟩
    · rw [emptyLines?_break indent hb hprint hcolumn hrest, hlines]
      rfl
    · rw [hline, List.length_cons]
      simp only [Cursor.nextLine]
      omega

/-! ## Lines -/

/-- The rest of a text whose last line is ended by a break. -/
structure BlockText (cs : List Char) : Prop where
  shown : ∀ y ∈ cs, isPrintable y = true
  spaceBefore : ∀ front b back, cs = front ++ ' ' :: b :: back → isBreak b = false
  ends : ∀ y ∈ cs.getLast?, isBreak y = true

theorem BlockText.of_append (front : List Char) {back : List Char} (h : BlockText (front ++ back)) :
    BlockText back where
  shown := fun y hy => h.shown y (List.mem_append_right _ hy)
  spaceBefore := fun before b after heq => by
    refine h.spaceBefore (front ++ before) b after ?_
    rw [heq, List.append_assoc]
  ends := fun y hy => by
    apply h.ends
    cases back with
    | nil => cases hy
    | cons b back => rwa [List.getLast?_append_of_ne_nil _ (List.cons_ne_nil _ _)]

section BlockLines

variable {indent : Nat}

theorem blockLines_breaks_append {breaks : List Char} (h : ∀ y ∈ breaks, isBreak y = true) :
    blockLines indent true (breaks ++ cs) = breaks ++ blockLines indent true cs := by
  induction breaks with
  | nil => rfl
  | cons b breaks ih =>
    rw [List.cons_append, blockLines, if_pos (h b (List.mem_cons_self ..)),
      ih fun y hy => h y (List.mem_cons_of_mem _ hy)]
    rfl

theorem blockLines_line_append {line : List Char} (h : ∀ y ∈ line, isBreak y = false) :
    blockLines indent false (line ++ cs) = line ++ blockLines indent false cs := by
  induction line with
  | nil => rfl
  | cons y line ih =>
    have hy : isBreak y = false := h y (List.mem_cons_self ..)
    rw [List.cons_append, blockLines, hy, ih fun z hz => h z (List.mem_cons_of_mem _ hz)]
    rfl

theorem blockLines_true_cons (hx : isBreak x = false) :
    blockLines indent true (x :: cs) = spaces indent ++ blockLines indent false (x :: cs) := by
  simp [blockLines, hx]

theorem blockLines_false_break {b : Char} (hb : isBreak b = true) :
    blockLines indent false (b :: cs) = b :: blockLines indent true cs := by
  simp [blockLines, hb]

theorem isPrintable_of_mem_blockLines (h : ∀ y ∈ cs, isPrintable y = true) (atStart : Bool) :
    ∀ z ∈ blockLines indent atStart cs, isPrintable z = true := by
  induction cs generalizing atStart with
  | nil => simp [blockLines]
  | cons y cs ih =>
    have hy : isPrintable y = true := h y (List.mem_cons_self ..)
    have hcs (atStart : Bool) := ih (fun w hw => h w (List.mem_cons_of_mem _ hw)) atStart
    intro z hz
    rw [blockLines] at hz
    split at hz
    · rcases List.mem_cons.mp hz with rfl | hrest
      · exact hy
      · exact hcs true z hrest
    · rcases List.mem_append.mp hz with hspace | hrest
      · exact isPrintable_of_mem_indentation atStart z hspace
      · rcases List.mem_cons.mp hrest with rfl | hrest
        · exact hy
        · exact hcs false z hrest

end BlockLines

/-- A line that is not empty holds more than spaces. -/
theorem BlockText.exists_word {y : Char} {back : List Char} (h : BlockText (y :: back))
    (hy : isBreak y = false) :
    ∃ n z rest, y :: back = spaces n ++ z :: rest ∧ endsWord (some z) = false := by
  obtain ⟨n, rest, heq, hrest⟩ := exists_spaces h.shown
  cases rest with
  | nil =>
    -- the text would end with a space
    cases n with
    | zero => cases heq
    | succ n =>
      have hlast : (y :: back).getLast? = some ' ' := by
        rw [heq, List.append_nil, spaces, List.getLast?_replicate]
        rfl
      exact absurd (h.ends ' ' hlast) (by decide)
  | cons z rest =>
    refine ⟨n, z, rest, heq, endsWord_some_eq_false_iff.mpr ⟨hrest z rfl, ?_⟩⟩
    cases n with
    | zero =>
      obtain ⟨rfl, -⟩ := List.cons.inj heq
      exact hy
    | succ n =>
      refine h.spaceBefore (spaces n) z rest ?_
      rw [heq, spaces_succ', List.append_assoc]
      rfl

theorem blockLines_spaces_append {indent n : Nat} {z : Char} {rest : List Char}
    (hz : isBreak z = false) :
    blockLines indent false (spaces n ++ z :: rest)
      = spaces n ++ z :: blockLines indent false rest := by
  have hline : ∀ w ∈ spaces n ++ [z], isBreak w = false := by
    intro w hw
    rcases List.mem_append.mp hw with hspace | hlast
    · rw [(mem_spaces.mp hspace).2]
      decide
    · rwa [List.mem_singleton.mp hlast]
  rw [← List.singleton_append, ← List.append_assoc, blockLines_line_append hline, List.append_assoc]
  rfl

/-- Behind a break come the empty lines, and then a line of the block or what follows it. -/
theorem exists_emptyLines {limit indent : Nat} (h : BlockText cs) (hfollows : Follows limit tail)
    (hlimit : limit < indent) (hcolumn : c.column = 0)
    (hrest : c.rest = blockLines indent true cs ++ tail) (widest : Nat) :
    ∃ breaks lines w next, cs = breaks ++ lines ∧ (∀ y ∈ breaks, isBreak y = true) ∧
      emptyLines? (some indent) widest c = some ⟨breaks, w, next⟩ ∧ c.line ≤ next.line ∧
      (lines = [] ∧ next.OnLine tail ∧ next.column < indent ∨
        (∃ y back, lines = y :: back ∧ isBreak y = false) ∧ next.column = indent ∧
          next.rest = blockLines indent false lines ++ tail) := by
  obtain ⟨breaks, lines, rfl, hbreaks, hlines⟩ := exists_run isBreak cs
  have hshown : ∀ y ∈ breaks, isBreak y = true ∧ isPrintable y = true := fun y hy =>
    ⟨hbreaks y hy, h.shown y (List.mem_append_left _ hy)⟩
  rw [blockLines_breaks_append hbreaks, List.append_assoc] at hrest
  cases lines with
  | nil =>
    -- what follows is indented less than the block, so all of its indentation is skipped
    obtain ⟨n, body, rfl, hn, hbody⟩ := hfollows
    obtain ⟨next, hempty, hnextColumn, hnextRest, hline⟩ :=
      emptyLines?_eq (some indent) breaks hshown (fun y hy => endsWord_of_startsLine (hbody y hy))
        hcolumn hrest widest
    have hmin : min n indent = n := Nat.min_eq_left (by omega)
    simp only [Option.elim_some, hmin] at hnextColumn hnextRest
    refine ⟨breaks, [], _, next, rfl, hbreaks, hempty, by omega, .inl ⟨rfl, ?_, by omega⟩⟩
    rw [Cursor.OnLine, hnextColumn, hnextRest, Nat.sub_self]
    rfl
  | cons y back =>
    have hy : isBreak y = false := hlines y rfl
    obtain ⟨n, z, rest, heq, hz⟩ := (h.of_append breaks).exists_word hy
    have hline : blockLines indent false (y :: back)
        = spaces n ++ z :: blockLines indent false rest := by
      rw [heq, blockLines_spaces_append (endsWord_some_eq_false_iff.mp hz).2]
    -- spaces at the start of the line belong to the text
    rw [blockLines_true_cons hy, hline, ← List.append_assoc (spaces indent), ← spaces_add,
      List.append_assoc] at hrest
    obtain ⟨next, hempty, hnextColumn, hnextRest, hnextLine⟩ :=
      emptyLines?_eq (some indent) breaks hshown (by simpa using hz) hcolumn hrest widest
    have hmin : min (indent + n) indent = indent := Nat.min_eq_right (Nat.le_add_right ..)
    simp only [Option.elim_some, hmin, Nat.add_sub_cancel_left] at hnextColumn hnextRest
    refine ⟨breaks, y :: back, _, next, rfl, hbreaks, hempty, by omega,
      .inr ⟨⟨y, back, rfl, hy⟩, hnextColumn, ?_⟩⟩
    rw [hline, hnextRest, List.append_assoc]

/-- What was read of a block, with the breaks behind its last line apart. -/
structure BlockState.Holds (s : BlockState) (cs : List Char) : Prop where
  text : s.read.reverse ++ (s.lastBreak ++ s.emptyBreaks) = cs
  line : ∃ y back, s.read = y :: back ∧ isBreak y = false
  lastBreak : ∃ b, s.lastBreak = [b] ∧ isBreak b = true
  emptyBreaks : ∀ y ∈ s.emptyBreaks, isBreak y = true

/-- A line of a block, and what is left of the text behind it. -/
theorem BlockText.exists_line {y : Char} {back : List Char} (h : BlockText (y :: back))
    (hy : isBreak y = false) :
    ∃ line b rest, y :: back = line ++ b :: rest ∧ line ≠ [] ∧
      (∀ z ∈ line, isBreak z = false) ∧ isBreak b = true := by
  obtain ⟨line, rest, heq, hline, hrest⟩ := exists_run (!isBreak ·) (y :: back)
  have hline' : ∀ z ∈ line, isBreak z = false := by simpa using hline
  cases rest with
  | nil =>
    -- the last character is a break
    obtain ⟨last, hlast⟩ : ∃ last, (y :: back).getLast? = some last :=
      ⟨_, List.getLast?_eq_some_getLast (List.cons_ne_nil _ _)⟩
    have hmem : last ∈ line := by
      rw [heq, List.append_nil] at hlast
      exact List.mem_of_getLast? hlast
    have hbreak := h.ends last hlast
    rw [hline' last hmem] at hbreak
    cases hbreak
  | cons b rest =>
    refine ⟨line, b, rest, heq, ?_, hline', by simpa using hrest b rfl⟩
    rintro rfl
    obtain ⟨rfl, -⟩ := List.cons.inj heq
    have hbreak : isBreak y = true := by simpa using hrest y rfl
    rw [hy] at hbreak
    cases hbreak

/-- The state behind a line with its break, and behind empty lines. -/
def BlockState.behind (s : BlockState) (line : List Char) (b : Char) (breaks : List Char)
    (next : Cursor) : BlockState :=
  ⟨line.reverse ++ (s.lastBreak ++ s.emptyBreaks).reverse ++ s.read, [b], breaks,
    s.next.peek.any isGap, next⟩

theorem BlockState.holds_behind {line breaks : List Char} {b : Char} (hne : line ≠ [])
    (hline : ∀ z ∈ line, isBreak z = false) (hb : isBreak b = true)
    (hbreaks : ∀ z ∈ breaks, isBreak z = true) (s : BlockState) (next : Cursor) :
    (s.behind line b breaks next).Holds
      (s.read.reverse ++ (s.lastBreak ++ s.emptyBreaks) ++ (line ++ b :: breaks)) := by
  refine ⟨by simp [behind], ?_, ⟨b, rfl, hb⟩, hbreaks⟩
  obtain ⟨init, last, rfl⟩ : ∃ init last, line = init ++ [last] :=
    (List.eq_nil_or_concat' line).resolve_left hne
  exact ⟨last, init.reverse ++ (s.lastBreak ++ s.emptyBreaks).reverse ++ s.read, by simp [behind],
    hline last (List.mem_append_right _ (List.mem_singleton_self _))⟩

/-- One line is read with its break and the empty lines behind it. -/
theorem blockLine?_eq {limit indent : Nat} (hfollows : Follows limit tail) (hlimit : limit < indent)
    {line rest : List Char} {b : Char} {s : BlockState} (hline : ∀ z ∈ line, isBreak z = false)
    (hb : isBreak b = true) (hprint : isPrintable b = true) (h : BlockText rest)
    (hrest : s.next.rest = line ++ b :: (blockLines indent true rest ++ tail)) :
    ∃ breaks lines next, rest = breaks ++ lines ∧ (∀ y ∈ breaks, isBreak y = true) ∧
      blockLine? false indent s = some (s.behind line b breaks next) ∧
      s.next.line < next.line ∧
      (lines = [] ∧ next.OnLine tail ∧ next.column < indent ∨
        (∃ y back, lines = y :: back ∧ isBreak y = false) ∧ next.column = indent ∧
          next.rest = blockLines indent false lines ++ tail) := by
  have hspan : s.next.span (!isBreak ·) = (line, s.next.skip line.length) :=
    Cursor.span_eq hrest (by simpa using hline) (by simpa using hb)
  have hafter := Cursor.rest_skip_of_eq_append hrest
  have hbreak : (s.next.skip line.length).break?
      = some (b, (s.next.skip line.length).nextLine 1) :=
    Cursor.break?_of_isPrintable hb hprint hafter
  obtain ⟨breaks, lines, w, next, rfl, hbreaks, hempty, hnextLine, hend⟩ :=
    exists_emptyLines h hfollows hlimit rfl (Cursor.rest_nextLine hafter) 0
  refine ⟨breaks, lines, next, rfl, hbreaks, ?_, ?_, hend⟩
  · simp [blockLine?, hspan, hbreak, hempty, BlockState.behind]
  · simp only [Cursor.nextLine, Cursor.skip] at hnextLine
    omega

/-- From the first line on, all lines of a block are read. -/
theorem blockLines?_eq {limit indent : Nat} (hfollows : Follows limit tail)
    (hlimit : limit < indent) {y : Char} {back : List Char} (h : BlockText (y :: back))
    (hy : isBreak y = false) {s : BlockState} (hcolumn : s.next.column = indent)
    (hrest : s.next.rest = blockLines indent false (y :: back) ++ tail) {lines : Nat}
    (hlines : back.length < lines) :
    ∃ r, blockLines? false indent lines s = some r ∧ r.next.OnLine tail ∧
      s.next.line < r.next.line ∧
      r.Holds (s.read.reverse ++ (s.lastBreak ++ s.emptyBreaks) ++ y :: back) := by
  -- by induction on the bound: every line holds something
  induction lines generalizing y back s with
  | zero => exact absurd hlines (Nat.not_lt_zero _)
  | succ lines ih =>
    obtain ⟨line, b, rest, heq, hne, hline, hb⟩ := h.exists_line hy
    rw [heq] at h
    have hprint : isPrintable b = true :=
      h.shown b (List.mem_append_right _ (List.mem_cons_self ..))
    have hbehind : BlockText rest := .of_append (line ++ [b]) (by simpa using h)
    rw [heq, blockLines_line_append hline, blockLines_false_break hb, List.append_assoc,
      List.cons_append] at hrest
    obtain ⟨breaks, others, next, rfl, hbreaks, hread, hless, hend⟩ :=
      blockLine?_eq hfollows hlimit hline hb hprint hbehind hrest
    have hpeek : s.next.peek.isSome = true := by
      cases line with
      | nil => exact absurd rfl hne
      | cons _ _ => simp [Cursor.peek, hrest]
    rw [blockLines?, if_pos ⟨hcolumn, hpeek⟩, hread, Option.bind_some]
    have hholds := BlockState.holds_behind hne hline hb hbreaks s next
    rcases hend with ⟨rfl, honLine, hnextColumn⟩ | ⟨⟨z, further, rfl, hz⟩, hnextColumn, hnextRest⟩
    · refine ⟨s.behind line b breaks next, ?_, honLine, hless, ?_⟩
      · cases lines with
        | zero => rfl
        | succ lines => rw [blockLines?, if_neg fun hin => absurd hin.1 (Nat.ne_of_lt hnextColumn)]
      · rwa [heq, List.append_nil]
    · have hfewer : further.length < lines := by
        have hlength := congrArg List.length heq
        have hpos : 0 < line.length := List.length_pos_iff.mpr hne
        simp only [List.length_append, List.length_cons] at hlength
        omega
      obtain ⟨r, hlinesRead, honLine, hrLine, hall⟩ :=
        ih (s := s.behind line b breaks next) (hbehind.of_append breaks) hz hnextColumn hnextRest
          hfewer
      refine ⟨r, hlinesRead, honLine, hless.trans hrLine, ?_⟩
      rw [hholds.text] at hall
      simpa [heq] using hall

/-! ## The header -/

/-- What becomes of the breaks at the end of a text. -/
def chompingOf (cs : List Char) : Chomping :=
  match cs.reverse with
  | [] => .strip
  | [last] => if isBreak last then .keep else .strip
  | last :: before :: _ =>
    if !isBreak last then .strip else if isBreak before then .keep else .clip

/-- The increment that the header of a text gives, if the first line does not show it. -/
def incrementOf (cs : List Char) : Option Nat :=
  if cs.head?.any (fun c => c = ' ' || isBreak c) then some 2 else none

/-- A header, as written behind the bar. -/
def BlockHeader.render (h : BlockHeader) : List Char :=
  (if h.increment.isSome then ['2'] else []) ++
    match h.chomping with
    | .strip => ['-']
    | .clip => []
    | .keep => ['+']

theorem blockMark_eq (cs : List Char) :
    blockMark cs = '|' :: BlockHeader.render ⟨chompingOf cs, incrementOf cs⟩ := by
  have hincrement : (if cs.head?.any (fun c => c = ' ' || isBreak c) then ['2'] else [])
      = if (incrementOf cs).isSome then ['2'] else [] := by
    unfold incrementOf
    split
    · rfl
    · rfl
  unfold blockMark chompingOf BlockHeader.render
  rw [hincrement]
  rcases cs.reverse with _ | ⟨last, _ | ⟨before, front⟩⟩
  · rfl
  · cases hlast : isBreak last <;> simp [hlast]
  · cases hlast : isBreak last <;> cases hbefore : isBreak before <;> simp [hlast, hbefore]

theorem BlockHeader.isPrintable_of_mem_render (h : BlockHeader) :
    ∀ z ∈ h.render, isPrintable z = true := by
  have hmarks : ∀ z ∈ ['2', '-', '+'], isPrintable z = true := List.all_eq_true.mp (by decide)
  intro z hz
  apply hmarks
  rcases List.mem_append.mp hz with hmem | hmem
  · split at hmem
    · simp [List.mem_singleton.mp hmem]
    · cases hmem
  · split at hmem
    · simp [List.mem_singleton.mp hmem]
    · cases hmem
    · simp [List.mem_singleton.mp hmem]

theorem blockIndicators?_eq {h : BlockHeader} (hincrement : ∀ n ∈ h.increment, n = 2)
    (hrest : c.rest = h.render ++ '\n' :: more) :
    blockIndicators? c = some (h, c.skip h.render.length) := by
  obtain ⟨rest, index, line, column⟩ := c
  obtain rfl : rest = h.render ++ '\n' :: more := hrest
  obtain ⟨chomping, increment⟩ := h
  cases increment with
  | none =>
    cases chomping <;>
      simp [BlockHeader.render, blockIndicators?, Cursor.peek, Cursor.peekAt, chomping?,
        increment?, Cursor.skip]
  | some n =>
    obtain rfl : n = 2 := hincrement n rfl
    cases chomping <;>
      simp [BlockHeader.render, blockIndicators?, Cursor.peek, Cursor.peekAt, chomping?,
        increment?, Cursor.skip]

theorem restOfLine?_newline (hrest : c.rest = '\n' :: more) :
    c.restOfLine? = some (c.nextLine 1) := by
  have hspan : c.span isGap = ([], c) := Cursor.span_of_isBreak (by decide) hrest
  have hbreak : c.break? = some ('\n', c.nextLine 1) :=
    Cursor.break?_of_isPrintable (by decide) (by decide) hrest
  have hpeek : c.peek ≠ some '#' := by simp [Cursor.peek, hrest]
  simp [Cursor.restOfLine?, hspan, hpeek, hbreak]

theorem blockHeader?_eq {h : BlockHeader} (hincrement : ∀ n ∈ h.increment, n = 2)
    (hrest : c.rest = h.render ++ '\n' :: more) :
    ∃ next, blockHeader? c = some (h, next) ∧ next.rest = more ∧ next.column = 0 ∧
      c.line < next.line := by
  have hnext := Cursor.rest_skip_of_eq_append hrest
  refine ⟨(c.skip h.render.length).nextLine 1, ?_, Cursor.rest_nextLine hnext, rfl,
    Nat.lt_succ_self _⟩
  simp [blockHeader?, blockIndicators?_eq hincrement hrest, restOfLine?_newline hnext]

/-! ## Whole blocks -/

/-- A text with a break at its end. -/
def closed (cs : List Char) : List Char :=
  if cs.getLast?.any isBreak then cs else cs ++ ['\n']

theorem blockLines_concat {indent : Nat} (atStart : Bool) :
    blockLines indent atStart (cs ++ ['\n']) = blockLines indent atStart cs ++ ['\n'] := by
  induction cs generalizing atStart with
  | nil => simp [blockLines, isBreak]
  | cons y cs ih =>
    simp only [List.cons_append, blockLines]
    split
    · rw [ih, List.cons_append]
    · rw [ih, List.append_assoc, List.cons_append]

theorem getLast?_blockLines {indent : Nat} (hne : cs ≠ []) (atStart : Bool) :
    (blockLines indent atStart cs).getLast? = cs.getLast? := by
  induction cs generalizing atStart with
  | nil => exact absurd rfl hne
  | cons y cs ih =>
    cases cs with
    | nil =>
      rw [blockLines]
      split
      · rfl
      · simp [blockLines]
    | cons z cs =>
      have hrest (atStart : Bool) := ih (List.cons_ne_nil _ _) atStart
      have hsome (atStart : Bool) : blockLines indent atStart (z :: cs) ≠ [] := by
        intro hnil
        have hlast := hrest atStart
        rw [hnil, List.getLast?_nil, eq_comm, List.getLast?_eq_none_iff] at hlast
        cases hlast
      rw [blockLines, List.getLast?_cons_cons]
      split
      · rw [← List.singleton_append, List.getLast?_append_of_ne_nil _ (hsome true), hrest]
      · rw [← List.singleton_append, List.getLast?_append_of_ne_nil, List.getLast?_append_of_ne_nil,
          hrest]
        · exact hsome false
        · simp

/-- The line of a block is ended if its text does not end it. -/
theorem blockLines_closed {indent : Nat} (hne : cs ≠ []) :
    blockLines indent true cs
        ++ (if (blockLines indent true cs).getLast?.any isBreak then [] else ['\n'])
      = blockLines indent true (closed cs) := by
  rw [getLast?_blockLines hne, closed]
  split
  · rw [List.append_nil]
  · rw [blockLines_concat]

theorem BlockText.closed (h : TextForm.allowsBlock cs = true) : BlockText (closed cs) := by
  simp only [TextForm.allowsBlock, TextForm.needsEscapes, Bool.and_eq_true, Bool.not_eq_true',
    Bool.or_eq_false_iff, Bool.not_eq_false', List.all_eq_true, decide_eq_true_eq] at h
  obtain ⟨⟨-, hlast⟩, hshown, hpairs⟩ := h
  have hspace : ∀ front b back, cs = front ++ ' ' :: b :: back → isBreak b = false :=
    fun front b back heq => not_pair_of_hasPair hpairs front ' ' b back heq (by decide)
  unfold Yaml.closed
  split
  · rename_i hbreak
    exact ⟨hshown, hspace, fun y hy => by simpa [Option.mem_def.mp hy] using hbreak⟩
  · refine ⟨fun y hy => ?_, fun front b back heq => ?_, fun y hy => ?_⟩
    · rcases List.mem_append.mp hy with hmem | hmem
      · exact hshown y hmem
      · rw [List.mem_singleton.mp hmem]
        decide
    · -- the break that was added does not stand behind a space
      rcases List.eq_nil_or_concat' back with rfl | ⟨back, last, rfl⟩
      · refine absurd ?_ hlast
        have hcs : cs = front ++ [' '] := by
          have hsplit : front ++ [' ', b] = (front ++ [' ']) ++ [b] := by simp
          rw [hsplit] at heq
          exact (List.append_inj' heq rfl).1
        rw [hcs, List.getLast?_concat]
      · refine hspace front b back ?_
        have hsplit : front ++ ' ' :: b :: (back ++ [last])
            = (front ++ ' ' :: b :: back) ++ [last] := by
          simp
        rw [hsplit] at heq
        exact (List.append_inj' heq rfl).1
    · rw [List.getLast?_concat] at hy
      rw [← Option.some.inj hy]
      decide

theorem chompingOf_concat (hx : isBreak x = false) (cs : List Char) :
    chompingOf (cs ++ [x]) = .strip := by
  unfold chompingOf
  rw [List.reverse_append]
  cases cs.reverse with
  | nil => simp [hx]
  | cons y rest => simp [hx]

theorem chompingOf_concat_break {b : Char} (hb : isBreak b = true) (cs : List Char) (x : Char) :
    chompingOf (cs ++ [x] ++ [b]) = if isBreak x then .keep else .clip := by
  simp [chompingOf, hb]

/-- The header keeps as many of the breaks at the end as the text has. -/
theorem BlockState.Holds.text_eq {s : BlockState} (h : s.Holds (closed cs)) :
    s.text (chompingOf cs) = cs := by
  obtain ⟨htext, ⟨y, back, hread, hy⟩, ⟨b, hlast, hb⟩, hempty⟩ := h
  -- all breaks at the end: the one of the last line, and those on the empty lines
  have hbreaks : ∀ z ∈ b :: s.emptyBreaks, isBreak z = true := by simpa [hb] using hempty
  rw [hlast, hread, List.reverse_cons, List.singleton_append] at htext
  have hshape : s.emptyBreaks = [] ∨ ∃ front z last, isBreak z = true ∧ isBreak last = true ∧
      b :: s.emptyBreaks = front ++ [z] ++ [last] := by
    rcases List.eq_nil_or_concat' s.emptyBreaks with hnil | ⟨init, last, hinit⟩
    · exact .inl hnil
    · obtain ⟨front, z, hfront⟩ : ∃ front z, b :: init = front ++ [z] :=
        (List.eq_nil_or_concat' (b :: init)).resolve_left (List.cons_ne_nil _ _)
      have hall : b :: s.emptyBreaks = front ++ [z] ++ [last] := by
        rw [hinit, ← List.cons_append, hfront]
      rw [hall] at hbreaks
      exact .inr ⟨front, z, last, hbreaks z (by simp), hbreaks last (by simp), hall⟩
  rcases hshape with hnil | ⟨front, z, last, hz, hlast', hall⟩
  · rw [hnil] at htext
    unfold closed at htext
    split at htext
    · rw [← htext, chompingOf_concat_break hb, hy]
      simp [BlockState.text, hlast, hread]
    · obtain ⟨rfl, -⟩ := List.append_inj' htext rfl
      rw [chompingOf_concat hy]
      simp [BlockState.text, hread]
  · rw [hall, ← List.append_assoc] at htext
    unfold closed at htext
    split at htext
    · rw [← htext, ← List.append_assoc, chompingOf_concat_break hlast', hz, if_pos rfl,
        BlockState.text, hread, hlast, List.singleton_append, hall]
      simp
    · -- a text without a break at its end would have been given only one
      rename_i hopen
      obtain ⟨hcs, -⟩ := List.append_inj' htext rfl
      refine absurd ?_ hopen
      rw [← hcs, ← List.append_assoc, List.getLast?_concat]
      simpa using hz

/-- A text of breaks alone is kept as it is. -/
theorem chompingOf_of_breaks (hne : cs ≠ []) (h : ∀ y ∈ cs, isBreak y = true) :
    chompingOf cs = .keep := by
  obtain ⟨front, last, rfl⟩ := (List.eq_nil_or_concat' cs).resolve_left hne
  have hlast : isBreak last = true := h last (by simp)
  rcases List.eq_nil_or_concat' front with rfl | ⟨front, before, rfl⟩
  · simp [chompingOf, hlast]
  · have hbefore : isBreak before = true := h before (by simp)
    rw [chompingOf_concat_break hlast, if_pos hbefore]

theorem length_le_blockLines (indent : Nat) (atStart : Bool) (cs : List Char) :
    cs.length ≤ (blockLines indent atStart cs).length := by
  induction cs generalizing atStart with
  | nil => exact Nat.zero_le _
  | cons y cs ih =>
    rw [blockLines, List.length_cons]
    split
    · exact Nat.succ_le_succ (ih true)
    · have hcs := ih false
      simp only [List.length_append, List.length_cons]
      omega

theorem head?_closed (h : cs ≠ []) : (closed cs).head? = cs.head? := by
  unfold closed
  split
  · rfl
  · exact List.head?_append_of_ne_nil _ h

/-- The indentation of a block is the one given by its header, or else the one of its first line. -/
theorem exists_emptyLines_start {limit outer : Nat} (h : TextForm.allowsBlock cs = true)
    (hfollows : Follows limit tail) (hlimit : limit < outer + 2) (hcolumn : c.column = 0)
    (hrest : c.rest = blockLines (outer + 2) true (closed cs) ++ tail) :
    ∃ breaks lines w next, closed cs = breaks ++ lines ∧ (∀ y ∈ breaks, isBreak y = true) ∧
      emptyLines? ((incrementOf cs).map (outer + ·)) 0 c = some ⟨breaks, w, next⟩ ∧
      ((incrementOf cs).map (outer + ·)).getD (max w (max (outer + 1) 1)) = outer + 2 ∧
      c.line ≤ next.line ∧
      (lines = [] ∧ next.OnLine tail ∧ next.column < outer + 2 ∨
        (∃ y back, lines = y :: back ∧ isBreak y = false) ∧ next.column = outer + 2 ∧
          next.rest = blockLines (outer + 2) false lines ++ tail) := by
  have hclosed := BlockText.closed h
  have hne : cs ≠ [] := by
    rintro rfl
    exact absurd h (by decide)
  unfold incrementOf
  split
  · obtain ⟨breaks, lines, w, next, hsplit, hbreaks, hempty, hline, hend⟩ :=
      exists_emptyLines hclosed hfollows hlimit hcolumn hrest 0
    exact ⟨breaks, lines, w, next, hsplit, hbreaks, hempty, rfl, hline, hend⟩
  · rename_i hhead
    have hfirst := head?_closed hne
    generalize closed cs = lines at hclosed hrest hfirst ⊢
    cases lines with
    | nil => exact absurd (List.head?_eq_none_iff.mp hfirst.symm) hne
    | cons y back =>
      rw [← hfirst] at hhead
      have hshown : isPrintable y = true := hclosed.shown y (List.mem_cons_self ..)
      obtain ⟨hspace, hy⟩ : y ≠ ' ' ∧ isBreak y = false := by simpa using hhead
      have hword : endsWord (some y) = false := by
        refine endsWord_some_eq_false_iff.mpr ⟨?_, hy⟩
        by_contra hgap
        exact hspace (eq_space_of_isGap hshown (by simpa using hgap))
      have hbehind : blockLines (outer + 2) false (y :: back)
          = y :: blockLines (outer + 2) false back := by
        simp [blockLines, hy]
      have hheadWord : ∀ w ∈ (blockLines (outer + 2) false (y :: back) ++ tail).head?,
          endsWord (some w) = false := by
        simpa [hbehind] using hword
      rw [blockLines_true_cons hy, List.append_assoc] at hrest
      obtain ⟨next, hempty, hnextColumn, hnextRest, hnextLine⟩ :=
        emptyLines?_eq none (n := outer + 2) [] (by simp) hheadWord hcolumn hrest 0
      refine ⟨[], y :: back, _, next, rfl, by simp, hempty, ?_, by omega,
        .inr ⟨⟨y, back, rfl, hy⟩, hnextColumn, ?_⟩⟩
      · simp only [Option.map_none, Option.getD_none, Option.elim_none]
        omega
      · rw [hnextRest, Option.elim_none, Nat.sub_self]
        rfl

theorem eq_two_of_mem_incrementOf {n : Nat} (hn : n ∈ incrementOf cs) : n = 2 := by
  unfold incrementOf at hn
  split at hn
  · exact (Option.some.inj hn).symm
  · cases hn

/-- Breaks alone are ended by the last of them. -/
theorem eq_of_closed_eq {breaks : List Char} (hne : cs ≠ []) (h : closed cs = breaks)
    (hbreaks : ∀ y ∈ breaks, isBreak y = true) : cs = breaks := by
  unfold closed at h
  split at h
  · exact h
  · rename_i hopen
    obtain ⟨front, last, rfl⟩ := (List.eq_nil_or_concat' cs).resolve_left hne
    refine absurd ?_ hopen
    rw [List.getLast?_concat]
    exact hbreaks last (by rw [← h]; simp)

/-- The text of a block reads as itself. -/
theorem block?_eq {limit outer : Nat} (h : TextForm.allowsBlock cs = true)
    (hfollows : Follows limit tail) (hlimit : limit < outer + 2)
    (hrest : c.rest = BlockHeader.render ⟨chompingOf cs, incrementOf cs⟩
      ++ '\n' :: (blockLines (outer + 2) true (closed cs) ++ tail)) :
    ∃ next, block? false (some outer) c = some (cs, next) ∧ next.OnLine tail ∧
      c.line < next.line := by
  have hne : cs ≠ [] := by
    rintro rfl
    exact absurd h (by decide)
  obtain ⟨start, hheader, hstart, hcolumn, hline⟩ :=
    blockHeader?_eq (fun n hn => eq_two_of_mem_incrementOf hn) hrest
  obtain ⟨breaks, lines, w, next, hsplit, hbreaks, hempty, hindent, hnextLine, hend⟩ :=
    exists_emptyLines_start h hfollows hlimit hcolumn hstart
  have hblock {r : BlockState} (hlines : blockLines? false (outer + 2) (start.rest.length + 1)
      ⟨[], [], breaks, false, next⟩ = some r) :
      block? false (some outer) c = some (r.text (chompingOf cs), r.next) := by
    simp only [block?, hheader, Option.bind_eq_bind, Option.bind_some, Option.getD_some, hempty,
      Option.elim_some, hindent, hlines]
    rfl
  rcases hend with ⟨rfl, honLine, hnextColumn⟩ | ⟨⟨y, back, rfl, hy⟩, hnextColumn, hnextRest⟩
  · -- all lines are empty
    rw [List.append_nil] at hsplit
    have hcs : cs = breaks := eq_of_closed_eq hne hsplit hbreaks
    have hlines : blockLines? false (outer + 2) (start.rest.length + 1)
        ⟨[], [], breaks, false, next⟩ = some ⟨[], [], breaks, false, next⟩ := by
      rw [blockLines?, if_neg fun hin => absurd hin.1 (Nat.ne_of_lt hnextColumn)]
    refine ⟨next, ?_, honLine, by omega⟩
    rw [hblock hlines, chompingOf_of_breaks hne (hcs ▸ hbreaks), BlockState.text, hcs]
    rfl
  · have hlength : back.length < start.rest.length + 1 := by
      have hle := length_le_blockLines (outer + 2) true (closed cs)
      rw [hsplit, List.length_append, List.length_cons] at hle
      rw [hstart, hsplit, List.length_append]
      omega
    have hclosed := BlockText.closed h
    rw [hsplit] at hclosed
    obtain ⟨r, hlines, honLine, hrLine, hholds⟩ :=
      blockLines?_eq hfollows hlimit hclosed.of_append hy
        (s := ⟨[], [], breaks, false, next⟩) hnextColumn hnextRest hlength
    have htext : r.text (chompingOf cs) = cs := by
      apply BlockState.Holds.text_eq
      rw [hsplit]
      simpa using hholds
    refine ⟨r.next, ?_, honLine, ?_⟩
    · rw [hblock hlines, htext]
    · have hless : next.line < r.next.line := hrLine
      omega

end Lineage.Yaml
