import Lineage.Proofs.Yaml.Tokens

/-!
# Tokens of a written tree

The lines of a mapping give its tokens one after the other: a key with its colon, then the value,
which may be a mapping itself. A mapping starts with its first key, and only a line behind its last
member ends it. So the tokens of a text are those of the tree that was written.

## Main definitions

- `Value.hasKeys`: all keys of a value can stand for themselves
- `Value.tokens`: the tokens of a value

## Main statements

- `Scanner.exists_leads_value`, `Scanner.exists_leads_members`: how the lines of a value are read
- `Token.scan?_render`: the tokens of a written mapping
-/

namespace Lineage.Yaml

/-! ## Trees -/

mutual
/-- Whether all keys of a value can stand for themselves. -/
def Value.hasKeys : Value → Bool
  | .scalar _ | .list _ => true
  | .map members => membersHaveKeys members
/-- Whether all keys of some members can stand for themselves. -/
def membersHaveKeys : List (String × Value) → Bool
  | [] => true
  | (key, value) :: members => isKey key.toList && value.hasKeys && membersHaveKeys members
end

mutual
/-- The tokens of a value. -/
def Value.tokens : Value → List Token
  | .scalar s => [s.token]
  | .list [] => [.flowStart .sequence, .flowEnd .sequence]
  | .list (v :: vs) => (v :: vs).flatMap fun v => [.entry, v.token]
  | .map [] => [.flowStart .mapping, .flowEnd .mapping]
  | .map (m :: members) => .blockStart .mapping :: memberTokens (m :: members) ++ [.blockEnd]
/-- The tokens of some members. -/
def memberTokens : List (String × Value) → List Token
  | [] => []
  | (key, value) :: members =>
    .key :: .scalar .plain key.toList :: .value :: (value.tokens ++ memberTokens members)
end

namespace Scanner

variable {s : Scanner} {n d m : Nat} {read front result : List Token} {c : Cursor} {k : Bool}
  {more tail key : List Char}

/-! ## Keys -/

/-- A colon makes a key of what was read before it. -/
theorem value?_inBlocks (t : Token) (read : List Token) (next : Cursor)
    (hcolumn : c.column = 2 * d) :
    (inBlocks (d + 1) (t :: read) next false (noted (d + 1) read c true)).value?
      = some (inBlocks (d + 1) (.value :: t :: .key :: read) (next.skip 1) false none) := by
  simp [value?, noted, inBlocks, pushAt, openBlock, inFlow, take, push, indentAt, hcolumn]

/-- The first key starts a mapping. -/
theorem value?_first (t : Token) (read : List Token) (next : Cursor) (hcolumn : c.column = 2 * d) :
    (inBlocks d (t :: read) next false (noted d read c true)).value?
      = some (inBlocks (d + 1) (.value :: t :: .key :: .blockStart .mapping :: read) (next.skip 1)
          false none) := by
  -- the mark of the mapping goes behind the two tokens of the key
  have htwo : read.length + 1 + 1 - read.length = 2 := by omega
  cases d with
  | zero =>
    simp [value?, noted, inBlocks, pushAt, openBlock, inFlow, take, push, indentAt, outerAt,
      hcolumn, htwo]
  | succ d =>
    simp [value?, noted, inBlocks, pushAt, openBlock, inFlow, take, push, indentAt, outerAt,
      hcolumn, htwo]

theorem cursor_eq_of_rests {body : List Char} (honLine : c.OnLine (spaces (2 * d) ++ body))
    (hstart : ∀ x ∈ c.rest.head?, startsLine x = true) (hbody : body.head? ≠ some ' ') :
    c.column = 2 * d ∧ c.rest = body := by
  obtain ⟨j, hj, hrest⟩ := eq_of_spaces_append_eq honLine hbody
  cases j with
  | zero => exact ⟨hj.symm, hrest⟩
  | succ j =>
    rw [hrest] at hstart
    exact absurd (hstart ' ' rfl) (by decide)

theorem exists_cons_of_isKey (h : isKey key = true) :
    ∃ first back, key = first :: back ∧ first.isAlpha = true ∧ key.length ≤ 1024 := by
  simp only [isKey, Bool.and_eq_true, decide_eq_true_eq] at h
  obtain ⟨⟨hfirst, -⟩, hlong⟩ := h
  cases key with
  | nil => cases hfirst
  | cons first back => exact ⟨first, back, rfl, by simpa using hfirst, hlong⟩

theorem head?_ne_space_of_isKey (h : isKey key = true) :
    (key ++ ':' :: more).head? ≠ some ' ' := by
  obtain ⟨first, back, rfl, halpha, -⟩ := exists_cons_of_isKey h
  intro hhead
  obtain rfl : first = ' ' := Option.some.inj hhead
  exact absurd halpha (by decide)

/-- What starts with a letter is plain. -/
theorem start_of_isAlpha {first : Char} {others : List Char} (hrest : c.rest = first :: others)
    (h : first.isAlpha = true) :
    isIndicator first = false ∧ endsWord (some first) = false ∧
      ("?:-".toList.contains first = true → endsWord others.head? = false) ∧
      c.atDocumentMarker = false := by
  have halphanum : first.isAlphanum = true := by rw [Char.isAlphanum, h, Bool.true_or]
  refine ⟨contains_eq_false_of_isAlphanum halphanum (by decide), ?_, fun hmark => ?_,
    atDocumentMarker_of_isAlphanum hrest halphanum⟩
  · exact endsWord_of_isNameChar (by simp [isNameChar, halphanum])
  · rw [contains_eq_false_of_isAlphanum halphanum (by decide)] at hmark
    cases hmark

/-- A key is read up to its colon and may turn out to be one. -/
theorem leads_name (hsettle : s.settle? = some (inBlocks n front c true none))
    (hlength : c.rest.length ≤ s.cursor.rest.length)
    (hclose : (inBlocks n front c true none).closeBlocks (some c.column)
      = inBlocks m read c true none)
    (hkey : isKey key = true) (hmore : endsWord more.head? = true)
    (hrest : c.rest = key ++ ':' :: more) :
    s.Leads (inBlocks m (.scalar .plain key :: read) (c.skip key.length) false
      (noted m read c true)) := by
  have hnext : (c.skip key.length).rest = ':' :: more := Cursor.rest_skip_of_eq_append hrest
  obtain ⟨first, back, rfl, halpha, -⟩ := exists_cons_of_isKey hkey
  obtain ⟨hindicator, hword, halone, hmarker⟩ := start_of_isAlpha hrest halpha
  refine .token first hsettle (Cursor.peek_of_eq_cons hrest) ?_ ?_
  · rw [cursor_inBlocks, hclose, tokenAt?_plain hrest hmarker hindicator hword halone, plain?,
      noteKey?_inBlocks, Option.bind_eq_bind, Option.bind_some, inFlow_inBlocks, cursor_inBlocks,
      plain?_key_eq hkey _ hmore hrest]
    rfl
  · rw [hrest] at hlength
    rw [cursor_inBlocks, hnext]
    simp only [List.length_append, List.length_cons] at hlength ⊢
    omega

/-- The colon behind what may be a key. -/
theorem leads_colon (hm : 2 * m ≤ c.column + 2) (hkey : isKey key = true)
    (hmore : endsWord more.head? = true) (hnext : (c.skip key.length).rest = ':' :: more)
    (hvalue : (inBlocks m (.scalar .plain key :: read) (c.skip key.length) false
      (noted m read c true)).value?
        = some (inBlocks n result ((c.skip key.length).skip 1) false none)) :
    (inBlocks m (.scalar .plain key :: read) (c.skip key.length) false (noted m read c true)).Leads
      (inBlocks n result ((c.skip key.length).skip 1) false none) := by
  obtain ⟨first, back, rfl, -, hlong⟩ := exists_cons_of_isKey hkey
  -- the key is not too long to be one, and stands on the same line
  have hfresh : refresh? (c.skip (first :: back).length) (noted m read c true)
      = some (noted m read c true) := by
    simp [refresh?, noted, PossibleKey.isFresh, Cursor.skip]
    exact hlong
  have hvisible : ∀ x ∈ (':' :: more).head?, isVisible x = true := by
    intro x hx
    rw [← Option.some.inj hx]
    decide
  have hdeep : ∀ j ∈ indentAt m, j ≤ (c.skip (first :: back).length).column := by
    intro j hj
    cases m with
    | zero => cases hj
    | succ m =>
      obtain rfl : 2 * m = j := Option.some.inj hj
      simp only [Cursor.skip]
      omega
  have hmarker : (c.skip (first :: back).length).atDocumentMarker = false := by
    apply Cursor.atDocumentMarker_eq_false
    simp only [Cursor.skip, List.length_cons]
    omega
  refine .token ':' (settle?_spaces (m := 0) hnext hvisible hfresh) (Cursor.peek_of_eq_cons hnext)
    ?_ ?_
  · rw [← hvalue, cursor_inBlocks]
    exact (congrArg (tokenAt? · ':') (closeBlocks_of_le hdeep)).trans
      (tokenAt?_colon hnext hmarker hmore)
  · rw [cursor_inBlocks, cursor_inBlocks, Cursor.rest_skip_one hnext, hnext]
    exact Nat.lt_succ_self _

/-- A key with its colon, in a mapping that is open or that it starts. -/
theorem exists_leads_key (hsettle : s.settle? = some (inBlocks n front c true none))
    (hlength : c.rest.length ≤ s.cursor.rest.length) (hcolumn : c.column = 2 * d)
    (hclose : (inBlocks n front c true none).closeBlocks (some (2 * d))
      = inBlocks m read c true none)
    (hm : m ≤ d + 1)
    (hvalue : ∀ next, (inBlocks m (.scalar .plain key :: read) next false
      (noted m read c true)).value? = some (inBlocks (d + 1) result (next.skip 1) false none))
    (hkey : isKey key = true) (hmore : endsWord more.head? = true)
    (hrest : c.rest = key ++ ':' :: more) :
    ∃ c', s.Leads (inBlocks (d + 1) result c' false none) ∧ c'.rest = more ∧ 2 * d ≤ c'.column := by
  have hnext : (c.skip key.length).rest = ':' :: more := Cursor.rest_skip_of_eq_append hrest
  have hname := leads_name hsettle hlength (hcolumn ▸ hclose) hkey hmore hrest
  have hcolon := leads_colon (by omega) hkey hmore hnext (hvalue _)
  refine ⟨_, hname.trans hcolon, Cursor.rest_skip_one hnext, ?_⟩
  simp only [Cursor.skip]
  omega

/-- The first key of a mapping. -/
theorem Rests.exists_leads_key (h : s.Rests (spaces (2 * d) ++ (key ++ ':' :: more)) d read)
    (hkey : isKey key = true) (hmore : endsWord more.head? = true) :
    ∃ c', s.Leads (inBlocks (d + 1)
        (.value :: .scalar .plain key :: .key :: .blockStart .mapping :: read) c' false none) ∧
      c'.rest = more ∧ 2 * d ≤ c'.column := by
  obtain ⟨c, hsettle, honLine, hlength, hstart⟩ := h
  obtain ⟨hcolumn, hrest⟩ := cursor_eq_of_rests honLine hstart (head?_ne_space_of_isKey hkey)
  have hclose : (inBlocks d read c true none).closeBlocks (some (2 * d))
      = inBlocks d read c true none := by
    refine closeBlocks_of_le fun j hj => ?_
    cases d with
    | zero => cases hj
    | succ d =>
      obtain rfl : 2 * d = j := Option.some.inj hj
      omega
  exact Scanner.exists_leads_key hsettle hlength hcolumn hclose (Nat.le_succ d)
    (fun next => value?_first _ read next hcolumn) hkey hmore hrest

/-- A further key of a mapping, which ends those inside the member before. -/
theorem Stands.exists_leads_key
    (h : s.Stands (spaces (2 * d) ++ (key ++ ':' :: more)) (d + 1) read)
    (hkey : isKey key = true) (hmore : endsWord more.head? = true) :
    ∃ c', s.Leads (inBlocks (d + 1) (.value :: .scalar .plain key :: .key :: read) c' false none) ∧
      c'.rest = more ∧ 2 * d ≤ c'.column := by
  obtain ⟨ended, front, ⟨c, hsettle, honLine, hlength, hstart⟩, rfl⟩ := h
  obtain ⟨hcolumn, hrest⟩ := cursor_eq_of_rests honLine hstart (head?_ne_space_of_isKey hkey)
  exact Scanner.exists_leads_key hsettle hlength hcolumn (closeBlocks_inBlocks d ended front)
    (le_refl _) (fun next => value?_inBlocks _ _ next hcolumn) hkey hmore hrest

/-! ## Items -/

/-- A dash with the item behind it. -/
theorem Rests.exists_leads_item {v : Scalar} (hfollows : Follows (2 * d) tail)
    (h : s.Rests (line (spaces (2 * d) ++ ['-', ' ']) (2 * d + 2) v ++ tail) (d + 1) read) :
    ∃ s', s.Leads s' ∧ s'.Rests tail (d + 1) (v.token :: .entry :: read) := by
  rw [Scalar.line_eq, List.append_assoc, List.append_assoc] at h
  obtain ⟨c, hsettle, honLine, hlength, hstart⟩ := h
  obtain ⟨hcolumn, hrest⟩ := cursor_eq_of_rests honLine hstart (by simp)
  have hnext : (c.skip 1).rest = line [' '] (2 * d + 2) v ++ tail := by
    rw [Scalar.line_eq, Cursor.rest_skip_one hrest]
    rfl
  have hentry : s.Leads (inBlocks (d + 1) (.entry :: read) (c.skip 1) true none) := by
    refine .token '-' hsettle ?_ ?_ ?_
    · exact Cursor.peek_of_eq_cons hrest
    · have hclose : (inBlocks (d + 1) read c true none).closeBlocks (some (2 * d))
          = inBlocks (d + 1) read c true none := closeBlocks_inBlocks d 0 read
      rw [cursor_inBlocks, hcolumn, hclose, tokenAt?_dash hrest]
      simp [inBlocks, entry?, inFlow, openBlock, indentAt, hcolumn, dropKey?, take, push]
    · rw [hrest] at hlength
      rw [cursor_inBlocks, Cursor.rest_skip_one hrest]
      exact hlength
  obtain ⟨s', hleads, hrests⟩ :=
    exists_leads_line (k := true) (c := c.skip 1) (by simp [Cursor.skip]; omega) hfollows hnext
  exact ⟨s', hentry.trans hleads, hrests⟩

theorem follows_items {before : Nat} (hfollows : Follows before tail) (items : List Scalar)
    (indent : Nat) :
    Follows before (items.flatMap (line (spaces before ++ ['-', ' ']) indent) ++ tail) := by
  cases items with
  | nil => exact hfollows
  | cons v items =>
    rw [List.flatMap_cons, Scalar.line_eq, List.append_assoc, List.append_assoc, List.append_assoc]
    exact follows_spaces_append (le_refl _) (by decide)

/-- The items of a list, each with its dash. -/
theorem Rests.exists_leads_items (hfollows : Follows (2 * d) tail) (items : List Scalar)
    (h : s.Rests (items.flatMap (line (spaces (2 * d) ++ ['-', ' ']) (2 * d + 2)) ++ tail) (d + 1)
      read) :
    ∃ s', s.Leads s' ∧
      s'.Rests tail (d + 1) ((items.flatMap fun v => [.entry, v.token]).reverse ++ read) := by
  induction items generalizing s read with
  | nil => exact ⟨s, .refl s, h⟩
  | cons v items ih =>
    rw [List.flatMap_cons, List.append_assoc] at h
    obtain ⟨s₁, hitem, hrests⟩ := h.exists_leads_item (follows_items hfollows items _)
    obtain ⟨s₂, hitems, hrests⟩ := ih hrests
    exact ⟨s₂, hitem.trans hitems, by simpa using hrests⟩

/-! ## Empty collections -/

/-- The brackets of an empty collection. -/
def brackets : Shape → Char × Char
  | .sequence => ('[', ']')
  | .mapping => ('\x7b', '\x7d')

theorem tokenAt?_opening (hmarker : s.cursor.atDocumentMarker = false) (shape : Shape) :
    s.tokenAt? (brackets shape).1 = s.openBracket? shape := by
  simp only [Cursor.atDocumentMarker, Bool.or_eq_false_iff] at hmarker
  cases shape with
  | sequence => simp [tokenAt?, hmarker, brackets]
  | mapping => simp [tokenAt?, hmarker, brackets]

theorem tokenAt?_closing (hmarker : s.cursor.atDocumentMarker = false) (shape : Shape) :
    s.tokenAt? (brackets shape).2 = s.closeBracket? shape := by
  simp only [Cursor.atDocumentMarker, Bool.or_eq_false_iff] at hmarker
  cases shape with
  | sequence => simp [tokenAt?, hmarker, brackets]
  | mapping => simp [tokenAt?, hmarker, brackets]

theorem isVisible_brackets (shape : Shape) :
    isVisible (brackets shape).1 = true ∧ isVisible (brackets shape).2 = true := by
  cases shape with
  | sequence => decide
  | mapping => decide

/-- Behind an opening bracket. -/
def inBrackets (n : Nat) (read : List Token) (c : Cursor) : Scanner :=
  { inBlocks n read c true none with enclosing := [none] }

theorem settle?_inBrackets {x : Char} (hrest : c.rest = x :: more) (hx : isVisible x = true) :
    (inBrackets n read c).settle? = some (inBrackets n read c) := by
  have hskip : c.skip 0 = c := rfl
  have hbody : ∀ y ∈ (x :: more).head?, isVisible y = true := by
    intro y hy
    rwa [← Option.some.inj hy]
  rw [settle?, skipBlanks_spaces (s := inBrackets n read c) (m := 0) _ hrest hbody]
  simp [dropStale?, inBrackets, inBlocks, refresh?, hskip]

/-- An empty collection. -/
theorem exists_leads_brackets (shape : Shape) (hcolumn : 2 * d ≤ c.column)
    (hfollows : Follows (2 * d) tail)
    (hrest : c.rest = ' ' :: (brackets shape).1 :: (brackets shape).2 :: '\n' :: tail) :
    ∃ s', (inBlocks (d + 1) read c false none).Leads s' ∧
      s'.Rests tail (d + 1) (.flowEnd shape :: .flowStart shape :: read) := by
  obtain ⟨hopening, hclosing⟩ := isVisible_brackets shape
  have hfirst := Cursor.rest_skip_one hrest
  have hsecond := Cursor.rest_skip_one hfirst
  have hthird := Cursor.rest_skip_one hsecond
  have hopen : (inBlocks (d + 1) read c false none).Leads
      (inBrackets (d + 1) (.flowStart shape :: read) ((c.skip 1).skip 1)) := by
    refine leads_of_space hcolumn hrest hopening ?_ ?_
    · exact tokenAt?_opening (Cursor.atDocumentMarker_eq_false (Nat.succ_pos _)) shape
    · exact le_of_eq (congrArg List.length hsecond)
  have hclose : (inBrackets (d + 1) (.flowStart shape :: read) ((c.skip 1).skip 1)).Leads
      (inBlocks (d + 1) (.flowEnd shape :: .flowStart shape :: read) (((c.skip 1).skip 1).skip 1)
        false none) := by
    refine .token (brackets shape).2 (settle?_inBrackets hsecond hclosing) ?_ ?_ ?_
    · exact congrArg List.head? hsecond
    · have hmarker : ((c.skip 1).skip 1).atDocumentMarker = false :=
        Cursor.atDocumentMarker_eq_false (Nat.succ_pos _)
      exact tokenAt?_closing
        (s := inBrackets (d + 1) (.flowStart shape :: read) ((c.skip 1).skip 1)) hmarker shape
    · show (((c.skip 1).skip 1).skip 1).rest.length < ((c.skip 1).skip 1).rest.length
      rw [hthird, hsecond]
      exact Nat.lt_succ_self _
  exact ⟨_, hopen.trans hclose, .of_newline hthird hfollows fun key hkey => by cases hkey⟩

/-! ## Values -/

theorem renderMember_eq (depth : Nat) (before : List Char) (v : Value) :
    renderMember depth before v = before ++ renderMember depth [] v := by
  cases v with
  | scalar v => simp [renderMember, line]
  | list items => cases items <;> simp [renderMember]
  | map members => cases members <;> simp [renderMember]

theorem renderMembers_cons (depth : Nat) (key : String) (v : Value)
    (members : List (String × Value)) (tail : List Char) :
    renderMembers depth ((key, v) :: members) ++ tail
      = spaces (2 * depth) ++ (key.toList ++ ':' :: (renderMember depth [] v
          ++ (renderMembers depth members ++ tail))) := by
  rw [renderMembers, renderMember_eq]
  simp

theorem endsWord_head?_renderMember (depth : Nat) (v : Value) (tail : List Char) :
    endsWord (renderMember depth [] v ++ tail).head? = true := by
  cases v with
  | scalar v => rfl
  | list items => cases items <;> rfl
  | map members => cases members <;> rfl

theorem follows_members {members : List (String × Value)} (h : membersHaveKeys members = true)
    (hfollows : Follows (2 * d) tail) : Follows (2 * d) (renderMembers d members ++ tail) := by
  cases members with
  | nil => exact hfollows
  | cons m members =>
    obtain ⟨key, value⟩ := m
    simp only [membersHaveKeys, Bool.and_eq_true] at h
    obtain ⟨first, back, hkey, halpha, -⟩ := exists_cons_of_isKey h.1.1
    rw [renderMembers, renderMember_eq, hkey]
    simp only [List.append_assoc, List.cons_append]
    exact follows_spaces_append (le_refl _) (by simp [startsLine, halpha])

mutual
/-- A value gives its tokens. -/
theorem exists_leads_value {d : Nat} {c : Cursor} {read : List Token} {tail : List Char} :
    ∀ v : Value, v.hasKeys = true → 2 * d ≤ c.column → Follows (2 * d) tail →
      c.rest = renderMember d [] v ++ tail →
      ∃ s', (inBlocks (d + 1) read c false none).Leads s' ∧
        s'.Stands tail (d + 1) (v.tokens.reverse ++ read)
  | .scalar v, _, hcolumn, hfollows, hrest => by
    obtain ⟨s', hleads, hrests⟩ := exists_leads_line hcolumn hfollows hrest
    exact ⟨s', hleads, hrests.stands⟩
  | .list [], _, hcolumn, hfollows, hrest => by
    obtain ⟨s', hleads, hrests⟩ := exists_leads_brackets .sequence hcolumn hfollows hrest
    exact ⟨s', hleads, hrests.stands⟩
  | .list (v :: vs), _, hcolumn, hfollows, hrest => by
    obtain ⟨s', hleads, hrests⟩ := Rests.exists_leads_items hfollows (v :: vs)
      (.of_newline (p := none) hrest (follows_items hfollows (v :: vs) _)
        fun key hkey => by cases hkey)
    exact ⟨s', hleads, hrests.stands⟩
  | .map [], _, hcolumn, hfollows, hrest => by
    obtain ⟨s', hleads, hrests⟩ := exists_leads_brackets .mapping hcolumn hfollows hrest
    exact ⟨s', hleads, hrests.stands⟩
  | .map (m :: members), hkeys, hcolumn, hfollows, hrest => by
    -- what follows the mapping also follows its members, which are indented more
    have hinside : Follows (2 * (d + 1)) tail := hfollows.mono (by omega)
    have hrests : (inBlocks (d + 1) read c false none).Rests
        (renderMembers (d + 1) (m :: members) ++ tail) (d + 1) read :=
      .of_newline hrest (follows_members hkeys hinside) fun key hkey => by cases hkey
    obtain ⟨s', hleads, hstands⟩ :=
      exists_leads_mapping (m :: members) (List.cons_ne_nil _ _) hkeys hinside hrests
    exact ⟨s', hleads, by simpa [Value.tokens] using hstands⟩
/-- A mapping gives its tokens: its first key starts it, and what comes behind its last member ends
    it. -/
theorem exists_leads_mapping {d : Nat} {s : Scanner} {read : List Token} {tail : List Char} :
    ∀ members : List (String × Value), members ≠ [] → membersHaveKeys members = true →
      Follows (2 * d) tail → s.Rests (renderMembers d members ++ tail) d read →
      ∃ s', s.Leads s' ∧ s'.Stands tail d
        (.blockEnd :: ((memberTokens members).reverse ++ .blockStart .mapping :: read))
  | [], hne, _, _, _ => absurd rfl hne
  | (key, value) :: members, _, hkeys, hfollows, h => by
    simp only [membersHaveKeys, Bool.and_eq_true] at hkeys
    obtain ⟨⟨hkey, hvalue⟩, hmembers⟩ := hkeys
    rw [renderMembers_cons] at h
    obtain ⟨c, hfirst, hrest, hcolumn⟩ := h.exists_leads_key hkey (endsWord_head?_renderMember ..)
    obtain ⟨s₁, hleads₁, hstands₁⟩ :=
      exists_leads_value value hvalue hcolumn (follows_members hmembers hfollows) hrest
    obtain ⟨s₂, hleads₂, hstands₂⟩ := exists_leads_members members hmembers hfollows hstands₁
    exact ⟨s₂, (hfirst.trans hleads₁).trans hleads₂,
      by simpa [memberTokens] using hstands₂.blockEnd⟩
/-- The members of a mapping that is open give their tokens. -/
theorem exists_leads_members {d : Nat} {s : Scanner} {read : List Token} {tail : List Char} :
    ∀ members : List (String × Value), membersHaveKeys members = true → Follows (2 * d) tail →
      s.Stands (renderMembers d members ++ tail) (d + 1) read →
      ∃ s', s.Leads s' ∧ s'.Stands tail (d + 1) ((memberTokens members).reverse ++ read)
  | [], _, _, h => ⟨s, .refl s, h⟩
  | (key, value) :: members, hkeys, hfollows, h => by
    simp only [membersHaveKeys, Bool.and_eq_true] at hkeys
    obtain ⟨⟨hkey, hvalue⟩, hmembers⟩ := hkeys
    rw [renderMembers_cons] at h
    obtain ⟨c, hfirst, hrest, hcolumn⟩ := h.exists_leads_key hkey (endsWord_head?_renderMember ..)
    obtain ⟨s₁, hleads₁, hstands₁⟩ :=
      exists_leads_value value hvalue hcolumn (follows_members hmembers hfollows) hrest
    obtain ⟨s₂, hleads₂, hstands₂⟩ := exists_leads_members members hmembers hfollows hstands₁
    exact ⟨s₂, (hfirst.trans hleads₁).trans hleads₂, by simpa [memberTokens] using hstands₂⟩
end

/-- At the end of the text all mappings end. -/
theorem Stands.tokens?_eq (h : s.Stands [] 0 read) (bound : Nat) :
    s.tokens? (bound + 1) = some (.textEnd :: read).reverse := by
  obtain ⟨ended, front, ⟨c, hsettle, honLine, -, -⟩, rfl⟩ := h
  have hsettle' : (s.skipBlanks (s.cursor.rest.length + 1)).dropStale?
      = some (inBlocks (0 + ended) front c true none) := hsettle
  have hpeek : c.peek = none := by
    rw [Cursor.peek, List.head?_eq_none_iff]
    exact (List.append_eq_nil_iff.mp (Eq.symm honLine)).2
  simp only [tokens?, hsettle', Option.bind_eq_bind, Option.bind_some, cursor_inBlocks, hpeek,
    closeBlocks_none, Nat.zero_add]
  rfl

end Scanner

/-! ## Whole texts -/

/-- What is written before a single value, and the value. -/
theorem isPrintable_of_mem_line {before : List Char} (h : ∀ z ∈ before, isPrintable z = true)
    (indent : Nat) (v : Scalar) : ∀ z ∈ line before indent v, isPrintable z = true := by
  rw [Scalar.line_eq]
  exact List.forall_mem_append.mpr ⟨h, (v.written_line indent).isPrintable⟩

theorem isPrintable_of_mem_spaces_append {n : Nat} {text : List Char}
    (h : ∀ z ∈ text, isPrintable z = true) : ∀ z ∈ spaces n ++ text, isPrintable z = true := by
  refine List.forall_mem_append.mpr ⟨fun z hz => ?_, h⟩
  rw [(mem_spaces.mp hz).2]
  decide

theorem isPrintable_of_isNameChar {x : Char} (h : isNameChar x = true) :
    isPrintable x = true := by
  simp only [isNameChar, Bool.or_eq_true, decide_eq_true_eq] at h
  rcases h with (halphanum | rfl) | rfl
  · exact isPrintable_of_isAlphanum halphanum
  · decide
  · decide

mutual
/-- What is written for a value is printable. -/
theorem isPrintable_of_mem_renderMember (depth : Nat) :
    ∀ v : Value, v.hasKeys = true → ∀ z ∈ renderMember depth [] v, isPrintable z = true
  | .scalar v, _ => isPrintable_of_mem_line (List.all_eq_true.mp (by decide)) _ v
  | .list [], _ => List.all_eq_true.mp (show " []\n".toList.all isPrintable = true by decide)
  | .list (v :: vs), _ => by
    have hdash : ∀ z ∈ ['-', ' '], isPrintable z = true := List.all_eq_true.mp (by decide)
    refine List.forall_mem_cons.mpr ⟨by decide, fun z hz => ?_⟩
    obtain ⟨w, -, hw⟩ := List.mem_flatMap.mp hz
    exact isPrintable_of_mem_line (isPrintable_of_mem_spaces_append hdash) _ w z hw
  | .map [], _ =>
    List.all_eq_true.mp (show " \x7b\x7d\n".toList.all isPrintable = true by decide)
  | .map (m :: members), hkeys => List.forall_mem_cons.mpr
      ⟨by decide, isPrintable_of_mem_renderMembers (depth + 1) (m :: members) hkeys⟩
/-- What is written for some members is printable. -/
theorem isPrintable_of_mem_renderMembers (depth : Nat) :
    ∀ members : List (String × Value), membersHaveKeys members = true →
      ∀ z ∈ renderMembers depth members, isPrintable z = true
  | [], _ => by simp [renderMembers]
  | (key, value) :: members, hkeys => by
    simp only [membersHaveKeys, Bool.and_eq_true] at hkeys
    obtain ⟨⟨hkey, hvalue⟩, hmembers⟩ := hkeys
    simp only [isKey, Bool.and_eq_true, List.all_eq_true] at hkey
    have hrest := Scanner.renderMembers_cons depth key value members []
    rw [List.append_nil, List.append_nil] at hrest
    rw [hrest]
    have hname : ∀ z ∈ key.toList, isPrintable z = true := fun z hz =>
      isPrintable_of_isNameChar (hkey.1.2 z hz)
    have hbehind := List.forall_mem_append.mpr
      ⟨isPrintable_of_mem_renderMember depth value hvalue,
        isPrintable_of_mem_renderMembers depth members hmembers⟩
    exact isPrintable_of_mem_spaces_append
      (List.forall_mem_append.mpr ⟨hname, List.forall_mem_cons.mpr ⟨by decide, hbehind⟩⟩)
end

/-- A written mapping is read as its tokens. -/
theorem Token.scan?_render {members : List (String × Value)} (hne : members ≠ [])
    (hkeys : membersHaveKeys members = true) :
    Token.scan? (render members) = some ((Value.map members).tokens ++ [.textEnd]) := by
  have hallowed : (renderMembers 0 members).all isAllowed = true := List.all_eq_true.mpr fun z hz =>
    isAllowed_of_isPrintable (isPrintable_of_mem_renderMembers 0 members hkeys z hz)
  have hfollows : Follows (2 * 0) (renderMembers 0 members ++ []) :=
    Scanner.follows_members hkeys (follows_nil _)
  have hrests : (Scanner.start (renderMembers 0 members)).Rests (renderMembers 0 members ++ []) 0
      [] := by
    have hstart : Scanner.start (renderMembers 0 members)
        = Scanner.inBlocks 0 [] ⟨renderMembers 0 members, 0, 0, 0⟩ true none := rfl
    rw [hstart]
    exact .of_onLine (List.append_nil _) hfollows fun key hkey => by cases hkey
  obtain ⟨s', ⟨tokens, hcount, hleads⟩, hstands⟩ :=
    Scanner.exists_leads_mapping members hne hkeys (follows_nil _) hrests
  -- the bound of the scanner is the length of the text, and no token is empty
  have hbound : (renderMembers 0 members).length + 1
      = ((renderMembers 0 members).length - tokens + 1) + tokens := by
    have hlength : tokens + s'.cursor.rest.length ≤ (renderMembers 0 members).length := hcount
    omega
  rw [Token.scan?, render, String.toList_ofList]
  simp only [hallowed, if_true]
  rw [hbound, hleads, hstands.tokens?_eq]
  cases members with
  | nil => exact absurd rfl hne
  | cons m members => simp [Value.tokens]

end Lineage.Yaml
