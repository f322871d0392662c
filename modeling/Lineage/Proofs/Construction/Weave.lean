import Lineage.Proofs.Construction.Matches

/-!
# Contents with lines woven in

Lines are put in front of some bytes of a content, each where a line starts and a construction
stands. Since a construction starts with a word character and a woven line with a dash, no reader
that stops at such a place reads on through the line, and an argument list that runs over it finds
no parenthesis in it.

## Main definitions

- `weave` is a content with pieces in front of its bytes
- `place` is where a byte goes
- `Woven` relates a content to one with lines put in, without offsets

## Main statements

- `Woven.construction?_eq_none`: a reading fails with the lines where it fails without them
-/

namespace Lineage

open Utf8 (encode span Stops next?)

/-! ## Weaving -/

/-- The bytes from offset `pos` on with the piece of each offset in front of its byte. -/
def weaveFrom (piece : Nat → Bytes) (pos : Nat) : Bytes → Bytes
  | [] => []
  | b :: rest => piece pos ++ b :: weaveFrom piece (pos + 1) rest

/-- A content with the piece of each offset in front of its byte. -/
def weave (piece : Nat → Bytes) (content : Bytes) : Bytes := weaveFrom piece 0 content

/-- The woven bytes behind the piece at the first of them. -/
def weaveTail (piece : Nat → Bytes) (pos : Nat) : Bytes → Bytes
  | [] => []
  | b :: rest => b :: weaveFrom piece (pos + 1) rest

variable {piece : Nat → Bytes}

theorem weaveFrom_eq {bs : Bytes} (h : bs ≠ []) (pos : Nat) :
    weaveFrom piece pos bs = piece pos ++ weaveTail piece pos bs := by
  cases bs with
  | nil => exact absurd rfl h
  | cons b rest => rfl

theorem weaveFrom_append (pos : Nat) (xs ys : Bytes) :
    weaveFrom piece pos (xs ++ ys)
      = weaveFrom piece pos xs ++ weaveFrom piece (pos + xs.length) ys := by
  induction xs generalizing pos with
  | nil => rfl
  | cons x xs ih =>
    have hpos : pos + 1 + xs.length = pos + (x :: xs).length := by
      simp only [List.length_cons]
      omega
    simp only [List.cons_append, weaveFrom, ih, hpos, List.append_assoc]

/-- Where there are no pieces, nothing changes. -/
theorem weaveFrom_eq_self {pos : Nat} {bs : Bytes}
    (h : ∀ q, pos ≤ q → q < pos + bs.length → piece q = []) : weaveFrom piece pos bs = bs := by
  induction bs generalizing pos with
  | nil => rfl
  | cons b rest ih =>
    have hhead : piece pos = [] := h pos (Nat.le_refl _) (by simp)
    have hrest : weaveFrom piece (pos + 1) rest = rest :=
      ih fun q hq hlt => h q (by omega) (by simp only [List.length_cons]; omega)
    rw [weaveFrom, hhead, hrest, List.nil_append]

theorem weaveFrom_congr {other : Nat → Bytes} {pos : Nat} {bs : Bytes}
    (h : ∀ q, pos ≤ q → q < pos + bs.length → piece q = other q) :
    weaveFrom piece pos bs = weaveFrom other pos bs := by
  induction bs generalizing pos with
  | nil => rfl
  | cons b rest ih =>
    have hhead : piece pos = other pos := h pos (Nat.le_refl _) (by simp)
    have hrest : weaveFrom piece (pos + 1) rest = weaveFrom other (pos + 1) rest :=
      ih fun q hq hlt => h q (by omega) (by simp only [List.length_cons]; omega)
    rw [weaveFrom, weaveFrom, hhead, hrest]

/-- What ends a line still does with pieces put in. -/
theorem endsLine_weaveFrom_iff (pos : Nat) (bs : Bytes) :
    EndsLine (weaveFrom piece pos bs) ↔ EndsLine bs := by
  induction bs using List.reverseRecOn with
  | nil => exact Iff.rfl
  | append_singleton bs b _ =>
    rw [weaveFrom_append, weaveFrom, weaveFrom, ← List.append_assoc,
      endsLine_append_iff (by simp), endsLine_append_iff (by simp)]

/-! ## Places -/

/-- Where the byte at offset `q` stands behind its piece, counted from the first woven byte. -/
def placeFrom (piece : Nat → Bytes) (pos : Nat) (bs : Bytes) (q : Nat) : Nat :=
  (weaveFrom piece pos (bs.take (q - pos))).length + (piece q).length

theorem placeFrom_self (pos : Nat) (bs : Bytes) :
    placeFrom piece pos bs pos = (piece pos).length := by
  simp [placeFrom, weaveFrom]

theorem placeFrom_cons {pos q : Nat} (h : pos < q) (b : UInt8) (rest : Bytes) :
    placeFrom piece pos (b :: rest) q
      = (piece pos).length + 1 + placeFrom piece (pos + 1) rest q := by
  obtain ⟨k, rfl⟩ : ∃ k, q = pos + 1 + k := ⟨q - (pos + 1), by omega⟩
  have hk : pos + 1 + k - pos = k + 1 := by omega
  have hk' : pos + 1 + k - (pos + 1) = k := by omega
  simp only [placeFrom, hk, hk', List.take_succ_cons, weaveFrom, List.length_append,
    List.length_cons]
  omega

theorem length_piece_le_placeFrom {pos q : Nat} (h : pos ≤ q) {bs : Bytes} (hbs : bs ≠ []) :
    (piece pos).length ≤ placeFrom piece pos bs q := by
  obtain ⟨b, rest, rfl⟩ := List.exists_cons_of_ne_nil hbs
  rcases Nat.eq_or_lt_of_le h with rfl | hlt
  · rw [placeFrom_self]
  · rw [placeFrom_cons hlt, Nat.add_assoc]
    exact Nat.le_add_right ..

/-- Places keep the order of offsets. -/
theorem placeFrom_lt {pos p q : Nat} {bs : Bytes} (hpos : pos ≤ p) (hlt : p < q)
    (hp : p < pos + bs.length) : placeFrom piece pos bs p < placeFrom piece pos bs q := by
  induction bs generalizing pos with
  | nil => exact absurd hp (by simpa using hpos)
  | cons b rest ih =>
    rcases Nat.eq_or_lt_of_le hpos with rfl | hbehind
    · rw [placeFrom_self, placeFrom_cons hlt]
      omega
    · rw [placeFrom_cons hbehind, placeFrom_cons (Nat.lt_trans hbehind hlt)]
      have hp' : p < pos + 1 + rest.length := by
        simp only [List.length_cons] at hp
        omega
      have hrest : placeFrom piece (pos + 1) rest p < placeFrom piece (pos + 1) rest q :=
        ih hbehind hp'
      omega

/-- Pieces put in at places of a weaving might as well have been put in along with the others. -/
theorem weaveFrom_weaveFrom {other : Nat → Bytes} {pos pos' : Nat} {bs : Bytes}
    (h : ∀ p, pos' ≤ p → other p ≠ [] →
      ∃ q, pos ≤ q ∧ q < pos + bs.length ∧ p = pos' + placeFrom piece pos bs q) :
    weaveFrom other pos' (weaveFrom piece pos bs)
      = weaveFrom (fun q => piece q ++ other (pos' + placeFrom piece pos bs q)) pos bs := by
  induction bs generalizing pos pos' with
  | nil => rfl
  | cons b rest ih =>
    -- nothing is put in inside the piece at `pos`
    have hinside : weaveFrom other pos' (piece pos) = piece pos := by
      refine weaveFrom_eq_self fun p hp hlt => ?_
      by_contra hne
      obtain ⟨q, hq, -, rfl⟩ := h p hp hne
      have hle : (piece pos).length ≤ placeFrom piece pos (b :: rest) q :=
        length_piece_le_placeFrom hq (List.cons_ne_nil b rest)
      omega
    have htail : ∀ p, pos' + (piece pos).length + 1 ≤ p → other p ≠ [] →
        ∃ q, pos + 1 ≤ q ∧ q < pos + 1 + rest.length ∧
          p = pos' + (piece pos).length + 1 + placeFrom piece (pos + 1) rest q := by
      intro p hp hne
      obtain ⟨q, hq, hlt, rfl⟩ := h p (by omega) hne
      rcases Nat.eq_or_lt_of_le hq with rfl | hbehind
      · rw [placeFrom_self] at hp
        omega
      · refine ⟨q, hbehind, by simp only [List.length_cons] at hlt; omega, ?_⟩
        rw [placeFrom_cons hbehind]
        omega
    have hcongr : weaveFrom (fun q => piece q ++
          other (pos' + (piece pos).length + 1 + placeFrom piece (pos + 1) rest q)) (pos + 1) rest
        = weaveFrom (fun q => piece q ++ other (pos' + placeFrom piece pos (b :: rest) q)) (pos + 1)
          rest := by
      refine weaveFrom_congr fun q hq _ => ?_
      rw [placeFrom_cons hq]
      congr 2
      omega
    rw [weaveFrom, weaveFrom_append, hinside, weaveFrom, ih htail, hcongr, weaveFrom,
      placeFrom_self, List.append_assoc]

/-- Where a byte of a content stands with the pieces up to it put in. -/
def place (piece : Nat → Bytes) (content : Bytes) (q : Nat) : Nat := placeFrom piece 0 content q

/-- A place is behind the pieces of the bytes in front of it and behind its own. -/
theorem place_append (pre post : Bytes) :
    place piece (pre ++ post) pre.length = (weave piece pre ++ piece pre.length).length := by
  rw [place, placeFrom, Nat.sub_zero, List.take_left, List.length_append, weave]

theorem weave_append {pre post : Bytes} (hpost : post ≠ []) :
    weave piece (pre ++ post)
      = (weave piece pre ++ piece pre.length) ++ weaveTail piece pre.length post := by
  rw [weave, weaveFrom_append, Nat.zero_add, weaveFrom_eq hpost, List.append_assoc, weave]

theorem place_injective {content : Bytes} {p q : Nat} (hp : p < content.length)
    (hq : q < content.length) (h : place piece content p = place piece content q) : p = q := by
  rcases Nat.lt_trichotomy p q with hlt | heq | hlt
  · exact absurd h (Nat.ne_of_lt (placeFrom_lt (Nat.zero_le p) hlt (by simpa using hp)))
  · exact heq
  · exact absurd h.symm (Nat.ne_of_lt (placeFrom_lt (Nat.zero_le q) hlt (by simpa using hq)))

theorem weave_weave {other : Nat → Bytes} {content : Bytes}
    (h : ∀ p, other p ≠ [] → ∃ q, q < content.length ∧ p = place piece content q) :
    weave other (weave piece content)
      = weave (fun q => piece q ++ other (place piece content q)) content := by
  have hplaces : ∀ p, 0 ≤ p → other p ≠ [] →
      ∃ q, 0 ≤ q ∧ q < 0 + content.length ∧ p = 0 + placeFrom piece 0 content q := by
    intro p _ hne
    obtain ⟨q, hlt, rfl⟩ := h p hne
    exact ⟨q, Nat.zero_le q, by simpa using hlt, (Nat.zero_add _).symm⟩
  have htwice := weaveFrom_weaveFrom hplaces
  simp only [Nat.zero_add] at htwice
  exact htwice

/-! ## Lines -/

/-- A line that may stand above a construction: it starts with a dash, ends with its only newline
    and holds no closing parenthesis. -/
def IsLine (piece : Bytes) : Prop :=
  ∃ body : List Char, piece = encode ('-' :: (body ++ ['\n'])) ∧ '\n' ∉ body ∧ ')' ∉ body

theorem newline_mem_encode_iff {cs : List Char} : newline ∈ encode cs ↔ '\n' ∈ cs := by
  rw [Utf8.mem_encode_iff (by decide)]
  constructor
  · rintro ⟨c, hc, hval⟩
    have hnewline : c = '\n' := Char.ext (UInt32.toNat_inj.mp hval)
    exact hnewline ▸ hc
  · intro h
    exact ⟨'\n', h, rfl⟩

/-- A line is a dash and a rest that ends with its only newline. -/
theorem IsLine.exists_bytes {piece : Bytes} (h : IsLine piece) :
    ∃ body, piece = 0x2D :: (body ++ [newline]) ∧ newline ∉ body := by
  obtain ⟨body, rfl, hnewline, -⟩ := h
  refine ⟨encode body, ?_, fun hmem => hnewline (newline_mem_encode_iff.mp hmem)⟩
  rw [Utf8.encode_cons, Utf8.encode_append]
  rfl

theorem IsLine.ne_nil {piece : Bytes} (h : IsLine piece) : piece ≠ [] := by
  obtain ⟨body, rfl, -⟩ := h.exists_bytes
  simp

theorem IsLine.endsLine {piece : Bytes} (h : IsLine piece) : EndsLine piece := by
  obtain ⟨body, rfl, -⟩ := h.exists_bytes
  exact endsLine_append_newline (0x2D :: body)

/-- No run of a class without the dash enters a line. -/
theorem IsLine.stops {piece : Bytes} (h : IsLine piece) {p : Char → Bool} (hp : p '-' = false)
    (rest : Bytes) : Stops p (piece ++ rest) := by
  obtain ⟨body, rfl, -⟩ := h.exists_bytes
  exact Utf8.stops_cons_of_ascii (by decide) hp _

/-! ## Reading woven bytes -/

/-- Byte lists of which the second one has lines put into it, each behind a newline and in front
    of a construction. -/
inductive Woven (compose : Bytes) : Bytes → Bytes → Prop where
  | nil : Woven compose [] []
  | cons (b : UInt8) {bs bs' : Bytes} : Woven compose bs bs' → Woven compose (b :: bs) (b :: bs')
  | line {piece bs bs' : Bytes} : IsLine piece → (construction? compose bs).isSome →
      Woven compose bs bs' → Woven compose (newline :: bs) (newline :: (piece ++ bs'))

/-- The tail of a weaving has its pieces behind newlines, if they were at line starts. -/
theorem woven_weaveTail {compose : Bytes} {pos : Nat} {bs : Bytes}
    (h : ∀ q, pos < q → piece q ≠ [] → IsLine (piece q) ∧
      ∃ pre post, bs = pre ++ post ∧ q = pos + pre.length ∧ pre.getLast? = some newline ∧
        (construction? compose post).isSome) :
    Woven compose bs (weaveTail piece pos bs) := by
  induction bs generalizing pos with
  | nil => exact .nil
  | cons b rest ih =>
    have htail : Woven compose rest (weaveTail piece (pos + 1) rest) := by
      refine ih fun q hq hne => ?_
      obtain ⟨hline, pre, post, hbs, hlen, hlast, hsome⟩ := h q (by omega) hne
      -- the bytes in front reach behind `b`, so `b` can be taken off them
      cases pre with
      | nil => simp at hlast
      | cons x pre =>
        obtain ⟨rfl, rfl⟩ : b = x ∧ rest = pre ++ post := by simpa using hbs
        have hpre : pre ≠ [] := by
          rintro rfl
          simp only [List.length_cons, List.length_nil] at hlen
          omega
        refine ⟨hline, pre, post, rfl, ?_, ?_, hsome⟩
        · simp only [List.length_cons] at hlen
          omega
        · rwa [List.getLast?_cons_of_ne_nil hpre] at hlast
    by_cases hpiece : piece (pos + 1) = []
    · have heq : weaveFrom piece (pos + 1) rest = weaveTail piece (pos + 1) rest := by
        cases rest with
        | nil => rfl
        | cons c rest => rw [weaveFrom_eq (by simp), hpiece, List.nil_append]
      rw [weaveTail, heq]
      exact .cons b htail
    · obtain ⟨hline, pre, post, hbs, hlen, hlast, hsome⟩ := h (pos + 1) (by omega) hpiece
      -- the piece stands right behind `b`, which is the newline in front of it
      obtain ⟨x, rfl⟩ : ∃ x, pre = [x] := by
        rw [← List.length_eq_one_iff]
        omega
      obtain ⟨rfl, rfl⟩ : b = x ∧ rest = post := by simpa using hbs
      obtain rfl : b = newline := by simpa using hlast
      have hrest : rest ≠ [] := by
        rintro rfl
        rw [construction?_nil] at hsome
        cases hsome
      rw [weaveTail, weaveFrom_eq hrest]
      exact .line hline hsome htail

namespace Woven

variable {compose bs bs' : Bytes}

/-- Lines are put in only behind newlines, so bytes without one are shared. -/
theorem exists_of_append {e r : Bytes} (he : newline ∉ e) (h : Woven compose (e ++ r) bs') :
    ∃ r', bs' = e ++ r' ∧ Woven compose r r' := by
  induction e generalizing bs' with
  | nil => exact ⟨bs', rfl, h⟩
  | cons x e ih =>
    simp only [List.mem_cons, not_or] at he
    cases h with
    | cons _ htail =>
      obtain ⟨r', rfl, hr⟩ := ih he.2 htail
      exact ⟨r', rfl, hr⟩
    | line => exact absurd rfl he.1

theorem exists_of_append_right {e r' : Bytes} (he : newline ∉ e)
    (h : Woven compose bs (e ++ r')) : ∃ r, bs = e ++ r ∧ Woven compose r r' := by
  induction e generalizing bs with
  | nil => exact ⟨bs, rfl, h⟩
  | cons x e ih =>
    simp only [List.mem_cons, not_or] at he
    generalize hw : x :: e ++ r' = w at h
    cases h with
    | nil => cases hw
    | cons b htail =>
      obtain ⟨rfl, rfl⟩ : x = b ∧ e ++ r' = _ := by simpa using hw
      obtain ⟨r, rfl, hr⟩ := ih he.2 htail
      exact ⟨r, rfl, hr⟩
    | line =>
      obtain ⟨rfl, -⟩ : x = newline ∧ _ := by simpa using hw
      exact absurd rfl he.1

/-- The first bytes agree. -/
theorem head?_eq (h : Woven compose bs bs') : bs'.head? = bs.head? := by
  cases h <;> rfl

theorem newline_notMem_encodeChar {c : Char} (hc : c ≠ '\n') :
    newline ∉ String.utf8EncodeChar c := by
  intro hmem
  rw [Utf8.mem_encodeChar_iff (by decide)] at hmem
  exact hc (Char.ext (UInt32.toNat_inj.mp hmem))

/-- A class stops at the woven bytes where it stops without the lines. -/
theorem stops {p : Char → Bool} (h : Woven compose bs bs') (hstop : Stops p bs) :
    Stops p bs' := by
  intro c rest' hnext
  have hbs' := Utf8.eq_of_next? hnext
  -- the character that is read was there before, with or without a line behind it
  by_cases hc : c = '\n'
  · subst hc
    have hhead : bs.head? = some newline := by
      rw [← h.head?_eq, hbs']
      rfl
    obtain ⟨rest, rfl⟩ : ∃ rest, bs = newline :: rest := by
      cases bs with
      | nil => cases hhead
      | cons b rest => exact ⟨rest, by simpa using hhead⟩
    exact hstop '\n' rest (Utf8.next?_encodeChar_append '\n' rest)
  · rw [hbs'] at h
    obtain ⟨rest, rfl, -⟩ := h.exists_of_append_right (newline_notMem_encodeChar hc)
    exact hstop c rest (Utf8.next?_encodeChar_append c rest)

/-- A run of a class with no newline in it is shared. -/
theorem exists_run {cs : List Char} {r : Bytes} (hcs : '\n' ∉ cs)
    (h : Woven compose (encode cs ++ r) bs') :
    ∃ r', bs' = encode cs ++ r' ∧ Woven compose r r' :=
  h.exists_of_append fun hmem => hcs (newline_mem_encode_iff.mp hmem)

/-- Behind a character the woven bytes go on as the others do, or with a line first if it is a
    newline. -/
theorem exists_of_encodeChar_append {c : Char} {r : Bytes}
    (h : Woven compose (String.utf8EncodeChar c ++ r) bs') :
    (∃ r', bs' = String.utf8EncodeChar c ++ r' ∧ Woven compose r r') ∨
      ∃ piece r', bs' = String.utf8EncodeChar c ++ (piece ++ r') ∧ c = '\n' ∧ IsLine piece ∧
        Woven compose r r' := by
  by_cases hc : c = '\n'
  · subst hc
    have hbytes : String.utf8EncodeChar '\n' ++ r = newline :: r := rfl
    rw [hbytes] at h
    cases h with
    | cons _ hr => exact .inl ⟨_, rfl, hr⟩
    | line hline _ hr => exact .inr ⟨_, _, rfl, rfl, hline, hr⟩
  · obtain ⟨r', rfl, hr⟩ := h.exists_of_append (newline_notMem_encodeChar hc)
    exact .inl ⟨r', rfl, hr⟩

/-- An argument list is read over the lines in it. -/
theorem exists_arguments {cs : List Char} {r : Bytes} (hcs : ∀ c ∈ cs, c ≠ ')')
    (h : Woven compose (encode cs ++ r) bs') :
    ∃ cs' r', bs' = encode cs' ++ r' ∧ (∀ c ∈ cs', c ≠ ')') ∧ (cs' = [] ↔ cs = []) ∧
      Woven compose r r' := by
  induction cs generalizing bs' with
  | nil => exact ⟨[], bs', rfl, by simp, Iff.rfl, h⟩
  | cons c cs ih =>
    obtain ⟨hc, hrest⟩ := List.forall_mem_cons.mp hcs
    rw [Utf8.encode_cons, List.append_assoc] at h
    rcases h.exists_of_encodeChar_append with
      ⟨bs', rfl, htail⟩ | ⟨piece, bs', rfl, rfl, hline, htail⟩
    · obtain ⟨cs', r', rfl, hcs', -, hr⟩ := ih hrest htail
      refine ⟨c :: cs', r', ?_, List.forall_mem_cons.mpr ⟨hc, hcs'⟩, by simp, hr⟩
      rw [Utf8.encode_cons, List.append_assoc]
    · -- the line becomes part of the list, since it closes nothing
      obtain ⟨cs', r', rfl, hcs', -, hr⟩ := ih hrest htail
      obtain ⟨body, rfl, -, hclose⟩ := hline
      refine ⟨'\n' :: '-' :: (body ++ '\n' :: cs'), r', ?_, ?_, by simp, hr⟩
      · simp [Utf8.encode_cons, Utf8.encode_append]
      · simp only [List.forall_mem_cons, List.forall_mem_append]
        refine ⟨by decide, by decide, fun d hd => ?_, by decide, hcs'⟩
        rintro rfl
        exact hclose hd

/-- Blanks are read up to the place where they end without the lines, or up to a line in front of a
    construction. -/
theorem exists_blanks {cs : List Char} {r : Bytes} (hcs : ∀ c ∈ cs, isBlank c = true)
    (h : Woven compose (encode cs ++ r) bs') :
    (∃ r', bs' = encode cs ++ r' ∧ Woven compose r r') ∨
      ∃ cs' piece r', bs' = encode cs' ++ (piece ++ r') ∧ (∀ c ∈ cs', isBlank c = true) ∧
        IsLine piece := by
  induction cs generalizing bs' with
  | nil => exact .inl ⟨bs', rfl, h⟩
  | cons c cs ih =>
    obtain ⟨hc, hrest⟩ := List.forall_mem_cons.mp hcs
    rw [Utf8.encode_cons, List.append_assoc] at h
    rcases h.exists_of_encodeChar_append with ⟨bs', rfl, htail⟩ | ⟨piece, bs', rfl, -, hline, -⟩
    · rcases ih hrest htail with ⟨r', rfl, hr⟩ | ⟨cs', piece, r', rfl, hcs', hline⟩
      · refine .inl ⟨r', ?_, hr⟩
        rw [Utf8.encode_cons, List.append_assoc]
      · refine .inr ⟨c :: cs', piece, r', ?_, List.forall_mem_cons.mpr ⟨hc, hcs'⟩, hline⟩
        rw [Utf8.encode_cons, List.append_assoc]
    · -- the blanks end at the first line
      refine .inr ⟨[c], piece, bs', ?_, by simpa using hc, hline⟩
      simp [Utf8.encode_cons]

end Woven

/-! ## Readings that fail -/

/-- Two ways to split a byte list at the end of a longest run are the same. -/
theorem run_unique {p : Char → Bool} {cs cs' : List Char} {r r' : Bytes}
    (h : encode cs ++ r = encode cs' ++ r') (hcs : ∀ c ∈ cs, p c = true)
    (hcs' : ∀ c ∈ cs', p c = true) (hr : Stops p r) (hr' : Stops p r') : cs = cs' ∧ r = r' := by
  have hspan := Utf8.span_encode_append hcs hr
  rw [h, Utf8.span_encode_append hcs' hr'] at hspan
  obtain ⟨rfl, rfl⟩ : cs' = cs ∧ r' = r := by simpa using hspan
  exact ⟨rfl, rfl⟩

/-- Blanks that end in front of what no line starts with are the same without the lines. -/
theorem Woven.of_blanks {compose : Bytes} {cs cs' : List Char} {r r' : Bytes}
    (h : Woven compose (encode cs ++ r) (encode cs' ++ r')) (hcs : ∀ c ∈ cs, isBlank c = true)
    (hcs' : ∀ c ∈ cs', isBlank c = true) (hr : Stops isBlank r) (hr' : Stops isBlank r')
    (hline : ∀ piece tail, IsLine piece → piece ++ tail ≠ r') : cs = cs' ∧ Woven compose r r' := by
  rcases h.exists_blanks hcs with ⟨r'', heq, hwoven⟩ | ⟨cs'', piece, tail, heq, hcs'', hpiece⟩
  · obtain ⟨rfl, rfl⟩ := run_unique heq.symm hcs hcs' (hwoven.stops hr) hr'
    exact ⟨rfl, hwoven⟩
  · -- the dash of a line ends the blanks, so the line would stand in front of `r'`
    obtain ⟨-, hstart⟩ :=
      run_unique heq.symm hcs'' hcs' (hpiece.stops (by decide) tail) hr'
    exact absurd hstart (hline piece tail hpiece)

variable {compose : String} {bs bs' : Bytes}

theorem newline_notMem_ofString (hcompose : OfWordChars compose) :
    newline ∉ Utf8.ofString compose := by
  intro hmem
  rw [Utf8.ofString, newline_mem_encode_iff] at hmem
  have hword := hcompose '\n' hmem
  revert hword
  decide

theorem IsLine.append_ne_equals {piece : Bytes} (hline : IsLine piece) (r rest : Bytes) :
    piece ++ r ≠ 0x3D :: rest := by
  intro h
  obtain ⟨body, rfl, -⟩ := hline.exists_bytes
  have hhead : (0x2D : UInt8) = 0x3D := (List.cons.inj h).1
  revert hhead
  decide

/-- A line in front of some bytes is no definition. -/
theorem IsLine.append_ne_definitionBytes {piece : Bytes} (hline : IsLine piece)
    (hcompose : OfWordChars compose) (r rest : Bytes) (arguments : Option (List Char)) :
    piece ++ r ≠ definitionBytes (Utf8.ofString compose) arguments ++ rest := by
  intro h
  obtain ⟨c, tail, hnext, hfirst⟩ := exists_next?_definitionBytes hcompose arguments rest
  rw [← h] at hnext
  -- no dash opens a definition
  rcases hfirst with hword | rfl | rfl
  · rw [hline.stops (p := isWordChar) (by decide) r c tail hnext] at hword
    cases hword
  · exact absurd (hline.stops (p := (· = '(')) (by decide) r _ tail hnext) (by decide)
  · exact absurd (hline.stops (p := (· = '\x7b')) (by decide) r _ tail hnext) (by decide)

/-- A definition that is read over lines is one without them. -/
theorem Woven.isSome_definition? (hcompose : OfWordChars compose)
    (h : Woven (Utf8.ofString compose) bs bs') {arguments : Option (List Char)} {rest' : Bytes}
    (hvalid : ValidArguments arguments)
    (hbs' : bs' = definitionBytes (Utf8.ofString compose) arguments ++ rest') :
    ∃ arguments rest, ValidArguments arguments ∧
      bs = definitionBytes (Utf8.ofString compose) arguments ++ rest := by
  subst hbs'
  cases arguments with
  | none =>
    obtain ⟨rest, rfl, -⟩ := h.exists_of_append_right (e := [0x7B]) (by decide)
    exact ⟨none, rest, trivial, rfl⟩
  | some arguments =>
    obtain ⟨hne, harguments⟩ := hvalid
    have hbytes : definitionBytes (Utf8.ofString compose) (some arguments) ++ rest'
        = (Utf8.ofString compose ++ [0x28]) ++ (encode arguments ++ 0x29 :: rest') := by
      simp [definitionBytes]
    have hopen : newline ∉ Utf8.ofString compose ++ [0x28] := by
      simp only [List.mem_append, List.mem_singleton, not_or]
      exact ⟨newline_notMem_ofString hcompose, by decide⟩
    -- the function and the parenthesis hold no newline, so they stand there without the lines
    rw [hbytes] at h
    obtain ⟨inside, rfl, hinside⟩ := h.exists_of_append_right hopen
    obtain ⟨cs, r, rfl, hcs, hr⟩ := Utf8.exists_run (fun c => decide (c ≠ ')')) inside
    have hcs_ne : ∀ c ∈ cs, c ≠ ')' := fun c hc => by simpa using hcs c hc
    -- the list that is read over lines ends where the one without them ends
    obtain ⟨cs', r', heq, hcs', hnil, hwoven⟩ := hinside.exists_arguments hcs_ne
    obtain ⟨rfl, rfl⟩ : arguments = cs' ∧ 0x29 :: rest' = r' :=
      run_unique (p := fun c => decide (c ≠ ')')) heq (by simpa using harguments)
        (by simpa using hcs') (stops_close rest') (hwoven.stops hr)
    obtain ⟨rest, rfl, -⟩ := hwoven.exists_of_append_right (e := [0x29]) (by decide)
    refine ⟨some cs, rest, ⟨fun h => hne (hnil.mpr h), hcs_ne⟩, ?_⟩
    simp [definitionBytes]

/-- A construction that is read over lines is one without them: where a reading fails, it fails
    also with lines put in. -/
theorem Woven.construction?_eq_none (hcompose : OfWordChars compose)
    (h : Woven (Utf8.ofString compose) bs bs')
    (hnone : construction? (Utf8.ofString compose) bs = none) :
    construction? (Utf8.ofString compose) bs' = none := by
  rw [Option.eq_none_iff_forall_ne_some]
  intro c' hc'
  obtain ⟨s, rest', hvalid, hbs', -⟩ := (construction?_eq_some_iff hcompose).mp hc'
  rw [Spelling.bytes, List.append_assoc, List.append_assoc, List.cons_append,
    List.append_assoc] at hbs'
  have hequals : ∀ {p : Char → Bool}, p '=' = false → Stops p (0x3D :: (encode s.after ++
      (definitionBytes (Utf8.ofString compose) s.arguments ++ rest'))) :=
    fun hp => Utf8.stops_cons_of_ascii (by decide) hp _
  -- no line starts inside the name
  obtain ⟨name, r₁, rfl, hname, hr₁⟩ := Utf8.exists_run isWordChar bs
  have hname_line : '\n' ∉ name := fun hmem => absurd (hname '\n' hmem) (by decide)
  obtain ⟨r₁', rfl, h₁⟩ := h.exists_run hname_line
  obtain ⟨rfl, rfl⟩ := run_unique hbs' hname hvalid.isWordChar_name (h₁.stops hr₁)
    (stops_isWordChar_encode_blank hvalid.isBlank_before (hequals (by decide)))
  -- the blanks in front of the equals sign
  obtain ⟨before, r₂, rfl, hbefore, hr₂⟩ := Utf8.exists_run isBlank r₁
  obtain ⟨rfl, h₂⟩ := h₁.of_blanks hbefore hvalid.isBlank_before hr₂ (hequals (by decide))
    fun piece tail hline => hline.append_ne_equals tail _
  obtain ⟨r₃, rfl, h₃⟩ := h₂.exists_of_append_right (e := [0x3D]) (by decide)
  -- the blanks behind it
  obtain ⟨after, r₄, rfl, hafter, hr₄⟩ := Utf8.exists_run isBlank r₃
  obtain ⟨rfl, h₄⟩ := h₃.of_blanks hafter hvalid.isBlank_after hr₄
    (stops_isBlank_definitionBytes hcompose s.arguments rest')
    fun piece tail hline => hline.append_ne_definitionBytes hcompose tail rest' s.arguments
  -- the definition
  obtain ⟨arguments, rest, harguments, rfl⟩ := h₄.isSome_definition? hcompose hvalid.arguments rfl
  have hread := construction?_bytes hcompose (s := ⟨s.name, s.before, s.after, arguments⟩)
    ⟨hvalid.name_ne_nil, hvalid.isWordChar_name, hvalid.isBlank_before, hafter, harguments⟩ rest
  rw [Spelling.bytes, List.append_assoc, List.append_assoc, List.cons_append,
    List.append_assoc] at hread
  rw [List.singleton_append, hread] at hnone
  cases hnone

end Lineage
