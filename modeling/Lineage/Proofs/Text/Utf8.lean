import Lineage.Text.Utf8
import Mathlib.Tactic

/-!
# Reading and writing scalars

Reading one scalar off a byte list undoes writing it, and only that: what `next?` accepts is the
encoding of the scalar it gives. A run of scalars at the head of a byte list is therefore an
encoded text with a rest that the class of the run does not extend.

## Main statements

- `next?_eq_some_iff`: reading is the inverse of `String.utf8EncodeChar`
- `span_eq_iff`: the longest run of a class, without the recursion that finds it
- `decode_encode`, `lossy_encode`: reading a whole text
- `mem_encode_iff`: an ASCII byte stands in an encoded text only for its own scalar
-/

namespace Lineage

namespace Utf8

/-! ## Byte classes by value -/

theorem leadWidth_eq (b : UInt8) :
    leadWidth b = if b.toNat < 128 then 1 else if b.toNat < 194 then 0
      else if b.toNat < 224 then 2 else if b.toNat < 240 then 3
      else if b.toNat < 245 then 4 else 0 := by
  simp only [leadWidth, UInt8.lt_iff_toNat_lt, UInt8.reduceToNat]

theorem leadWidth_eq_one_iff {b : UInt8} : leadWidth b = 1 ↔ b.toNat < 128 := by
  rw [leadWidth_eq]
  split_ifs <;> simp <;> omega

theorem leadWidth_eq_two_iff {b : UInt8} : leadWidth b = 2 ↔ 194 ≤ b.toNat ∧ b.toNat < 224 := by
  rw [leadWidth_eq]
  split_ifs <;> simp <;> omega

theorem leadWidth_eq_three_iff {b : UInt8} :
    leadWidth b = 3 ↔ 224 ≤ b.toNat ∧ b.toNat < 240 := by
  rw [leadWidth_eq]
  split_ifs <;> simp <;> omega

theorem leadWidth_eq_four_iff {b : UInt8} :
    leadWidth b = 4 ↔ 240 ≤ b.toNat ∧ b.toNat < 245 := by
  rw [leadWidth_eq]
  split_ifs <;> simp <;> omega

theorem isTail_iff {b : UInt8} : isTail b = true ↔ 128 ≤ b.toNat ∧ b.toNat ≤ 191 := by
  simp [isTail, UInt8.le_iff_toNat_le]

/-- A second byte is a continuation byte, with tighter bounds behind four of the lead bytes. -/
theorem isSecond_iff {a b : UInt8} :
    isSecond a b = true ↔
      (a.toNat = 0xE0 → 0xA0 ≤ b.toNat) ∧ (a.toNat = 0xED → b.toNat ≤ 0x9F) ∧
      (a.toNat = 0xF0 → 0x90 ≤ b.toNat) ∧ (a.toNat = 0xF4 → b.toNat ≤ 0x8F) ∧
      128 ≤ b.toNat ∧ b.toNat ≤ 191 := by
  simp only [isSecond, isTail, UInt8.le_iff_toNat_le, beq_iff_eq, ← UInt8.toNat_inj]
  simp only [UInt8.reduceToNat]
  split_ifs <;> simp <;> omega

/-! ## One scalar -/

private theorem val_ofNat {n : Nat} (h : n.isValidChar) : (Char.ofNat n).val.toNat = n := by
  rw [Char.ofNat, dif_pos h]
  rfl

private theorem ofNat_eq_of_toNat {b : UInt8} {n : Nat} (h : n = b.toNat) : UInt8.ofNat n = b := by
  subst h
  simp

/-- A scalar that was written is read back. -/
theorem next?_encodeChar_append (c : Char) (rest : Bytes) :
    next? (String.utf8EncodeChar c ++ rest) = some (c, rest) := by
  have hvalid := c.valid
  simp only [UInt32.isValidChar, Nat.isValidChar] at hvalid
  have hback : Char.ofNat c.val.toNat = c := Char.ofNat_toNat c
  -- one case for each width of the encoding
  fun_cases String.utf8EncodeChar
  · rename_i v h
    have hw : leadWidth (UInt8.ofNat v) = 1 := by
      rw [leadWidth_eq_one_iff, UInt8.toNat_ofNat']
      omega
    simp only [List.cons_append, List.nil_append, next?, hw]
    rw [UInt8.toNat_ofNat', Nat.mod_eq_of_lt (by omega), hback]
  · rename_i v h1 h2
    have hw : leadWidth (UInt8.ofNat (v / 64 % 32 + 192)) = 2 := by
      rw [leadWidth_eq_two_iff, UInt8.toNat_ofNat']
      omega
    have hs : isSecond (UInt8.ofNat (v / 64 % 32 + 192)) (UInt8.ofNat (v % 64 + 128)) = true := by
      rw [isSecond_iff, UInt8.toNat_ofNat', UInt8.toNat_ofNat']
      omega
    simp only [List.cons_append, List.nil_append, next?, hw, hs, if_true, Option.some.injEq,
      Prod.mk.injEq, and_true]
    refine (congrArg Char.ofNat ?_).trans hback
    rw [UInt8.toNat_ofNat', UInt8.toNat_ofNat']
    omega
  · rename_i v h1 h2 h3
    have hw : leadWidth (UInt8.ofNat (v / 4096 % 16 + 224)) = 3 := by
      rw [leadWidth_eq_three_iff, UInt8.toNat_ofNat']
      omega
    have hs : isSecond (UInt8.ofNat (v / 4096 % 16 + 224))
        (UInt8.ofNat (v / 64 % 64 + 128)) = true := by
      rw [isSecond_iff, UInt8.toNat_ofNat', UInt8.toNat_ofNat']
      omega
    have ht : isTail (UInt8.ofNat (v % 64 + 128)) = true := by
      rw [isTail_iff, UInt8.toNat_ofNat']
      omega
    simp only [List.cons_append, List.nil_append, next?, hw, hs, ht, Bool.and_self, if_true,
      Option.some.injEq, Prod.mk.injEq, and_true]
    refine (congrArg Char.ofNat ?_).trans hback
    rw [UInt8.toNat_ofNat', UInt8.toNat_ofNat', UInt8.toNat_ofNat']
    omega
  · rename_i v h1 h2 h3
    have hw : leadWidth (UInt8.ofNat (v / 262144 % 8 + 240)) = 4 := by
      rw [leadWidth_eq_four_iff, UInt8.toNat_ofNat']
      omega
    have hs : isSecond (UInt8.ofNat (v / 262144 % 8 + 240))
        (UInt8.ofNat (v / 4096 % 64 + 128)) = true := by
      rw [isSecond_iff, UInt8.toNat_ofNat', UInt8.toNat_ofNat']
      omega
    have ht (n : Nat) : isTail (UInt8.ofNat (n % 64 + 128)) = true := by
      rw [isTail_iff, UInt8.toNat_ofNat']
      omega
    simp only [List.cons_append, List.nil_append, next?, hw, hs, ht, Bool.and_self, if_true,
      Option.some.injEq, Prod.mk.injEq, and_true]
    refine (congrArg Char.ofNat ?_).trans hback
    rw [UInt8.toNat_ofNat', UInt8.toNat_ofNat', UInt8.toNat_ofNat', UInt8.toNat_ofNat']
    omega

/-- What is read was written: overlong forms and surrogates are refused, so the bytes are those
    that the scalar would be written with. -/
theorem eq_of_next? {bs rest : Bytes} {c : Char} (h : next? bs = some (c, rest)) :
    bs = String.utf8EncodeChar c ++ rest := by
  revert h
  -- the bounds on the first two bytes tell in which width the scalar would be written
  fun_cases next? bs
  case case1 =>
    intro h
    cases h
  case case2 a r hw =>
    intro h
    obtain ⟨rfl, rfl⟩ : Char.ofNat a.toNat = c ∧ r = rest := by simpa using h
    rw [leadWidth_eq_one_iff] at hw
    have hval : (Char.ofNat a.toNat).val.toNat = a.toNat :=
      val_ofNat (by simp only [Nat.isValidChar]; omega)
    have hle : a.toNat ≤ 127 := by omega
    simp [String.utf8EncodeChar, hval, hle]
  case case3 a b r hw hs =>
    intro h
    obtain ⟨hc, rfl⟩ : Char.ofNat ((a.toNat - 0xC0) * 64 + (b.toNat - 0x80)) = c ∧ r = rest := by
      simpa using h
    rw [leadWidth_eq_two_iff] at hw
    rw [isSecond_iff] at hs
    have hval : c.val.toNat = (a.toNat - 0xC0) * 64 + (b.toNat - 0x80) := by
      rw [← hc]
      exact val_ofNat (by simp only [Nat.isValidChar]; omega)
    simp only [String.utf8EncodeChar, hval]
    rw [if_neg (by omega), if_pos (by omega), ofNat_eq_of_toNat (b := a) (by omega),
      ofNat_eq_of_toNat (b := b) (by omega)]
    rfl
  case case5 a b d r hw hs =>
    intro h
    obtain ⟨hc, rfl⟩ : Char.ofNat ((a.toNat - 0xE0) * 4096 + (b.toNat - 0x80) * 64
        + (d.toNat - 0x80)) = c ∧ r = rest := by
      simpa using h
    rw [leadWidth_eq_three_iff] at hw
    rw [Bool.and_eq_true, isSecond_iff, isTail_iff] at hs
    have hval : c.val.toNat = (a.toNat - 0xE0) * 4096 + (b.toNat - 0x80) * 64
        + (d.toNat - 0x80) := by
      rw [← hc]
      exact val_ofNat (by simp only [Nat.isValidChar]; omega)
    simp only [String.utf8EncodeChar, hval]
    rw [if_neg (by omega), if_neg (by omega), if_pos (by omega),
      ofNat_eq_of_toNat (b := a) (by omega), ofNat_eq_of_toNat (b := b) (by omega),
      ofNat_eq_of_toNat (b := d) (by omega)]
    rfl
  case case7 a b d e r hw hs =>
    intro h
    obtain ⟨hc, rfl⟩ : Char.ofNat ((a.toNat - 0xF0) * 262144 + (b.toNat - 0x80) * 4096
        + (d.toNat - 0x80) * 64 + (e.toNat - 0x80)) = c ∧ r = rest := by
      simpa using h
    rw [leadWidth_eq_four_iff] at hw
    rw [Bool.and_eq_true, Bool.and_eq_true, isSecond_iff, isTail_iff, isTail_iff] at hs
    have hval : c.val.toNat = (a.toNat - 0xF0) * 262144 + (b.toNat - 0x80) * 4096
        + (d.toNat - 0x80) * 64 + (e.toNat - 0x80) := by
      rw [← hc]
      exact val_ofNat (by simp only [Nat.isValidChar]; omega)
    simp only [String.utf8EncodeChar, hval]
    rw [if_neg (by omega), if_neg (by omega), if_neg (by omega),
      ofNat_eq_of_toNat (b := a) (by omega), ofNat_eq_of_toNat (b := b) (by omega),
      ofNat_eq_of_toNat (b := d) (by omega), ofNat_eq_of_toNat (b := e) (by omega)]
    rfl
  -- in all other cases nothing is read
  all_goals
    intro h
    cases h

/-- Reading a scalar is the inverse of writing it. -/
theorem next?_eq_some_iff {bs rest : Bytes} {c : Char} :
    next? bs = some (c, rest) ↔ bs = String.utf8EncodeChar c ++ rest := by
  constructor
  · exact eq_of_next?
  · rintro rfl
    exact next?_encodeChar_append c rest

/-! ## ASCII -/

/-- A byte below 128 is the whole encoding of its scalar and occurs in no other encoding. -/
theorem mem_encodeChar_iff {b : UInt8} {c : Char} (hb : b.toNat < 128) :
    b ∈ String.utf8EncodeChar c ↔ c.toNat = b.toNat := by
  have hc : c.toNat = c.val.toNat := rfl
  have hvalid := c.valid
  simp only [UInt32.isValidChar, Nat.isValidChar] at hvalid
  -- all bytes of a longer encoding are 128 or more
  rw [hc, String.utf8EncodeChar]
  split_ifs <;> simp only [List.mem_cons, List.not_mem_nil, or_false, ← UInt8.toNat_inj,
    UInt8.toNat_ofNat'] <;> omega

/-- The encoding of an ASCII scalar. -/
theorem encodeChar_of_ascii {c : Char} (hc : c.toNat < 128) :
    String.utf8EncodeChar c = [UInt8.ofNat c.toNat] := by
  have hval : c.val.toNat ≤ 127 := Nat.le_of_lt_succ hc
  rw [String.utf8EncodeChar, if_pos hval]
  rfl

/-! ## Texts -/

@[simp] theorem encode_nil : encode [] = [] := rfl

@[simp] theorem encode_cons (c : Char) (cs : List Char) :
    encode (c :: cs) = String.utf8EncodeChar c ++ encode cs := rfl

@[simp] theorem encode_append (cs ds : List Char) : encode (cs ++ ds) = encode cs ++ encode ds :=
  List.flatMap_append

theorem ofString_append (s t : String) : ofString (s ++ t) = ofString s ++ ofString t := by
  rw [ofString, String.toList_append, encode_append]
  rfl

@[simp] theorem encode_eq_nil_iff {cs : List Char} : encode cs = [] ↔ cs = [] := by
  cases cs <;> simp

theorem mem_encode_iff {b : UInt8} {cs : List Char} (hb : b.toNat < 128) :
    b ∈ encode cs ↔ ∃ c ∈ cs, c.toNat = b.toNat := by
  simp only [encode, List.mem_flatMap, mem_encodeChar_iff hb]

/-! ## Decoding -/

/-- The head of an encoded text. -/
theorem exists_next?_encode_cons (c : Char) (cs : List Char) :
    ∃ b bs, encode (c :: cs) = b :: bs ∧ next? (b :: bs) = some (c, encode cs) := by
  have hnext := next?_encodeChar_append c (encode cs)
  rw [← encode_cons] at hnext
  cases hbytes : encode (c :: cs) with
  | nil =>
    rw [hbytes] at hnext
    cases hnext
  | cons b bs => exact ⟨b, bs, rfl, hbytes ▸ hnext⟩

theorem decodeFrom_encode (cs read : List Char) (index : Nat) :
    decodeFrom read index (encode cs) = .ok (read.reverse ++ cs) := by
  induction cs generalizing read index with
  | nil =>
    rw [encode_nil, decodeFrom, List.append_nil]
  | cons c cs ih =>
    obtain ⟨b, bs, hbytes, hnext⟩ := exists_next?_encode_cons c cs
    rw [hbytes, decodeFrom]
    split
    · rename_i hnone
      rw [hnext] at hnone
      cases hnone
    · rename_i hsome
      rw [hnext] at hsome
      cases hsome
      rw [ih]
      simp

theorem decode_encode (cs : List Char) : decode (encode cs) = .ok (String.ofList cs) := by
  rw [decode, decodeFrom_encode]
  rfl

theorem lossyFrom_encode (cs read : List Char) :
    lossyFrom read (encode cs) = read.reverse ++ cs := by
  induction cs generalizing read with
  | nil =>
    rw [encode_nil, lossyFrom, List.append_nil]
  | cons c cs ih =>
    obtain ⟨b, bs, hbytes, hnext⟩ := exists_next?_encode_cons c cs
    rw [hbytes, lossyFrom]
    split
    · rename_i hsome
      rw [hnext] at hsome
      cases hsome
      rw [ih]
      simp
    · rename_i hnone
      rw [hnext] at hnone
      cases hnone

theorem lossy_encode (cs : List Char) : lossy (encode cs) = String.ofList cs := by
  rw [lossy, lossyFrom_encode]
  rfl

/-! ## Runs -/

/-- No scalar of a class stands at the head of a byte list. -/
def Stops (p : Char → Bool) (bs : Bytes) : Prop :=
  ∀ c rest, next? bs = some (c, rest) → p c = false

theorem spanFrom_of_stops {p : Char → Bool} {run : List Char} {bs : Bytes} (h : Stops p bs) :
    spanFrom p run bs = (run.reverse, bs) := by
  rw [spanFrom]
  split
  · rfl
  · rename_i c rest hnext
    rw [h c rest hnext]
    rfl

theorem spanFrom_cons {p : Char → Bool} {c : Char} (hc : p c = true) (run : List Char)
    (rest : Bytes) :
    spanFrom p run (String.utf8EncodeChar c ++ rest) = spanFrom p (c :: run) rest := by
  rw [spanFrom]
  split
  · rename_i hnext
    rw [next?_encodeChar_append] at hnext
    cases hnext
  · rename_i d rest' hnext
    rw [next?_encodeChar_append] at hnext
    obtain ⟨rfl, rfl⟩ : c = d ∧ rest = rest' := by simpa using hnext
    rw [if_pos hc]

theorem spanFrom_encode_append {p : Char → Bool} {cs : List Char} {rest : Bytes}
    (hcs : ∀ c ∈ cs, p c = true) (hrest : Stops p rest) (run : List Char) :
    spanFrom p run (encode cs ++ rest) = (run.reverse ++ cs, rest) := by
  induction cs generalizing run with
  | nil =>
    rw [encode_nil, List.nil_append, spanFrom_of_stops hrest, List.append_nil]
  | cons c cs ih =>
    have hc : p c = true := hcs c (List.mem_cons_self ..)
    have htail : ∀ d ∈ cs, p d = true := fun d hd => hcs d (List.mem_cons_of_mem _ hd)
    rw [encode_cons, List.append_assoc, spanFrom_cons hc, ih htail]
    simp

theorem span_encode_append {p : Char → Bool} {cs : List Char} {rest : Bytes}
    (hcs : ∀ c ∈ cs, p c = true) (hrest : Stops p rest) :
    span p (encode cs ++ rest) = (cs, rest) :=
  spanFrom_encode_append hcs hrest []

/-- Where a class stops at once, its run is empty. -/
theorem span_of_stops {p : Char → Bool} {bs : Bytes} (h : Stops p bs) : span p bs = ([], bs) :=
  spanFrom_of_stops h

/-- Every byte list is a run of a class and a rest that does not extend it. -/
theorem exists_run (p : Char → Bool) (bs : Bytes) :
    ∃ cs rest, bs = encode cs ++ rest ∧ (∀ c ∈ cs, p c = true) ∧ Stops p rest := by
  induction hn : bs.length using Nat.strong_induction_on generalizing bs with
  | _ n ih =>
    by_cases hstop : Stops p bs
    · exact ⟨[], bs, rfl, by simp, hstop⟩
    · -- some scalar of the class stands at the head, and what follows it is shorter
      simp only [Stops, not_forall] at hstop
      obtain ⟨c, rest, hnext, hc⟩ := hstop
      have hlt : rest.length < n := hn ▸ length_lt_of_next? hnext
      obtain ⟨cs, rest', rfl, hcs, hrest'⟩ := ih rest.length hlt rest rfl
      refine ⟨c :: cs, rest', ?_, ?_, hrest'⟩
      · rw [eq_of_next? hnext, encode_cons, List.append_assoc]
      · intro d hd
        rcases List.mem_cons.mp hd with rfl | hd
        · simpa using hc
        · exact hcs d hd

/-- The longest run of a class is the one that the rest does not extend. -/
theorem span_eq_iff {p : Char → Bool} {bs rest : Bytes} {cs : List Char} :
    span p bs = (cs, rest) ↔
      bs = encode cs ++ rest ∧ (∀ c ∈ cs, p c = true) ∧ Stops p rest := by
  constructor
  · intro h
    obtain ⟨cs', rest', rfl, hcs, hrest⟩ := exists_run p bs
    rw [span_encode_append hcs hrest] at h
    obtain ⟨rfl, rfl⟩ : cs' = cs ∧ rest' = rest := by simpa using h
    exact ⟨rfl, hcs, hrest⟩
  · rintro ⟨rfl, hcs, hrest⟩
    exact span_encode_append hcs hrest

/-! ## Heads of byte lists -/

theorem stops_nil (p : Char → Bool) : Stops p [] := by
  intro c rest h
  cases h

/-- An ASCII byte outside a class stops its runs. -/
theorem stops_cons_of_ascii {p : Char → Bool} {b : UInt8} (hb : b.toNat < 128)
    (hp : p (Char.ofNat b.toNat) = false) (rest : Bytes) : Stops p (b :: rest) := by
  intro c rest' h
  have hw : leadWidth b = 1 := leadWidth_eq_one_iff.mpr hb
  obtain ⟨rfl, -⟩ : Char.ofNat b.toNat = c ∧ rest = rest' := by
    simpa [next?, hw] using h
  exact hp

end Utf8

end Lineage
