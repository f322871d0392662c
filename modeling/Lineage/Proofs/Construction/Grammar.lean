import Lineage.Proofs.Construction.Matches

/-!
# The grammar of constructions

The search goes through a content from left to right, tries every line start and jumps over what it
has found. So it finds a construction wherever one is spelled at a line start, unless the place lies
inside a construction found before, and it finds nothing else.

## Main definitions

- `Spelling.StandsAt` tells that a construction is spelled at a line start of a content

## Main statements

- `mem_constructionsFrom_of_construction?`: nothing is missed
- `constructions_exact`: what is found, and where
-/

namespace Lineage

open Utf8 (encode Stops)

/-! ## Nothing is missed -/

/-- The last byte of a nonempty list stays the last one when the first byte is taken off, unless it
    is that byte. -/
theorem getLast?_of_cons {b : UInt8} {pre : Bytes} (h : (b :: pre).getLast? = some newline) :
    (pre = [] → (b == newline) = true) ∧ (pre ≠ [] → pre.getLast? = some newline) := by
  constructor
  · rintro rfl
    simpa using h
  · intro hne
    rwa [List.getLast?_cons_of_ne_nil hne] at h

/-- A construction that can be read at a line start is found, unless one that was found before
    reaches over the place. -/
theorem mem_constructionsFrom_of_construction? {compose : Bytes} (pos : Nat) {skip : Nat}
    {atLineStart : Bool} {pre post : Bytes} {c : Construction} (hskip : skip ≤ pre.length)
    (hempty : pre = [] → atLineStart = true) (hline : pre ≠ [] → pre.getLast? = some newline)
    (hc : construction? compose post = some c)
    (hfree : ∀ n ∈ constructionsFrom compose pos skip atLineStart (pre ++ post),
      n.start < pos + pre.length → n.stop ≤ pos + pre.length) :
    c.matchAt (pos + pre.length)
      ∈ constructionsFrom compose pos skip atLineStart (pre ++ post) := by
  induction pre generalizing pos skip atLineStart with
  | nil =>
    obtain rfl : skip = 0 := Nat.le_zero.mp hskip
    obtain ⟨b, rest, rfl⟩ : ∃ b rest, post = b :: rest := by
      apply List.exists_cons_of_ne_nil
      rintro rfl
      rw [construction?_nil] at hc
      cases hc
    have hread : constructionAt? compose atLineStart (b :: rest) = some c :=
      constructionAt?_eq_some_iff.mpr ⟨hempty rfl, hc⟩
    rw [List.nil_append, constructionsFrom_of_some pos hread]
    exact List.mem_cons_self ..
  | cons b pre ih =>
    obtain ⟨hempty', hline'⟩ := getLast?_of_cons (hline (List.cons_ne_nil b pre))
    have hplace : pos + (b :: pre).length = pos + 1 + pre.length := by
      simp only [List.length_cons]
      omega
    rw [hplace] at hfree ⊢
    rw [List.cons_append] at hfree ⊢
    cases skip with
    | succ skip =>
      -- a construction found before is still being skipped
      exact ih (pos + 1) (Nat.le_of_succ_le_succ hskip) hempty' hline' hfree
    | zero =>
      cases hread : constructionAt? compose atLineStart (b :: (pre ++ post)) with
      | none =>
        rw [constructionsFrom_of_none pos hread] at hfree ⊢
        exact ih (pos + 1) (Nat.zero_le _) hempty' hline' hfree
      | some d =>
        rw [constructionsFrom_of_some pos hread] at hfree ⊢
        -- the one found here ends in front of the place, so the search is on again by then
        have hstop : pos + d.length ≤ pos + 1 + pre.length := by
          apply hfree (d.matchAt pos) (List.mem_cons_self ..)
          show pos < pos + 1 + pre.length
          omega
        apply List.mem_cons_of_mem
        apply ih (pos + 1) (by omega) hempty' hline'
        intro n hn
        exact hfree n (List.mem_cons_of_mem _ hn)

/-! ## The grammar -/

/-- A construction is spelled in a content behind `front`: a line starts there, and the bytes from
    there on are a name, blanks, an equals sign, blanks and a definition, with `rest` behind it. The
    name is followed by `tail`, with which it does not go on. -/
structure Spelling.StandsAt (compose : String) (content : Bytes) (s : Spelling)
    (front tail rest : Bytes) : Prop where
  content_eq : content = front ++ (encode s.name ++ tail)
  tail_eq : tail = encode s.before ++ (0x3D :: (encode s.after ++
    (definitionBytes (Utf8.ofString compose) s.arguments ++ rest)))
  atLineStart : EndsLine front
  valid : s.Valid
  longest : Stops isWordChar tail

variable {compose : String} {content front tail rest : Bytes} {s : Spelling}

/-- The bytes of a spelling, with what stands behind them. -/
theorem Spelling.bytes_append (compose : Bytes) (s : Spelling) (rest : Bytes) :
    s.bytes compose ++ rest = encode s.name ++ (encode s.before ++ (0x3D :: (encode s.after ++
      (definitionBytes compose s.arguments ++ rest)))) := by
  simp [Spelling.bytes]

/-- Of two constructions that are found, the one that starts first ends in front of the other. -/
theorem stop_le_start {m n : Match} (hn : n ∈ constructions compose content)
    (hm : m ∈ constructions compose content) (hlt : n.start < m.start) : n.stop ≤ m.start := by
  -- said of both orders, so that it does not matter which of the two comes first in the list
  have hsymm : Std.Symm fun m n : Match =>
      (m.start < n.start → m.stop ≤ n.start) ∧ (n.start < m.start → n.stop ≤ m.start) :=
    ⟨fun _ _ h => ⟨h.2, h.1⟩⟩
  have hpairs : (constructions compose content).Pairwise fun m n : Match =>
      (m.start < n.start → m.stop ≤ n.start) ∧ (n.start < m.start → n.stop ≤ m.start) := by
    refine (pairwise_constructions compose content).imp fun {m n} h => ⟨fun _ => h.2, fun hgt => ?_⟩
    omega
  have hne : n ≠ m := by
    rintro rfl
    exact Nat.lt_irrefl _ hlt
  exact (hpairs.forall hn hm hne).1 hlt

/-- A name ends where the blanks or the equals sign begin. -/
theorem Spelling.Valid.standsAt (hvalid : s.Valid) (hfront : EndsLine front) :
    s.StandsAt compose (front ++ (s.bytes (Utf8.ofString compose) ++ rest)) front
      (encode s.before ++ (0x3D :: (encode s.after ++
        (definitionBytes (Utf8.ofString compose) s.arguments ++ rest)))) rest where
  content_eq := by rw [Spelling.bytes_append]
  tail_eq := rfl
  atLineStart := hfront
  valid := hvalid
  longest := by
    apply stops_isWordChar_encode_blank hvalid.isBlank_before
    exact Utf8.stops_cons_of_ascii (by decide) (by decide) _

theorem Spelling.StandsAt.content_eq_bytes (h : s.StandsAt compose content front tail rest) :
    content = front ++ (s.bytes (Utf8.ofString compose) ++ rest) := by
  rw [h.content_eq, h.tail_eq, Spelling.bytes_append]

/-- What is found is spelled. -/
theorem exists_standsAt (hcompose : IsWord compose) {m : Match}
    (hm : m ∈ constructions compose content) :
    ∃ (s : Spelling) (front tail rest : Bytes), s.StandsAt compose content front tail rest ∧
      m = (s.construction (Utf8.ofString compose) rest).matchAt front.length := by
  obtain ⟨front, post, c, rfl, hfront, hc, rfl⟩ := mem_constructions hm
  obtain ⟨s, rest, hvalid, rfl, rfl⟩ := (construction?_eq_some_iff hcompose.ofWordChars).mp hc
  exact ⟨s, front, _, rest, hvalid.standsAt hfront, rfl⟩

/-- What is spelled is found, unless it lies inside another construction. -/
theorem Spelling.StandsAt.mem_constructions (hcompose : IsWord compose)
    (h : s.StandsAt compose content front tail rest)
    (hfree : ∀ n ∈ constructions compose content, n.start < front.length →
      n.stop ≤ front.length) :
    (s.construction (Utf8.ofString compose) rest).matchAt front.length
      ∈ constructions compose content := by
  have hc := construction?_bytes hcompose.ofWordChars h.valid rest
  have hline : front ≠ [] → front.getLast? = some newline := h.atLineStart.resolve_left
  obtain rfl := h.content_eq_bytes
  have hfound := mem_constructionsFrom_of_construction? 0 (Nat.zero_le _)
    (fun _ => rfl) hline hc (by rwa [Nat.zero_add])
  rwa [Nat.zero_add] at hfound

/-- The constructions found in a content are exactly those that are spelled at a line start which
    lies in no construction found before. They come in the order of their starts and do not overlap.
    Each one ends behind its brace, or behind its parenthesis and a semicolon that directly follows;
    its bundle is the name, and its parents are read off the argument list. -/
theorem constructions_exact (hcompose : IsWord compose) (content : Bytes) :
    (constructions compose content).Pairwise (fun m n => m.start < m.stop ∧ m.stop ≤ n.start) ∧
    ∀ m : Match, m ∈ constructions compose content ↔
      (∀ n ∈ constructions compose content, n.start < m.start → n.stop ≤ m.start) ∧
      ∃ (s : Spelling) (front tail rest : Bytes), s.StandsAt compose content front tail rest ∧
        m.start = front.length ∧
        m.stop = front.length + (s.bytes (Utf8.ofString compose)).length
          + semicolonWidth s.arguments rest ∧
        m.bundle = String.ofList s.name ∧
        m.parents = (s.arguments.map fun list => parentList (String.ofList list)).getD [] := by
  refine ⟨pairwise_constructions compose content, fun m => ⟨fun hm => ?_, ?_⟩⟩
  · refine ⟨fun n hn hlt => stop_le_start hn hm hlt, ?_⟩
    obtain ⟨s, front, tail, rest, hstands, rfl⟩ := exists_standsAt hcompose hm
    refine ⟨s, front, tail, rest, hstands, rfl, ?_, rfl, ?_⟩
    · simp only [Construction.matchAt, Spelling.construction, Nat.add_assoc]
    · simp only [Construction.matchAt, Spelling.construction, Option.map_map, Function.comp_def]
  · rintro ⟨hfree, s, front, tail, rest, hstands, hstart, hstop, hbundle, hparents⟩
    -- the four parts of the match are those of the spelling
    obtain rfl : m = (s.construction (Utf8.ofString compose) rest).matchAt front.length := by
      obtain ⟨start, stop, bundle, parents⟩ := m
      simp only at hstart hstop hbundle hparents
      subst hstart hstop hbundle hparents
      simp only [Construction.matchAt, Spelling.construction, Option.map_map, Function.comp_def,
        Nat.add_assoc]
    exact hstands.mem_constructions hcompose hfree

/-- A composition with a table in its argument list, and the same table behind it. -/
def nested : Bytes :=
  Utf8.ofString "A = CreateFromMixins(\nB = \x7b\n);\nB = \x7b\x7d\n"

/-- The table in the argument list lies inside the composition, so only the other one is found. -/
theorem constructions_exact_nested :
    IsWord "CreateFromMixins" ∧
      constructions "CreateFromMixins" nested
        = [⟨0, 30, "A", ["B = \x7b"]⟩, ⟨31, 36, "B", []⟩] ∧
      ∃ (s : Spelling) (front tail rest : Bytes),
        s.StandsAt "CreateFromMixins" nested front tail rest ∧ front.length = 31 := by
  have hword : IsWord "CreateFromMixins" := by decide +kernel
  have hfound : constructions "CreateFromMixins" nested
      = [⟨0, 30, "A", ["B = \x7b"]⟩, ⟨31, 36, "B", []⟩] := by
    decide +kernel
  have hmem : ⟨31, 36, "B", []⟩ ∈ constructions "CreateFromMixins" nested := by
    simp [hfound]
  obtain ⟨-, s, front, tail, rest, hstands, hstart, -⟩ :=
    ((constructions_exact hword nested).2 _).mp hmem
  exact ⟨hword, hfound, s, front, tail, rest, hstands, hstart.symm⟩

end Lineage
