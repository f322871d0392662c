import Lineage.Proofs.Construction.Spelling
import Lineage.Proofs.Text.Lines

/-!
# The constructions of a content

Every construction found stands at the start of a line, is read there, and ends before the next
one starts.

## Main statements

- `mem_constructions`: a match, from the bytes in front of it and behind its start
- `pairwise_constructions`: the matches ascend and do not overlap
-/

namespace Lineage

variable {compose : String}

/-- A construction takes up at least one byte. -/
theorem length_pos_of_construction? {compose bs : Bytes} {c : Construction}
    (h : construction? compose bs = some c) : 0 < c.length := by
  rw [construction?] at h
  split at h
  · cases h
  · split at h
    · obtain ⟨d, -, rfl⟩ := Option.map_eq_some_iff.mp h
      simp only
      omega
    · cases h

/-- Nothing is constructed where no word character stands. -/
theorem construction?_eq_none_of_stops {compose bs : Bytes} (h : Utf8.Stops isWordChar bs) :
    construction? compose bs = none := by
  simp [construction?, Utf8.span_of_stops h]

theorem construction?_nil (compose : Bytes) : construction? compose [] = none :=
  construction?_eq_none_of_stops (Utf8.stops_nil _)

/-- The match of a construction at an offset. -/
def Construction.matchAt (c : Construction) (pos : Nat) : Match :=
  ⟨pos, pos + c.length, c.bundle, c.parents⟩

/-- The construction at the head of a byte list. There is none where no line starts. -/
def constructionAt? (compose : Bytes) (atLineStart : Bool) (bs : Bytes) : Option Construction :=
  if atLineStart then construction? compose bs else none

theorem constructionAt?_eq_some_iff {compose bs : Bytes} {atLineStart : Bool} {c : Construction} :
    constructionAt? compose atLineStart bs = some c ↔
      atLineStart = true ∧ construction? compose bs = some c := by
  cases atLineStart <;> simp [constructionAt?]

theorem constructionAt?_eq_none_iff {compose bs : Bytes} {atLineStart : Bool} :
    constructionAt? compose atLineStart bs = none ↔
      (atLineStart = true → construction? compose bs = none) := by
  cases atLineStart <;> simp [constructionAt?]

section

variable {compose : Bytes} {atLineStart : Bool} {b : UInt8} {rest : Bytes}

theorem constructionsFrom_of_some (pos : Nat) {c : Construction}
    (h : constructionAt? compose atLineStart (b :: rest) = some c) :
    constructionsFrom compose pos 0 atLineStart (b :: rest)
      = c.matchAt pos ::
          constructionsFrom compose (pos + 1) (c.length - 1) (b == newline) rest := by
  obtain ⟨rfl, hc⟩ := constructionAt?_eq_some_iff.mp h
  rw [constructionsFrom, if_pos rfl, hc]
  rfl

theorem constructionsFrom_of_none (pos : Nat)
    (h : constructionAt? compose atLineStart (b :: rest) = none) :
    constructionsFrom compose pos 0 atLineStart (b :: rest)
      = constructionsFrom compose (pos + 1) 0 (b == newline) rest := by
  rw [constructionAt?_eq_none_iff] at h
  rw [constructionsFrom]
  split
  · rename_i hstart
    rw [h hstart]
  · rfl

end

/-! ## Where matches stand -/

/-- A line start behind a byte is one behind the bytes up to it. -/
theorem getLast?_cons_eq_newline {b : UInt8} {pre : Bytes}
    (hempty : pre = [] → (b == newline) = true) (hline : pre ≠ [] → pre.getLast? = some newline) :
    (b :: pre).getLast? = some newline := by
  cases pre with
  | nil => simpa using hempty rfl
  | cons c pre =>
    rw [List.getLast?_cons_of_ne_nil (List.cons_ne_nil c pre)]
    exact hline (List.cons_ne_nil c pre)

theorem mem_constructionsFrom {compose : Bytes} {pos skip : Nat} {atLineStart : Bool} {bs : Bytes}
    {m : Match} (h : m ∈ constructionsFrom compose pos skip atLineStart bs) :
    ∃ pre post c, bs = pre ++ post ∧ skip ≤ pre.length ∧ (pre = [] → atLineStart = true) ∧
      (pre ≠ [] → pre.getLast? = some newline) ∧ construction? compose post = some c ∧
      m = c.matchAt (pos + pre.length) := by
  induction bs generalizing pos skip atLineStart with
  | nil => cases h
  | cons b rest ih =>
    -- a match behind the first byte keeps its place when that byte is put in front again
    have hbehind : ∀ k, m ∈ constructionsFrom compose (pos + 1) k (b == newline) rest →
        ∃ pre post c, b :: rest = pre ++ post ∧ k + 1 ≤ pre.length ∧ pre ≠ [] ∧
          pre.getLast? = some newline ∧ construction? compose post = some c ∧
          m = c.matchAt (pos + pre.length) := by
      intro k hm
      obtain ⟨pre, post, c, rfl, hskip, hempty, hline, hc, rfl⟩ := ih hm
      refine ⟨b :: pre, post, c, rfl, by simpa using hskip, by simp,
        getLast?_cons_eq_newline hempty hline, hc, ?_⟩
      have hplace : pos + 1 + pre.length = pos + (b :: pre).length := by
        simp only [List.length_cons]
        omega
      rw [hplace]
    cases skip with
    | succ skip =>
      obtain ⟨pre, post, c, hbs, hskip, hne, hline, hc, hm⟩ := hbehind skip h
      exact ⟨pre, post, c, hbs, hskip, fun h => absurd h hne, fun _ => hline, hc, hm⟩
    | zero =>
      cases hread : constructionAt? compose atLineStart (b :: rest) with
      | none =>
        rw [constructionsFrom_of_none _ hread] at h
        obtain ⟨pre, post, c, hbs, -, hne, hline, hc, hm⟩ := hbehind 0 h
        exact ⟨pre, post, c, hbs, Nat.zero_le _, fun h => absurd h hne, fun _ => hline, hc, hm⟩
      | some c =>
        rw [constructionsFrom_of_some _ hread] at h
        obtain ⟨hstart, hc⟩ := constructionAt?_eq_some_iff.mp hread
        rcases List.mem_cons.mp h with rfl | h
        · exact ⟨[], b :: rest, c, rfl, Nat.zero_le _, fun _ => hstart, fun h => absurd rfl h, hc,
            rfl⟩
        · obtain ⟨pre, post, c', hbs, -, hne, hline, hc', hm⟩ := hbehind _ h
          exact ⟨pre, post, c', hbs, Nat.zero_le _, fun h => absurd h hne, fun _ => hline, hc', hm⟩

/-- A match stands behind whole lines and is read from what follows them. -/
theorem mem_constructions {content : Bytes} {m : Match} (h : m ∈ constructions compose content) :
    ∃ pre post c, content = pre ++ post ∧ EndsLine pre ∧
      construction? (Utf8.ofString compose) post = some c ∧ m = c.matchAt pre.length := by
  obtain ⟨pre, post, c, rfl, -, -, hline, hc, rfl⟩ := mem_constructionsFrom h
  refine ⟨pre, post, c, rfl, ?_, hc, by rw [Nat.zero_add]⟩
  by_cases hpre : pre = []
  · exact .inl hpre
  · exact .inr (hline hpre)

/-- A match stands at a line start. -/
theorem lineStart_start {content : Bytes} {m : Match} (h : m ∈ constructions compose content) :
    lineStart content m.start = m.start := by
  obtain ⟨pre, post, c, rfl, hpre, -, rfl⟩ := mem_constructions h
  exact lineStart_append hpre post

/-! ## Their order -/

theorem le_start_of_mem_constructionsFrom {compose : Bytes} {pos skip : Nat} {atLineStart : Bool}
    {bs : Bytes} {m : Match} (h : m ∈ constructionsFrom compose pos skip atLineStart bs) :
    pos + skip ≤ m.start ∧ m.start < pos + bs.length := by
  obtain ⟨pre, post, c, rfl, hskip, -, -, hc, rfl⟩ := mem_constructionsFrom h
  have hpost : post ≠ [] := by
    rintro rfl
    rw [construction?_nil] at hc
    cases hc
  have hlen : 0 < post.length := List.length_pos_of_ne_nil hpost
  simp only [Construction.matchAt, List.length_append]
  omega

theorem pairwise_constructionsFrom (compose : Bytes) (pos skip : Nat) (atLineStart : Bool)
    (bs : Bytes) :
    (constructionsFrom compose pos skip atLineStart bs).Pairwise
      fun m n => m.start < m.stop ∧ m.stop ≤ n.start := by
  induction bs generalizing pos skip atLineStart with
  | nil => exact List.Pairwise.nil
  | cons b rest ih =>
    cases skip with
    | succ skip => exact ih (pos + 1) skip (b == newline)
    | zero =>
      cases hread : constructionAt? compose atLineStart (b :: rest) with
      | none =>
        rw [constructionsFrom_of_none _ hread]
        exact ih _ _ _
      | some c =>
        have hpos := length_pos_of_construction? (constructionAt?_eq_some_iff.mp hread).2
        rw [constructionsFrom_of_some _ hread]
        refine List.pairwise_cons.mpr ⟨fun n hn => ?_, ih _ _ _⟩
        -- the search goes on behind this match
        have hle := (le_start_of_mem_constructionsFrom hn).1
        simp only [Construction.matchAt]
        omega

/-- The matches ascend, and each one ends before the next one starts. -/
theorem pairwise_constructions (compose : String) (content : Bytes) :
    (constructions compose content).Pairwise fun m n => m.start < m.stop ∧ m.stop ≤ n.start :=
  pairwise_constructionsFrom _ 0 0 true content

theorem pairwise_start_constructions (compose : String) (content : Bytes) :
    (constructions compose content).Pairwise fun m n => m.start < n.start :=
  (pairwise_constructions compose content).imp fun h => Nat.lt_of_lt_of_le h.1 h.2

/-- Among matches that ascend, two with the same start are the same. -/
theorem eq_of_pairwise_start {ms : List Match} (hms : ms.Pairwise fun m n => m.start < n.start)
    {m n : Match} (hm : m ∈ ms) (hn : n ∈ ms) (h : m.start = n.start) : m = n := by
  have hdiff : ms.Pairwise fun m n => m.start ≠ n.start := hms.imp Nat.ne_of_lt
  exact List.inj_on_of_nodup_map (List.pairwise_map.mpr hdiff) hm hn h

theorem start_lt_length {content : Bytes} {m : Match} (h : m ∈ constructions compose content) :
    m.start < content.length := by
  simpa using (le_start_of_mem_constructionsFrom h).2

end Lineage
