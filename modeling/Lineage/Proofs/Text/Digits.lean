import Lineage.Text.Digits
import Mathlib.Tactic

/-!
# Reading and writing digits

A number that is written with the digits of a base reads back, also with zeros in front of it and
with the letters among its digits replaced by capital ones. Only zero is written with a zero in
front.
-/

namespace Lineage

variable {base : Nat}

/-- A digit, small or capital, has its value. -/
theorem digit?_digitChar : ∀ d < 16, digit? 16 d.digitChar.toUpper = some d := by decide

theorem digit?_digitChar_of_lt_ten : ∀ d < 10, digit? 10 d.digitChar = some d := by decide

/-- One more digit behind others. -/
theorem digits?_concat {cs : List Char} (h : cs ≠ []) (base : Nat) (c : Char) :
    digits? base (cs ++ [c]) =
      (digits? base cs).bind fun n => (digit? base c).map (base * n + ·) := by
  have hlast : cs ++ [c] ≠ [] := List.append_ne_nil_of_right_ne_nil _ (List.cons_ne_nil _ _)
  simp only [digits?, List.isEmpty_eq_false_iff.mpr h, List.isEmpty_eq_false_iff.mpr hlast,
    Bool.false_eq_true, if_false, List.foldlM_append, List.foldlM_cons, List.foldlM_nil]
  cases cs.foldlM (fun n c => (digit? base c).map (base * n + ·)) 0 with
  | none => rfl
  | some n => cases digit? base c <;> rfl

theorem digits?_singleton (base : Nat) (c : Char) : digits? base [c] = digit? base c := by
  cases h : digit? base c <;> simp [digits?, h]

/-- What is written in a base reads back, if every digit is shown as one of the same value. -/
theorem digits?_map_toDigits (shown : Char → Char) (hbase : 1 < base)
    (hshown : ∀ d < base, digit? base (shown d.digitChar) = some d) (n : Nat) :
    digits? base ((Nat.toDigits base n).map shown) = some n := by
  induction n using Nat.strong_induction_on with
  | _ n ih =>
    rw [Nat.toDigits_eq_if hbase]
    split
    · rename_i hlt
      rw [List.map_singleton, digits?_singleton, hshown n hlt]
    · rename_i hge
      have hpos : 0 < n := by omega
      have hne : (Nat.toDigits base (n / base)).map shown ≠ [] :=
        mt List.map_eq_nil_iff.mp Nat.toDigits_ne_nil
      rw [List.map_append, List.map_singleton, digits?_concat hne,
        ih (n / base) (Nat.div_lt_self hpos hbase),
        Option.bind_some, hshown _ (Nat.mod_lt n (by omega)), Option.map_some, Nat.div_add_mod]

theorem exists_digit_of_mem_toDigits (hbase : 1 < base) {n : Nat} {x : Char}
    (hx : x ∈ Nat.toDigits base n) : ∃ d < base, x = d.digitChar := by
  induction n using Nat.strong_induction_on with
  | _ n ih =>
    rw [Nat.toDigits_eq_if hbase] at hx
    split at hx
    · rename_i hlt
      exact ⟨n, hlt, List.mem_singleton.mp hx⟩
    · rename_i hge
      rcases List.mem_append.mp hx with hfront | hlast
      · exact ih (n / base) (Nat.div_lt_self (by omega) hbase) hfront
      · exact ⟨n % base, Nat.mod_lt n (by omega), List.mem_singleton.mp hlast⟩

/-- A zero in front does not count. -/
theorem digits?_cons_zero {cs : List Char} (h : cs ≠ []) :
    digits? 16 ('0' :: cs) = digits? 16 cs := by
  have hzero : digit? 16 '0' = some 0 := by decide
  simp only [digits?, List.isEmpty_cons, List.isEmpty_eq_false_iff.mpr h, Bool.false_eq_true,
    if_false, List.foldlM_cons, hzero]
  rfl

theorem digits?_replicate_zero_append {cs : List Char} (h : cs ≠ []) (zeros : Nat) :
    digits? 16 (List.replicate zeros '0' ++ cs) = digits? 16 cs := by
  induction zeros with
  | zero => rfl
  | succ zeros ih =>
    have hne : List.replicate zeros '0' ++ cs ≠ [] := List.append_ne_nil_of_right_ne_nil _ h
    rw [List.replicate_succ, List.cons_append, digits?_cons_zero hne, ih]

/-- Zero is the only number that is written with a zero in front. -/
theorem eq_zero_of_head?_toDigits {n : Nat} (h : (Nat.toDigits 10 n).head? = some '0') : n = 0 := by
  induction n using Nat.strong_induction_on with
  | _ n ih =>
    rw [Nat.toDigits_eq_if (by decide)] at h
    split at h
    · rename_i hlt
      -- of the ten digits only one is a zero
      have hall : ∀ d < 10, d.digitChar = '0' → d = 0 := by decide
      exact hall n hlt (Option.some.inj h)
    · rename_i hge
      rw [List.head?_append_of_ne_nil _ Nat.toDigits_ne_nil] at h
      have hfront : n / 10 = 0 := ih (n / 10) (by omega) h
      omega

end Lineage
