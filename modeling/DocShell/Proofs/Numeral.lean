import DocShell.Number.Decimal
import Mathlib.Tactic.Linarith
import Mathlib.Tactic.Ring

namespace DocShell.Number.Decimal

theorem toInt64?_eq_some_iff {literal : List Char} {value : Int} :
    toInt64? literal = some value ↔
      toInt literal = value ∧ -0x8000000000000000 ≤ value ∧ value < 0x8000000000000000 := by
  simp only [toInt64?]
  constructor
  · intro h
    split at h
    · rename_i hrange
      simp only [Option.some.injEq] at h
      subst h
      exact ⟨rfl, hrange.1, hrange.2⟩
    · cases h
  · rintro ⟨rfl, hlow, hhigh⟩
    rw [if_pos ⟨hlow, hhigh⟩]

theorem toNat64?_eq_some_iff {literal : List Char} {value : Nat} :
    toNat64? literal = some value ↔
      literal.head? ≠ some '-' ∧ ofDigits literal = value ∧ value < 0x10000000000000000 := by
  unfold toNat64?
  split
  · simp
  · rename_i hsign
    have hhead : literal.head? ≠ some '-' := by
      intro h
      obtain ⟨rest, rfl⟩ := List.head?_eq_some_iff.mp h
      exact hsign rest rfl
    have hsize : UInt64.size = 0x10000000000000000 := rfl
    rw [hsize]
    constructor
    · intro h
      split at h
      · rename_i hrange
        simp only [Option.some.injEq] at h
        subst h
        exact ⟨hhead, rfl, hrange⟩
      · cases h
    · rintro ⟨-, rfl, hrange⟩
      rw [if_pos hrange]

theorem isDigit_digitChar {digit : Nat} (h : digit < 10) : (digitChar digit).isDigit = true := by
  have hall : ∀ digit : Fin 10, (digitChar digit).isDigit = true := by decide
  exact hall ⟨digit, h⟩

theorem digitValue_lt {c : Char} (h : c.isDigit = true) : digitValue c < 10 := by
  simp only [Char.isDigit, Bool.and_eq_true, decide_eq_true_eq] at h
  have hhigh : c.toNat ≤ '9'.toNat := h.2
  have hnine : '9'.toNat = 57 := rfl
  have hzero : '0'.toNat = 48 := rfl
  simp only [digitValue]
  omega

theorem digits_ne_nil (n : Nat) : digits n ≠ [] := by
  rw [digits]
  split <;> simp

theorem isDigit_of_mem_digits {n : Nat} {c : Char} (h : c ∈ digits n) : c.isDigit = true := by
  fun_induction digits n with
  | case1 n hn =>
      rw [List.mem_singleton.mp h]
      exact isDigit_digitChar hn
  | case2 n hn ih =>
      rcases List.mem_append.mp h with h | h
      · exact ih h
      · rw [List.mem_singleton.mp h]
        exact isDigit_digitChar (Nat.mod_lt n (by decide))

theorem digits_head_ne_zero {n : Nat} (h : 0 < n) : (digits n).head? ≠ some '0' := by
  fun_induction digits n with
  | case1 n hn =>
      have hall : ∀ digit : Fin 10, 0 < digit.val → digitChar digit ≠ '0' := by decide
      simpa using hall ⟨n, hn⟩ h
  | case2 n hn ih =>
      obtain ⟨c, cs, hcs⟩ := List.exists_cons_of_ne_nil (digits_ne_nil (n / 10))
      rw [hcs] at ih ⊢
      exact ih (by omega)

theorem length_digits_le {n width : Nat} (hwidth : 0 < width) (h : n < 10 ^ width) :
    (digits n).length ≤ width := by
  fun_induction digits n generalizing width with
  | case1 n hn => exact hwidth
  | case2 n hn ih =>
      obtain ⟨width, rfl⟩ : ∃ smaller, width = smaller + 1 := ⟨width - 1, by omega⟩
      rw [Nat.pow_succ] at h
      have hsmaller : 0 < width := by
        rcases Nat.eq_zero_or_pos width with rfl | hpos
        · simp at h
          omega
        · exact hpos
      have hle := ih hsmaller (by omega)
      simp only [List.length_append, List.length_singleton]
      omega

theorem extend_eq (value : Nat) (written : List Char) :
    extend value written = value * 10 ^ written.length + ofDigits written := by
  induction written generalizing value with
  | nil => simp [extend, ofDigits]
  | cons c cs ih =>
      have hcons : ∀ value, extend value (c :: cs) = extend (value * 10 + digitValue c) cs :=
        fun _ => rfl
      rw [ofDigits, hcons, hcons, ih, ih (0 * 10 + digitValue c), List.length_cons, Nat.pow_succ,
        Nat.add_mul]
      ring_nf

theorem ofDigits_cons (c : Char) (cs : List Char) :
    ofDigits (c :: cs) = digitValue c * 10 ^ cs.length + ofDigits cs := by
  rw [ofDigits, ← extend_eq]
  simp [extend]

theorem ofDigits_append (front back : List Char) :
    ofDigits (front ++ back) = ofDigits front * 10 ^ back.length + ofDigits back := by
  rw [ofDigits, extend, List.foldl_append]
  exact extend_eq _ back

theorem ofDigits_lt {written : List Char} (h : ∀ c ∈ written, c.isDigit = true) :
    ofDigits written < 10 ^ written.length := by
  induction written with
  | nil => simp [ofDigits, extend]
  | cons c cs ih =>
      have hc := digitValue_lt (h c (List.mem_cons_self ..))
      have hcs := ih fun d hd => h d (List.mem_cons_of_mem _ hd)
      rw [ofDigits_cons, List.length_cons, Nat.pow_succ]
      nlinarith

theorem ofDigits_replicate_zero (count : Nat) : ofDigits (List.replicate count '0') = 0 := by
  induction count with
  | zero => rfl
  | succ count ih => exact ih

theorem isDigit_of_mem_padded {width n : Nat} {c : Char} (h : c ∈ padded width n) :
    c.isDigit = true := by
  rcases List.mem_append.mp h with h | h
  · rw [(List.mem_replicate.mp h).2]
    rfl
  · exact isDigit_of_mem_digits h

theorem ofDigits_padded (width n : Nat) : ofDigits (padded width n) = n := by
  rw [padded, ofDigits_append, ofDigits_replicate_zero, ofDigits_digits, Nat.zero_mul,
    Nat.zero_add]

theorem length_padded {width n : Nat} (hwidth : 0 < width) (h : n < 10 ^ width) :
    (padded width n).length = width := by
  have hle := length_digits_le hwidth h
  simp only [padded, List.length_append, List.length_replicate]
  omega

theorem toInt_of_head {literal : List Char} (h : literal.head? ≠ some '-') :
    toInt literal = ofDigits literal := by
  unfold toInt
  split
  · exact absurd rfl h
  · rfl

theorem digits_head (n : Nat) : (digits n).head? ≠ some '-' := by
  intro h
  have hdigit := isDigit_of_mem_digits (List.mem_of_head? h)
  simp at hdigit

theorem toInt_ofInt (n : Int) : toInt (ofInt n) = n := by
  unfold ofInt
  split
  · rename_i hneg
    rw [toInt, ofDigits_digits]
    omega
  · rw [toInt_of_head (digits_head _), ofDigits_digits]
    omega

end DocShell.Number.Decimal
