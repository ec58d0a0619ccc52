import DocShell.Proofs.Numeral
import DocShell.Time.Reader

namespace DocShell.Time

open DocShell.Number.Decimal
open DocShell.Text.Blank

theorem isBlank_of_isDigit {c : Char} (h : c.isDigit = true) : isBlank c = false := by
  simp only [Char.isDigit, Bool.and_eq_true, decide_eq_true_eq] at h
  have hlow : '0'.toNat ≤ c.toNat := h.1
  have hhigh : c.toNat ≤ '9'.toNat := h.2
  have hzero : '0'.toNat = 48 := rfl
  have hnine : '9'.toNat = 57 := rfl
  rw [hzero] at hlow
  rw [hnine] at hhigh
  generalize hcode : c.toNat = code at hlow hhigh
  have hall : ∀ code : Fin 58, 48 ≤ code.val →
      blankRanges.any (fun range => range.1 ≤ code.val && code.val ≤ range.2) = false := by
    decide
  rw [isBlank, hcode]
  exact hall ⟨code, by omega⟩ hlow

def EndsNumber (cs : List Char) : Prop := ∀ c ∈ cs.head?, c.isDigit = false

theorem takeWhile_isDigit_append {written rest : List Char}
    (hwritten : ∀ c ∈ written, c.isDigit = true) (hrest : EndsNumber rest) :
    (written ++ rest).takeWhile Char.isDigit = written := by
  rw [List.takeWhile_append_of_pos hwritten]
  cases rest with
  | nil => simp
  | cons c cs =>
      have hc := hrest c rfl
      simp [hc]

theorem dropWhile_isDigit_append {written rest : List Char}
    (hwritten : ∀ c ∈ written, c.isDigit = true) (hrest : EndsNumber rest) :
    (written ++ rest).dropWhile Char.isDigit = rest := by
  rw [List.dropWhile_append_of_pos hwritten]
  cases rest with
  | nil => rfl
  | cons c cs =>
      have hc := hrest c rfl
      simp [hc]

theorem fixedNumber?_padded {width n : Nat} (hwidth : 0 < width) (h : n < 10 ^ width)
    (rest : List Char) : fixedNumber? width (padded width n ++ rest) = some (n, rest) := by
  have hlength := length_padded hwidth h
  have hall : (padded width n).all Char.isDigit = true := by
    rw [List.all_eq_true]
    exact fun c hc => isDigit_of_mem_padded hc
  have htake : (padded width n ++ rest).take width = padded width n := List.take_left' hlength
  have hdrop : (padded width n ++ rest).drop width = rest := List.drop_left' hlength
  simp only [fixedNumber?, htake, hdrop, hlength, hall, and_self, if_true, ofDigits_padded]

theorem fixedNumber?_lt {width n : Nat} {cs rest : List Char}
    (h : fixedNumber? width cs = some (n, rest)) : n < 10 ^ width := by
  simp only [fixedNumber?] at h
  split at h
  · rename_i hwritten
    simp only [Option.some.injEq, Prod.mk.injEq] at h
    rw [← h.1]
    have hlt := ofDigits_lt (List.all_eq_true.mp hwritten.2)
    rwa [hwritten.1] at hlt
  · cases h

theorem looseNumber?_append {width : Nat} {written rest : List Char} (hne : written ≠ [])
    (hwritten : ∀ c ∈ written, c.isDigit = true) (hlength : written.length ≤ width)
    (hrest : EndsNumber rest) :
    looseNumber? width (written ++ rest) = some (ofDigits written, rest) := by
  have htake : written.take width = written := List.take_of_length_le hlength
  have hempty : written.isEmpty = false := by simpa using hne
  simp only [looseNumber?, takeWhile_isDigit_append hwritten hrest, htake, hempty,
    Bool.false_eq_true, if_false, List.drop_left]

theorem padded_ne_nil (width n : Nat) : padded width n ≠ [] := by
  simp [padded, digits_ne_nil]

theorem spacedNumber?_padded {width n : Nat} (hwidth : 0 < width) (h : n < 10 ^ width)
    {rest : List Char} (hrest : EndsNumber rest) :
    spacedNumber? width (padded width n ++ rest) = some (n, rest) := by
  have htrim : trimStart (padded width n ++ rest) = padded width n ++ rest := by
    cases hpadded : padded width n with
    | nil => exact absurd hpadded (padded_ne_nil width n)
    | cons c cs =>
        have hc := isDigit_of_mem_padded (hpadded ▸ List.mem_cons_self : c ∈ padded width n)
        simp [trimStart, isBlank_of_isDigit hc]
  rw [spacedNumber?, htrim, looseNumber?_append (padded_ne_nil width n)
    (fun _ => isDigit_of_mem_padded) (length_padded hwidth h).le hrest, ofDigits_padded]

theorem fraction?_lt {n : Nat} {cs rest : List Char} (h : fraction? cs = some (n, rest)) :
    n < 1000000000 := by
  simp only [fraction?] at h
  split at h
  · rename_i tail
    split at h
    · cases h
    · simp only [Option.some.injEq, Prod.mk.injEq] at h
      rw [← h.1, Nat.pow_eq]
      have hkept : ∀ c ∈ (tail.takeWhile Char.isDigit).take 9, c.isDigit = true :=
        fun c hc => List.all_eq_true.mp List.all_takeWhile c (List.mem_of_mem_take hc)
      have hlt := ofDigits_lt hkept
      have hle : ((tail.takeWhile Char.isDigit).take 9).length ≤ 9 := List.length_take_le ..
      generalize (tail.takeWhile Char.isDigit).take 9 = kept at hlt hle ⊢
      calc ofDigits kept * 10 ^ (9 - kept.length)
          < 10 ^ kept.length * 10 ^ (9 - kept.length) :=
            Nat.mul_lt_mul_of_pos_right hlt (Nat.pow_pos (by decide))
        _ = 10 ^ 9 := by rw [← Nat.pow_add, Nat.add_sub_cancel' hle]
  · simp only [Option.some.injEq, Prod.mk.injEq] at h
    omega

theorem fraction?_padded {width n : Nat} (hwidth : 0 < width) (hle : width ≤ 9)
    (h : n < 10 ^ width) {rest : List Char} (hrest : EndsNumber rest) :
    fraction? ('.' :: padded width n ++ rest) = some (n * 10 ^ (9 - width), rest) := by
  have hdigits : ∀ c ∈ padded width n, c.isDigit = true := fun _ => isDigit_of_mem_padded
  have hlength := length_padded hwidth h
  have htake : (padded width n).take 9 = padded width n :=
    List.take_of_length_le (by omega)
  have hempty : (padded width n).isEmpty = false := by simpa using padded_ne_nil width n
  simp only [fraction?, List.cons_append, takeWhile_isDigit_append hdigits hrest,
    dropWhile_isDigit_append hdigits hrest, htake, hempty, Bool.false_eq_true, if_false,
    ofDigits_padded, hlength, Nat.pow_eq]

theorem fraction?_fractionText {nanosecond : Nat} (h : nanosecond < 1000000000)
    {rest : List Char} (hrest : EndsNumber rest) (hpoint : rest.head? ≠ some '.') :
    fraction? (Timestamp.fractionText nanosecond ++ rest) = some (nanosecond, rest) := by
  unfold Timestamp.fractionText
  split
  · rename_i hzero
    rw [List.nil_append, hzero]
    unfold fraction?
    split
    · exact absurd rfl hpoint
    · rfl
  · split
    · rw [fraction?_padded (by decide) (by decide) (by omega) hrest]
      congr 2
      omega
    · split
      · rw [fraction?_padded (by decide) (by decide) (by omega) hrest]
        congr 2
        omega
      · rw [fraction?_padded (by decide) (by decide) h hrest, Nat.sub_self, Nat.pow_zero,
          Nat.mul_one]

theorem magnitude?_lt {minutes : Int} {cs rest : List Char}
    (h : offset?.magnitude? cs = some (minutes, rest)) : 0 ≤ minutes ∧ minutes < 1440 := by
  obtain ⟨⟨hours, behindHours⟩, -, h⟩ := Option.bind_eq_some_iff.mp h
  obtain ⟨behindColon, -, h⟩ := Option.bind_eq_some_iff.mp h
  obtain ⟨⟨tail, behindMinutes⟩, -, h⟩ := Option.bind_eq_some_iff.mp h
  dsimp only at h
  split at h
  · simp only [Option.some.injEq, Prod.mk.injEq] at h
    omega
  · cases h

theorem offset?_lt {minutes : Int} {cs rest : List Char}
    (h : offset? cs = some (minutes, rest)) : minutes.natAbs < 1440 := by
  have hnegative : ∀ tail, (offset?.magnitude? tail).map (fun pair => (-pair.1, pair.2)) =
      some (minutes, rest) → minutes.natAbs < 1440 := by
    intro tail h
    obtain ⟨⟨size, behind⟩, hsize, hpair⟩ := Option.map_eq_some_iff.mp h
    have hrange := magnitude?_lt hsize
    simp only [Prod.mk.injEq] at hpair
    omega
  simp only [offset?] at h
  split at h
  · simp only [Option.some.injEq, Prod.mk.injEq] at h
    omega
  · simp only [Option.some.injEq, Prod.mk.injEq] at h
    omega
  · have hrange := magnitude?_lt h
    omega
  · exact hnegative _ h
  · exact hnegative _ h
  · cases h

theorem magnitude?_padded {minutes : Nat} (h : minutes < 1440) :
    offset?.magnitude? (padded 2 (minutes / 60) ++ ':' :: padded 2 (minutes % 60)) =
      some ((minutes : Int), []) := by
  have hhours : ∀ rest, fixedNumber? 2 (padded 2 (minutes / 60) ++ rest) =
      some (minutes / 60, rest) := fixedNumber?_padded (by decide) (by omega)
  have hminutes : fixedNumber? 2 (padded 2 (minutes % 60) ++ []) = some (minutes % 60, []) :=
    fixedNumber?_padded (by decide) (by omega) []
  rw [List.append_nil] at hminutes
  simp only [offset?.magnitude?, hhours, hminutes, expect?, if_true, Option.bind_eq_bind,
    Option.bind_some]
  rw [if_pos (by omega), Nat.div_add_mod' minutes 60]

theorem offset?_offsetText {minutes : Int} (h : minutes.natAbs < 1440) :
    offset? (Timestamp.offsetText minutes) = some (minutes, []) := by
  unfold Timestamp.offsetText
  split
  · rename_i hzero
    rw [hzero]
    rfl
  · split
    · simp only [List.cons_append, offset?, magnitude?_padded h, Option.map_some,
        Option.some.injEq, Prod.mk.injEq, and_true]
      omega
    · simp only [List.cons_append, offset?, magnitude?_padded h, Option.some.injEq,
        Prod.mk.injEq, and_true]
      omega

theorem ofParts?_eq_some_iff {year : Int} {month day hour minute second nanosecond : Nat}
    {offset : Int} {t : Timestamp} :
    ofParts? year month day hour minute second nanosecond offset = some t ↔
      isDate year month day = true ∧ isTimeOfDay hour minute second = true ∧
        ⟨year, month, day, hour, minute, second, nanosecond, offset⟩ = t := by
  unfold ofParts?
  split
  · rename_i hparts
    rw [Bool.and_eq_true] at hparts
    simp [hparts]
  · rename_i hparts
    rw [Bool.and_eq_true] at hparts
    constructor
    · intro h
      cases h
    · rintro ⟨hdate, htime, -⟩
      exact absurd ⟨hdate, htime⟩ hparts

/-- The timestamps that can be written. The offset is less than a day. -/
structure Timestamp.WellFormed (t : Timestamp) : Prop where
  date : isDate t.year t.month t.day = true
  timeOfDay : isTimeOfDay t.hour t.minute t.second = true
  nanosecond_lt : t.nanosecond < 1000000000
  offset_lt : t.offset.natAbs < 1440
  year_of : t.nanosecond ≠ 0 ∨ t.offset ≠ 0 → 0 ≤ t.year ∧ t.year ≤ 9999

theorem wellFormed_of_withOffset? {cs : List Char} {t : Timestamp} (h : withOffset? cs = some t) :
    t.WellFormed := by
  obtain ⟨⟨year, behind⟩, hyear, h⟩ := Option.bind_eq_some_iff.mp h
  obtain ⟨behind, -, h⟩ := Option.bind_eq_some_iff.mp h
  obtain ⟨⟨month, behind⟩, -, h⟩ := Option.bind_eq_some_iff.mp h
  obtain ⟨behind, -, h⟩ := Option.bind_eq_some_iff.mp h
  obtain ⟨⟨day, behind⟩, -, h⟩ := Option.bind_eq_some_iff.mp h
  obtain ⟨behind, -, h⟩ := Option.bind_eq_some_iff.mp h
  obtain ⟨⟨hour, behind⟩, -, h⟩ := Option.bind_eq_some_iff.mp h
  obtain ⟨behind, -, h⟩ := Option.bind_eq_some_iff.mp h
  obtain ⟨⟨minute, behind⟩, -, h⟩ := Option.bind_eq_some_iff.mp h
  obtain ⟨behind, -, h⟩ := Option.bind_eq_some_iff.mp h
  obtain ⟨⟨second, behind⟩, -, h⟩ := Option.bind_eq_some_iff.mp h
  obtain ⟨⟨nanosecond, behind⟩, hnanosecond, h⟩ := Option.bind_eq_some_iff.mp h
  obtain ⟨⟨offset, behind⟩, hoffset, h⟩ := Option.bind_eq_some_iff.mp h
  dsimp only at h
  split at h
  · obtain ⟨hdate, htime, rfl⟩ := ofParts?_eq_some_iff.mp h
    have hlt := fixedNumber?_lt hyear
    exact ⟨hdate, htime, fraction?_lt hnanosecond, offset?_lt hoffset, fun _ => by
      dsimp only
      omega⟩
  · cases h

theorem wellFormed_of_ofParts? {year : Int} {month day hour minute second : Nat} {t : Timestamp}
    (h : ofParts? year month day hour minute second 0 0 = some t) : t.WellFormed := by
  obtain ⟨hdate, htime, rfl⟩ := ofParts?_eq_some_iff.mp h
  exact ⟨hdate, htime, by simp, by simp, by simp⟩

theorem wellFormed_of_withoutOffset? {cs : List Char} {t : Timestamp}
    (h : withoutOffset? cs = some t) : t.WellFormed := by
  obtain ⟨⟨⟨year, month, day⟩, behind⟩, -, h⟩ := Option.bind_eq_some_iff.mp h
  obtain ⟨behind, -, h⟩ := Option.bind_eq_some_iff.mp h
  obtain ⟨⟨hour, behind⟩, -, h⟩ := Option.bind_eq_some_iff.mp h
  obtain ⟨behind, -, h⟩ := Option.bind_eq_some_iff.mp h
  obtain ⟨⟨minute, behind⟩, -, h⟩ := Option.bind_eq_some_iff.mp h
  obtain ⟨behind, -, h⟩ := Option.bind_eq_some_iff.mp h
  obtain ⟨⟨second, behind⟩, -, h⟩ := Option.bind_eq_some_iff.mp h
  dsimp only at h
  split at h
  · exact wellFormed_of_ofParts? h
  · cases h

theorem wellFormed_of_dateOnly? {cs : List Char} {t : Timestamp} (h : dateOnly? cs = some t) :
    t.WellFormed := by
  obtain ⟨⟨⟨year, month, day⟩, behind⟩, -, h⟩ := Option.bind_eq_some_iff.mp h
  dsimp only at h
  split at h
  · exact wellFormed_of_ofParts? h
  · cases h

namespace Timestamp

/-- Only well-formed timestamps are read. -/
theorem wellFormed_of_ofText? {raw : String} {t : Timestamp} (h : ofText? raw = some t) :
    t.WellFormed := by
  simp only [ofText?, Option.orElse_eq_orElse, Option.orElse_eq_or, Option.or_eq_some_iff] at h
  rcases h with h | ⟨-, h | ⟨-, h⟩⟩
  · exact wellFormed_of_withOffset? h
  · exact wellFormed_of_withoutOffset? h
  · exact wellFormed_of_dateOnly? h

def localText (t : Timestamp) : List Char :=
  yearText t.year ++ '-' :: padded 2 t.month ++ '-' :: padded 2 t.day ++
    'T' :: padded 2 t.hour ++ ':' :: padded 2 t.minute ++ ':' :: padded 2 t.second

def literal (t : Timestamp) : List Char :=
  if 0 ≤ t.year ∧ t.year ≤ 9999 then t.text else t.localText

theorem quote_not_mem_padded (width n : Nat) : '"' ∉ padded width n :=
  fun h => absurd (isDigit_of_mem_padded h) (by decide)

theorem quote_not_mem_literal (t : Timestamp) : '"' ∉ t.literal := by
  have hyear : '"' ∉ yearText t.year := by
    unfold yearText
    split
    · exact quote_not_mem_padded _ _
    · split <;> simp [quote_not_mem_padded]
  have hfraction : '"' ∉ fractionText t.nanosecond := by
    unfold fractionText
    split
    · simp
    · split
      · simp [quote_not_mem_padded]
      · split <;> simp [quote_not_mem_padded]
  have hoffset : '"' ∉ offsetText t.offset := by
    unfold offsetText
    split
    · simp
    · split <;> simp [quote_not_mem_padded]
  unfold literal
  split
  · simp [text, hyear, hfraction, hoffset, quote_not_mem_padded]
  · simp [localText, hyear, quote_not_mem_padded]

theorem endsNumber_cons {c : Char} (hc : c.isDigit = false) (rest : List Char) :
    EndsNumber (c :: rest) := by
  simp [EndsNumber, hc]

/-- A year with its sign is read back, also one with more than four digits. -/
theorem spacedYear?_signed (year : Int) (rest : List Char) :
    spacedYear? ((if year < 0 then '-' else '+') :: (padded 4 year.natAbs ++ '-' :: rest)) =
      some (year, '-' :: rest) := by
  have hloose : looseNumber? (padded 4 year.natAbs ++ '-' :: rest).length
      (padded 4 year.natAbs ++ '-' :: rest) = some (year.natAbs, '-' :: rest) := by
    rw [looseNumber?_append (padded_ne_nil _ _) (fun _ => isDigit_of_mem_padded) (by simp)
      (endsNumber_cons rfl rest), ofDigits_padded]
  split
  · have htrim : trimStart ('-' :: (padded 4 year.natAbs ++ '-' :: rest)) =
        '-' :: (padded 4 year.natAbs ++ '-' :: rest) := rfl
    simp only [spacedYear?, htrim, hloose, Option.map_some, Option.some.injEq, Prod.mk.injEq,
      and_true]
    omega
  · have htrim : trimStart ('+' :: (padded 4 year.natAbs ++ '-' :: rest)) =
        '+' :: (padded 4 year.natAbs ++ '-' :: rest) := rfl
    simp only [spacedYear?, htrim, hloose, Option.map_some, Option.some.injEq, Prod.mk.injEq,
      and_true]
    omega

theorem spacedDate?_signed (year : Int) {month day : Nat} (hmonth : month < 100) (hday : day < 100)
    (rest : List Char) :
    spacedDate? ((if year < 0 then '-' else '+') :: (padded 4 year.natAbs ++ '-' ::
      (padded 2 month ++ '-' :: (padded 2 day ++ 'T' :: rest)))) =
        some ((year, month, day), 'T' :: rest) := by
  have htwo : ∀ n < 100, ∀ rest, EndsNumber rest →
      spacedNumber? 2 (padded 2 n ++ rest) = some (n, rest) :=
    fun n hn rest hrest => spacedNumber?_padded (by decide) hn hrest
  refine Option.bind_eq_some_iff.mpr ⟨_, spacedYear?_signed year _, ?_⟩
  refine Option.bind_eq_some_iff.mpr ⟨_, rfl, ?_⟩
  refine Option.bind_eq_some_iff.mpr ⟨_, htwo _ hmonth _ (endsNumber_cons rfl _), ?_⟩
  refine Option.bind_eq_some_iff.mpr ⟨_, rfl, ?_⟩
  exact Option.bind_eq_some_iff.mpr ⟨_, htwo _ hday _ (endsNumber_cons rfl _), rfl⟩

theorem withOffset?_signed (year : Int) (rest : List Char) :
    withOffset? ((if year < 0 then '-' else '+') :: rest) = none := by
  have hsign : (if year < 0 then '-' else '+').isDigit = false := by
    split <;> rfl
  have hnone : fixedNumber? 4 ((if year < 0 then '-' else '+') :: rest) = none := by
    simp [fixedNumber?, hsign]
  rw [withOffset?, hnone]
  rfl

section Literal

variable {t : Timestamp} (h : t.WellFormed)

include h

theorem WellFormed.bounds : t.month < 100 ∧ t.day < 100 ∧ t.hour < 100 ∧ t.minute < 100 ∧
    t.second < 100 := by
  have hdate := h.date
  have htime := h.timeOfDay
  have hdays := daysInMonth_le t.year t.month
  simp only [isDate, isTimeOfDay, Bool.and_eq_true, decide_eq_true_eq] at hdate htime
  omega

theorem WellFormed.withOffset?_text (hyear : 0 ≤ t.year ∧ t.year ≤ 9999) :
    withOffset? t.text = some t := by
  obtain ⟨hmonth, hday, hhour, hminute, hsecond⟩ := h.bounds
  have htext : t.text = padded 4 t.year.natAbs ++ '-' :: (padded 2 t.month ++ '-' ::
      (padded 2 t.day ++ 'T' :: (padded 2 t.hour ++ ':' :: (padded 2 t.minute ++ ':' ::
        (padded 2 t.second ++ (fractionText t.nanosecond ++ offsetText t.offset)))))) := by
    simp [text, yearText, hyear]
  have htwo : ∀ n < 100, ∀ rest, fixedNumber? 2 (padded 2 n ++ rest) = some (n, rest) :=
    fun n hn => fixedNumber?_padded (by decide) hn
  have hfour : ∀ rest, fixedNumber? 4 (padded 4 t.year.natAbs ++ rest) =
      some (t.year.natAbs, rest) := fixedNumber?_padded (by decide) (by omega)
  have hoffset : EndsNumber (offsetText t.offset) ∧ (offsetText t.offset).head? ≠ some '.' := by
    unfold offsetText
    split
    · simp [EndsNumber]
    · split <;> simp [EndsNumber]
  have hparts : ofParts? t.year t.month t.day t.hour t.minute t.second t.nanosecond t.offset =
      some t := ofParts?_eq_some_iff.mpr ⟨h.date, h.timeOfDay, rfl⟩
  have hfraction := fraction?_fractionText h.nanosecond_lt hoffset.1 hoffset.2
  rw [htext]
  refine Option.bind_eq_some_iff.mpr ⟨_, hfour _, ?_⟩
  refine Option.bind_eq_some_iff.mpr ⟨_, rfl, ?_⟩
  refine Option.bind_eq_some_iff.mpr ⟨_, htwo _ hmonth _, ?_⟩
  refine Option.bind_eq_some_iff.mpr ⟨_, rfl, ?_⟩
  refine Option.bind_eq_some_iff.mpr ⟨_, htwo _ hday _, ?_⟩
  refine Option.bind_eq_some_iff.mpr ⟨_, rfl, ?_⟩
  refine Option.bind_eq_some_iff.mpr ⟨_, htwo _ hhour _, ?_⟩
  refine Option.bind_eq_some_iff.mpr ⟨_, rfl, ?_⟩
  refine Option.bind_eq_some_iff.mpr ⟨_, htwo _ hminute _, ?_⟩
  refine Option.bind_eq_some_iff.mpr ⟨_, rfl, ?_⟩
  refine Option.bind_eq_some_iff.mpr ⟨_, htwo _ hsecond _, ?_⟩
  refine Option.bind_eq_some_iff.mpr ⟨_, hfraction, ?_⟩
  refine Option.bind_eq_some_iff.mpr ⟨_, offset?_offsetText h.offset_lt, ?_⟩
  dsimp only
  rw [Int.natAbs_of_nonneg hyear.1]
  exact hparts

theorem WellFormed.withoutOffset?_localText (hyear : ¬(0 ≤ t.year ∧ t.year ≤ 9999)) :
    withOffset? t.localText = none ∧ withoutOffset? t.localText = some t := by
  obtain ⟨hmonth, hday, hhour, hminute, hsecond⟩ := h.bounds
  have hzero : t.nanosecond = 0 ∧ t.offset = 0 := by
    have hyear' := mt h.year_of hyear
    omega
  have htext : t.localText = (if t.year < 0 then '-' else '+') :: (padded 4 t.year.natAbs ++ '-' ::
      (padded 2 t.month ++ '-' :: (padded 2 t.day ++ 'T' :: (padded 2 t.hour ++ ':' ::
        (padded 2 t.minute ++ ':' :: (padded 2 t.second ++ [])))))) := by
    simp [localText, yearText, hyear]
  have htwo : ∀ n < 100, ∀ rest, EndsNumber rest →
      spacedNumber? 2 (padded 2 n ++ rest) = some (n, rest) :=
    fun n hn rest hrest => spacedNumber?_padded (by decide) hn hrest
  have hparts : ofParts? t.year t.month t.day t.hour t.minute t.second 0 0 = some t := by
    refine ofParts?_eq_some_iff.mpr ⟨h.date, h.timeOfDay, ?_⟩
    rw [← hzero.1, ← hzero.2]
  rw [htext]
  refine ⟨withOffset?_signed t.year _, ?_⟩
  refine Option.bind_eq_some_iff.mpr ⟨_, spacedDate?_signed t.year hmonth hday _, ?_⟩
  refine Option.bind_eq_some_iff.mpr ⟨_, rfl, ?_⟩
  refine Option.bind_eq_some_iff.mpr ⟨_, htwo _ hhour _ (endsNumber_cons rfl _), ?_⟩
  refine Option.bind_eq_some_iff.mpr ⟨_, rfl, ?_⟩
  refine Option.bind_eq_some_iff.mpr ⟨_, htwo _ hminute _ (endsNumber_cons rfl _), ?_⟩
  refine Option.bind_eq_some_iff.mpr ⟨_, rfl, ?_⟩
  exact Option.bind_eq_some_iff.mpr ⟨_, htwo _ hsecond [] (by simp [EndsNumber]), hparts⟩

theorem WellFormed.ofText?_literal : ofText? (String.ofList t.literal) = some t := by
  simp only [literal, ofText?, String.toList_ofList]
  split
  · rename_i hyear
    rw [h.withOffset?_text hyear]
    rfl
  · rename_i hyear
    obtain ⟨hnone, hsome⟩ := h.withoutOffset?_localText hyear
    rw [hnone, hsome]
    rfl

end Literal

/-- A timestamp is read from some text exactly if it is well-formed. -/
theorem exists_ofText?_iff {t : Timestamp} : (∃ raw, ofText? raw = some t) ↔ t.WellFormed := by
  constructor
  · rintro ⟨raw, h⟩
    exact wellFormed_of_ofText? h
  · intro h
    exact ⟨_, h.ofText?_literal⟩

end Timestamp

end DocShell.Time
