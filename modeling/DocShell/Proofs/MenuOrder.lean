import DocShell.Completion.Names
import DocShell.Proofs.ByteOrder

namespace DocShell.Text.Bytes

/-- The shorter text comes first, in bytes, and of two texts of one length the smaller one. -/
def ShortlexLe (a b : String) : Prop :=
  (utf8 a).length < (utf8 b).length ∨ (utf8 a).length = (utf8 b).length ∧ utf8 a ≤ utf8 b

end DocShell.Text.Bytes

namespace DocShell.Completion.Names

open DocShell.Text.Ascii
open DocShell.Text.Bytes

variable {typed a b c : String}

theorem precedes_total (typed a b : String) :
    precedes typed a b = true ∨ precedes typed b a = true := by
  unfold precedes
  grind [String.le_total]

theorem precedes_trans (hab : precedes typed a b = true) (hbc : precedes typed b c = true) :
    precedes typed a c = true := by
  unfold precedes at *
  grind [String.le_trans]

theorem precedes_antisymm (hab : precedes typed a b = true) (hba : precedes typed b a = true) :
    a = b := by
  unfold precedes at *
  grind [String.le_antisymm]

/-- A name that goes on from what was typed is the typed text itself, up to the case of letters, if
it has no more bytes. -/
theorem sameLetters_iff_of_startsWith {name typed : List Char}
    (h : startsWith name typed = true) :
    sameLetters name typed = true ↔ byteLength name = byteLength typed := by
  obtain ⟨front, back, rfl, hlength, hsame⟩ := startsWith_iff.mp h
  rw [sameLetters_iff, lower_append, ← hsame, byteLength_append, ← hlength]
  constructor
  · intro hback
    have hnil : lower back = [] := List.append_right_eq_self.mp hback
    rw [List.map_eq_nil_iff.mp hnil]
    rfl
  · intro hsize
    have hnil : back = [] := byteLength_eq_zero_iff.mp (by omega)
    rw [hnil, lower_nil, List.append_nil]

/-- That a name was typed in full decides nothing that its size does not decide. -/
theorem precedes_iff_shortlexLe (ha : startsWith a.toList typed.toList = true)
    (hb : startsWith b.toList typed.toList = true) :
    precedes typed a b = true ↔ ShortlexLe a b := by
  have hfull : ∀ {name : String}, startsWith name.toList typed.toList = true →
      byteLength typed.toList ≤ byteLength name.toList := by
    intro name hname
    obtain ⟨front, back, htext, hlength, -⟩ := startsWith_iff.mp hname
    rw [htext, byteLength_append]
    omega
  have hsizes := And.intro (hfull ha) (hfull hb)
  have hsame := And.intro (sameLetters_iff_of_startsWith ha) (sameLetters_iff_of_startsWith hb)
  unfold precedes ShortlexLe
  rw [length_utf8, length_utf8, utf8_le_utf8_iff]
  grind

theorem pairwise_matching (typed : String) (names : List String) :
    (matching typed names).Pairwise fun a b => precedes typed a b = true := by
  have htotal : ∀ a b, (precedes typed a b || precedes typed b a) = true :=
    fun a b => by simpa using precedes_total typed a b
  exact @List.pairwise_mergeSort String (precedes typed)
    (fun _ _ _ hab hbc => precedes_trans hab hbc) htotal _

theorem count_matching (typed : String) (names : List String) (name : String) :
    (matching typed names).count name =
      if startsWith name.toList typed.toList then names.count name else 0 := by
  rw [matching, (List.mergeSort_perm _ _).count_eq]
  split
  · rename_i hname
    exact List.count_filter hname
  · rename_i hname
    exact List.count_eq_zero.mpr fun hmem => hname (List.mem_filter.mp hmem).2

theorem pairwise_shortlexLe (typed : String) (names : List String) :
    (matching typed names).Pairwise ShortlexLe := by
  refine List.Pairwise.imp_of_mem (fun ha hb hab => ?_) (pairwise_matching typed names)
  exact (precedes_iff_shortlexLe (mem_matching.mp ha).2 (mem_matching.mp hb).2).mp hab

/-- The names in a menu are those that go on from what was typed, each as often as it was given.
Their order is total, ties only a name with itself, and is that of size and bytes, so the order in
which the names were given does not show. -/
theorem matching_in_order (typed : String) {names others : List String}
    (hperm : others.Perm names) :
    (∀ a b, precedes typed a b = true ∨ precedes typed b a = true) ∧
      (∀ a b c, precedes typed a b = true → precedes typed b c = true →
        precedes typed a c = true) ∧
      (∀ a b, precedes typed a b = true → precedes typed b a = true → a = b) ∧
      (∀ a b, startsWith a.toList typed.toList = true → startsWith b.toList typed.toList = true →
        (precedes typed a b = true ↔ ShortlexLe a b)) ∧
      (∀ name, (matching typed names).count name =
        if startsWith name.toList typed.toList then names.count name else 0) ∧
      (matching typed names).Pairwise ShortlexLe ∧
      matching typed others = matching typed names := by
  refine ⟨precedes_total typed, fun _ _ _ hab hbc => precedes_trans hab hbc,
    fun _ _ hab hba => precedes_antisymm hab hba, fun _ _ ha hb => precedes_iff_shortlexLe ha hb,
    count_matching typed names, pairwise_shortlexLe typed names, ?_⟩
  have hsame : (matching typed others).Perm (matching typed names) :=
    (List.mergeSort_perm _ _).trans ((hperm.filter _).trans (List.mergeSort_perm _ _).symm)
  exact hsame.eq_of_pairwise (fun _ _ _ _ hab hba => precedes_antisymm hab hba)
    (pairwise_matching typed others) (pairwise_matching typed names)

/-- Both spellings of what was typed come first, and the smaller one of them before the other. -/
theorem matching_in_order_typed :
    ["usb", "é", "us", "usb", "US"].Perm ["US", "us", "é", "usb", "usb"] ∧
      matching "us" ["usb", "é", "us", "usb", "US"] = ["US", "us", "usb", "usb"] := by
  have hperm : ["usb", "é", "us", "usb", "US"].Perm ["US", "us", "é", "usb", "usb"] := by decide
  have hsorted : matching "us" ["US", "us", "é", "usb", "usb"] = ["US", "us", "usb", "usb"] := by
    have hfilter : (["US", "us", "é", "usb", "usb"].filter fun name =>
        startsWith name.toList "us".toList) = ["US", "us", "usb", "usb"] := by decide +kernel
    rw [matching, hfilter]
    exact List.mergeSort_of_pairwise (by decide +kernel)
  obtain ⟨-, -, -, -, -, -, hsame⟩ := matching_in_order "us" hperm
  exact ⟨hperm, hsame.trans hsorted⟩

end DocShell.Completion.Names
