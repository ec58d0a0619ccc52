import DocShell.Text.Bytes
import Mathlib.Tactic.SplitIfs

namespace DocShell.Text.Bytes

def utf8 (text : String) : List UInt8 := text.toUTF8.data.toList

theorem utf8_eq (text : String) : utf8 text = text.toList.flatMap String.utf8EncodeChar := by
  have hencode : text.toByteArray = text.toList.utf8Encode := by
    rw [← String.toByteArray_ofList, String.ofList_toList]
  rw [utf8, String.toUTF8_eq_toByteArray, hencode, List.utf8Encode, List.data_toByteArray]

theorem length_utf8 (text : String) : (utf8 text).length = byteLength text.toList := by
  rw [utf8_eq]
  induction text.toList with
  | nil => rfl
  | cons c cs ih =>
      rw [List.flatMap_cons, List.length_append, byteLength_cons, String.length_utf8EncodeChar, ih]

/-- Of two characters the smaller one has the smaller byte where their encodings part. -/
theorem utf8EncodeChar_append_lt {c d : Char} (h : c < d) (cs ds : List UInt8) :
    String.utf8EncodeChar c ++ cs < String.utf8EncodeChar d ++ ds := by
  have hlt : c.val.toNat < d.val.toNat := h
  have hd : d.val.toNat < 0x110000 := by
    rcases d.valid with hlow | hhigh <;> omega
  -- Each byte behind the first holds six bits, so the quotients are taken one from the other.
  have hdiv : ∀ n : Nat, n / 4096 = n / 64 / 64 ∧ n / 262144 = n / 64 / 64 / 64 := fun n =>
    ⟨by rw [Nat.div_div_eq_div_mul], by rw [Nat.div_div_eq_div_mul, Nat.div_div_eq_div_mul]⟩
  simp only [String.utf8EncodeChar, (hdiv _).1, (hdiv _).2]
  generalize c.val.toNat = m at hlt
  generalize d.val.toNat = n at hlt hd
  split_ifs <;>
    simp only [List.cons_append, List.nil_append, List.cons_lt_cons_iff, UInt8.lt_iff_toNat_lt,
      ← UInt8.toNat_inj, UInt8.toNat_ofNat'] <;>
    omega

theorem flatMap_utf8EncodeChar_lt {cs ds : List Char} (h : cs < ds) :
    cs.flatMap String.utf8EncodeChar < ds.flatMap String.utf8EncodeChar := by
  induction cs generalizing ds with
  | nil =>
      cases ds with
      | nil => exact absurd h (List.not_lt_nil [])
      | cons d ds =>
          obtain ⟨byte, bytes, hbytes⟩ := List.exists_cons_of_ne_nil
            (String.utf8EncodeChar_ne_nil (c := d))
          rw [List.flatMap_nil, List.flatMap_cons, hbytes]
          exact List.nil_lt_cons _ _
  | cons c cs ih =>
      cases ds with
      | nil => exact absurd h (List.not_lt_nil _)
      | cons d ds =>
          rw [List.flatMap_cons, List.flatMap_cons]
          rcases List.cons_lt_cons_iff.mp h with hlt | ⟨rfl, hrest⟩
          · exact utf8EncodeChar_append_lt hlt _ _
          · exact List.append_left_lt (ih hrest)

/-- Texts are in the order of their bytes. -/
theorem utf8_le_utf8_iff {a b : String} : utf8 a ≤ utf8 b ↔ a ≤ b := by
  have hmono : ∀ {a b : String}, a < b → utf8 a < utf8 b := by
    intro a b hlt
    rw [utf8_eq, utf8_eq]
    exact flatMap_utf8EncodeChar_lt hlt
  constructor
  · intro hle hlt
    exact hle (hmono hlt)
  · intro hle
    by_cases hlt : a < b
    · exact List.le_of_lt (hmono hlt)
    · rw [String.le_antisymm hle hlt]
      exact List.le_refl _

end DocShell.Text.Bytes
