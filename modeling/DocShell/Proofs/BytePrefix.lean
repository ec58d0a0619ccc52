import DocShell.Proofs.ByteOrder
import DocShell.Proofs.Spelling
import DocShell.Text.Ascii

namespace DocShell.Text.Bytes

theorem utf8EncodeChar_append_inj {c d : Char} {cs ds : List UInt8}
    (h : String.utf8EncodeChar c ++ cs = String.utf8EncodeChar d ++ ds) : c = d ∧ cs = ds := by
  obtain rfl : c = d := by
    rcases Std.lt_trichotomy c d with hlt | heq | hlt
    · exact absurd (h ▸ utf8EncodeChar_append_lt hlt cs ds) (List.lt_irrefl _)
    · exact heq
    · exact absurd (h ▸ utf8EncodeChar_append_lt hlt ds cs) (List.lt_irrefl _)
  exact ⟨rfl, List.append_cancel_left h⟩

theorem flatMap_utf8EncodeChar_prefix_iff {cs ds : List Char} :
    cs.flatMap String.utf8EncodeChar <+: ds.flatMap String.utf8EncodeChar ↔ cs <+: ds := by
  constructor
  · intro h
    induction cs generalizing ds with
    | nil => exact List.nil_prefix
    | cons c cs ih =>
        obtain ⟨more, hmore⟩ := h
        rw [List.flatMap_cons, List.append_assoc] at hmore
        cases ds with
        | nil => exact absurd (List.append_eq_nil_iff.mp hmore).1 String.utf8EncodeChar_ne_nil
        | cons d ds =>
            rw [List.flatMap_cons] at hmore
            obtain ⟨rfl, hrest⟩ := utf8EncodeChar_append_inj hmore
            exact List.cons_prefix_cons.mpr ⟨rfl, ih ⟨more, hrest⟩⟩
  · rintro ⟨more, rfl⟩
    rw [List.flatMap_append]
    exact List.prefix_append _ _

theorem le_of_mem_utf8EncodeChar {c : Char} (hc : 128 ≤ c.toNat) {byte : UInt8}
    (h : byte ∈ String.utf8EncodeChar c) : 128 ≤ byte.toNat := by
  have hval : c.val.toNat = c.toNat := rfl
  have hbound : c.toNat < 0x110000 := by
    rcases c.valid with hlow | hhigh <;> omega
  unfold String.utf8EncodeChar at h
  simp only [hval] at h
  split_ifs at h <;>
    simp only [List.mem_cons, List.not_mem_nil, or_false] at h
  · omega
  · rcases h with rfl | rfl <;> simp only [UInt8.toNat_ofNat'] <;> omega
  · rcases h with rfl | rfl | rfl <;> simp only [UInt8.toNat_ofNat'] <;> omega
  · rcases h with rfl | rfl | rfl | rfl <;> simp only [UInt8.toNat_ofNat'] <;> omega

/-- Whether a text ends at a byte position, or has the first byte of a character there. -/
def isBoundary (text : String) (position : Nat) : Bool :=
  if h : position < text.utf8ByteSize then
    decide (text.getUTF8Byte ⟨position⟩ h).IsUTF8FirstByte
  else position == text.utf8ByteSize

theorem isBoundary_iff_isValid {text : String} {position : Nat} :
    isBoundary text position = true ↔ String.Pos.Raw.IsValid text ⟨position⟩ := by
  have hend : (⟨position⟩ : String.Pos.Raw) = text.rawEndPos ↔ position = text.utf8ByteSize :=
    String.Pos.Raw.ext_iff
  rw [String.Pos.Raw.isValid_iff_isUTF8FirstByte, hend, isBoundary]
  split
  · rename_i hlt
    have hne : position ≠ text.utf8ByteSize := Nat.ne_of_lt hlt
    rw [decide_eq_true_iff]
    constructor
    · intro hfirst
      exact .inr ⟨hlt, hfirst⟩
    · rintro (heq | ⟨_, hfirst⟩)
      · exact absurd heq hne
      · exact hfirst
  · rename_i hge
    rw [beq_iff_eq]
    constructor
    · exact .inl
    · rintro (heq | ⟨hlt, -⟩)
      · exact heq
      · exact absurd hlt hge

theorem byteLength_toList (text : String) : byteLength text.toList = text.utf8ByteSize := by
  rw [← length_utf8]
  rfl

theorem isBoundary_iff {text : String} {position : Nat} :
    isBoundary text position = true ↔ position ∈ boundaries text.toList := by
  rw [isBoundary_iff_isValid, String.Pos.Raw.isValid_iff_exists_append]
  constructor
  · rintro ⟨front, back, rfl, hposition⟩
    obtain rfl : position = front.utf8ByteSize := congrArg String.Pos.Raw.byteIdx hposition
    rw [String.toList_append, ← byteLength_toList]
    exact byteLength_mem_boundaries ..
  · intro h
    obtain ⟨hlength, back, hback⟩ := exists_upTo_append h
    refine ⟨String.ofList (upTo text.toList position), String.ofList back, ?_, ?_⟩
    · rw [← String.ofList_append, ← hback, String.ofList_toList]
    · have hsize := byteLength_toList (String.ofList (upTo text.toList position))
      rw [String.toList_ofList, hlength] at hsize
      exact String.Pos.Raw.ext hsize

end DocShell.Text.Bytes

namespace DocShell.Text.Ascii

open DocShell.Query
open DocShell.Text.Bytes

theorem toAsciiLower_eq_self {byte : UInt8} (h : 128 ≤ byte.toNat) : byte.toAsciiLower = byte := by
  have hall : ∀ code : Fin 256, 128 ≤ code.val →
      (UInt8.ofFin code).toAsciiLower = UInt8.ofFin code := by decide +kernel
  exact hall byte.toFin h

/-- Letters are made small in the bytes as they are in the text: the bytes of longer characters
are no letters. -/
theorem map_toAsciiLower_utf8EncodeChar (c : Char) :
    (String.utf8EncodeChar c).map UInt8.toAsciiLower = String.utf8EncodeChar c.toLower := by
  by_cases hc : c.toNat < 128
  · have hall : ∀ code : Fin 128,
        (String.utf8EncodeChar (Char.ofNat code)).map UInt8.toAsciiLower =
          String.utf8EncodeChar (Char.ofNat code).toLower := by decide +kernel
    have hcode := hall ⟨c.toNat, hc⟩
    rwa [Char.ofNat_toNat] at hcode
  · have hlower : c.toLower = c := by
      rcases toLower_cases c with hsame | ⟨halpha, -⟩
      · exact hsame
      · rw [isAlpha_iff] at halpha
        omega
    rw [hlower]
    refine (List.map_congr_left fun byte hbyte => ?_).trans (List.map_id _)
    exact toAsciiLower_eq_self (le_of_mem_utf8EncodeChar (Nat.le_of_not_lt hc) hbyte)

theorem utf8Size_toLower (c : Char) : c.toLower.utf8Size = c.utf8Size := by
  have hlength := congrArg List.length (map_toAsciiLower_utf8EncodeChar c)
  rw [List.length_map, String.length_utf8EncodeChar, String.length_utf8EncodeChar] at hlength
  exact hlength.symm

theorem byteLength_lower (cs : List Char) : byteLength (lower cs) = byteLength cs := by
  induction cs with
  | nil => rfl
  | cons c cs ih =>
      rw [lower, List.map_cons, byteLength_cons, byteLength_cons, utf8Size_toLower]
      exact congrArg _ ih

theorem startsWith_iff_lower {text typed : List Char} :
    startsWith text typed = true ↔ lower typed <+: lower text := by
  rw [startsWith_iff]
  constructor
  · rintro ⟨front, back, rfl, -, hsame⟩
    rw [← hsame, lower, lower, List.map_append]
    exact List.prefix_append _ _
  · rintro ⟨more, hmore⟩
    obtain ⟨front, back, rfl, hfront, -⟩ := List.map_eq_append_iff.mp hmore.symm
    -- A letter has as many bytes in each case, so the cut falls where the typed part ends.
    have hsame : lower front = lower typed := hfront
    refine ⟨front, back, rfl, ?_, hsame⟩
    rw [← byteLength_lower, hsame, byteLength_lower]

def lowerBytes (text : String) : List UInt8 := (utf8 text).map UInt8.toAsciiLower

theorem lowerBytes_eq (text : String) :
    lowerBytes text = (lower text.toList).flatMap String.utf8EncodeChar := by
  rw [lowerBytes, utf8_eq, List.map_flatMap, lower, List.flatMap_map]
  exact List.flatMap_congr fun c _ => map_toAsciiLower_utf8EncodeChar c

theorem lowerBytes_prefix_iff {text typed : String} :
    lowerBytes typed <+: lowerBytes text ↔ lower typed.toList <+: lower text.toList := by
  rw [lowerBytes_eq, lowerBytes_eq, flatMap_utf8EncodeChar_prefix_iff]

theorem sameLetters_iff_lowerBytes {text typed : String} :
    sameLetters text.toList typed.toList = true ↔ lowerBytes text = lowerBytes typed := by
  rw [sameLetters_iff]
  constructor
  · intro h
    rw [lowerBytes_eq, lowerBytes_eq, h]
  · intro h
    have hprefix : lower text.toList <+: lower typed.toList :=
      lowerBytes_prefix_iff.mp (h ▸ List.prefix_rfl)
    have hprefix' : lower typed.toList <+: lower text.toList :=
      lowerBytes_prefix_iff.mp (h ▸ List.prefix_rfl)
    exact hprefix.eq_of_length_le hprefix'.length_le

/-- The comparison as it is made on bytes. The text is cut where what was typed would end, once it
is long enough and a character begins there. -/
def startsWith? (text typed : String) : Option Bool :=
  if typed.utf8ByteSize ≤ text.utf8ByteSize ∧ isBoundary text typed.utf8ByteSize = true then
    (slice? text.toList 0 typed.utf8ByteSize).map fun front =>
      lowerBytes (String.ofList front) == lowerBytes typed
  else some false

/-- The guards let through every cut that is there, and no other. -/
theorem startsWith?_eq (text typed : String) :
    startsWith? text typed = some (startsWith text.toList typed.toList) := by
  unfold startsWith?
  split
  · rename_i hguards
    obtain ⟨hlength, back, hback⟩ := exists_upTo_append (isBoundary_iff.mp hguards.2)
    have hcut := slice?_upTo text.toList typed.utf8ByteSize
    rw [hlength] at hcut
    generalize upTo text.toList typed.utf8ByteSize = front at hlength hback hcut
    have hstarts : startsWith text.toList typed.toList = sameLetters front typed.toList := by
      rw [startsWith, byteLength_toList, ← hlength, hback, splitAt?_append]
    have hsame : (lowerBytes (String.ofList front) == lowerBytes typed) =
        sameLetters front typed.toList := by
      rw [Bool.eq_iff_iff, beq_iff_eq, ← sameLetters_iff_lowerBytes, String.toList_ofList]
    rw [hcut, hstarts, Option.map_some, hsame]
  · rename_i hguards
    cases hstarts : startsWith text.toList typed.toList with
    | false => rfl
    | true =>
        -- What was typed has as many bytes as some front of the text, so no guard refuses it.
        obtain ⟨front, back, htext, hlength, -⟩ := startsWith_iff.mp hstarts
        have hmem : typed.utf8ByteSize ∈ boundaries text.toList := by
          rw [← byteLength_toList, ← hlength, htext]
          exact byteLength_mem_boundaries front back
        have hle := le_byteLength_of_mem_boundaries hmem
        rw [byteLength_toList] at hle
        exact absurd ⟨hle, isBoundary_iff.mpr hmem⟩ hguards

/-- Without the guards the text would be cut inside its first character. -/
example : isBoundary "éa" 1 = false ∧ slice? "éa".toList 0 1 = none := by decide +kernel

/-- Whether a text begins with what was typed is told by the bytes of both with their letters made
small, and no cut fails on the way to the answer. So a text begins with itself, with what a text
that it begins with begins with, and with less than was typed if it begins with all of it. -/
theorem startsWith_bytewise (text typed : String) :
    startsWith? text typed = some (startsWith text.toList typed.toList) ∧
    (startsWith text.toList typed.toList = true ↔ lowerBytes typed <+: lowerBytes text) ∧
    startsWith text.toList text.toList = true ∧
    (∀ longer : String, startsWith longer.toList text.toList = true →
      startsWith text.toList typed.toList = true → startsWith longer.toList typed.toList = true) ∧
    ∀ more : String, startsWith text.toList (typed ++ more).toList = true →
      startsWith text.toList typed.toList = true := by
  have hbytes : ∀ text typed : String, startsWith text.toList typed.toList = true ↔
      lowerBytes typed <+: lowerBytes text := fun text typed => by
    rw [startsWith_iff_lower, lowerBytes_prefix_iff]
  refine ⟨startsWith?_eq text typed, hbytes text typed, startsWith_self _, ?_, ?_⟩
  · intro longer hlonger htyped
    rw [hbytes] at hlonger htyped ⊢
    exact htyped.trans hlonger
  · intro more hmore
    rw [startsWith_iff_lower, String.toList_append, lower_append] at hmore
    exact startsWith_iff_lower.mpr ((List.prefix_append _ _).trans hmore)

/-- The first text is not cut, for what was typed ends inside its first character. -/
theorem startsWith_bytewise_inside :
    startsWith? "éa" "E" = some false ∧ startsWith? "éAb" "éa" = some true ∧
      startsWith "éABC".toList "éa".toList = true ∧ startsWith "éAb".toList "é".toList = true := by
  obtain ⟨hinside, -⟩ := startsWith_bytewise "éa" "E"
  obtain ⟨htyped, -, -, hlonger, -⟩ := startsWith_bytewise "éAb" "éa"
  obtain ⟨-, -, -, -, hless⟩ := startsWith_bytewise "éAb" "é"
  have hstarts : startsWith "éAb".toList "éa".toList = true := by decide +kernel
  refine ⟨hinside.trans ?_, htyped.trans (congrArg some hstarts), ?_, hless "a" hstarts⟩
  · decide +kernel
  · exact hlonger "éABC" (by decide +kernel) hstarts

end DocShell.Text.Ascii
