import DocShell.Text.Bytes

namespace DocShell.Text.Ascii

open DocShell.Text.Bytes

def lower (cs : List Char) : List Char := cs.map Char.toLower

@[simp] theorem lower_nil : lower [] = [] := rfl

@[simp] theorem lower_cons (c : Char) (cs : List Char) :
    lower (c :: cs) = c.toLower :: lower cs := rfl

@[simp] theorem lower_append (cs ds : List Char) : lower (cs ++ ds) = lower cs ++ lower ds :=
  List.map_append

def sameLetters (cs ds : List Char) : Bool := lower cs == lower ds

theorem sameLetters_iff {cs ds : List Char} : sameLetters cs ds = true ↔ lower cs = lower ds := by
  simp [sameLetters]

/-- Whether a text begins with what was typed, up to the case of the letters A to Z. The text is
cut where the typed part ends, counted in bytes; without such a cut the answer is no. -/
def startsWith (text typed : List Char) : Bool :=
  match splitAt? text (byteLength typed) with
  | some (front, _) => sameLetters front typed
  | none => false

theorem startsWith_self (text : List Char) : startsWith text text = true := by
  simp [startsWith, splitAt?_byteLength, sameLetters]

theorem startsWith_iff {text typed : List Char} :
    startsWith text typed = true ↔ ∃ front back, text = front ++ back ∧
      byteLength front = byteLength typed ∧ lower front = lower typed := by
  unfold startsWith
  constructor
  · intro h
    split at h
    · rename_i front back hcut
      obtain ⟨htext, hlength⟩ := splitAt?_eq_some hcut
      exact ⟨front, back, htext, hlength, sameLetters_iff.mp h⟩
    · cases h
  · rintro ⟨front, back, rfl, hlength, hsame⟩
    rw [← hlength, splitAt?_append]
    exact sameLetters_iff.mpr hsame

theorem startsWith_nil (text : List Char) : startsWith text [] = true :=
  startsWith_iff.mpr ⟨[], text, rfl, rfl, rfl⟩

theorem startsWith_append {text typed : List Char} (front : List Char)
    (h : startsWith text typed = true) : startsWith (front ++ text) (front ++ typed) = true := by
  obtain ⟨middle, back, rfl, hlength, hsame⟩ := startsWith_iff.mp h
  refine startsWith_iff.mpr ⟨front ++ middle, back, by simp, by simp [hlength], ?_⟩
  rw [lower, lower, List.map_append, List.map_append]
  exact congrArg (front.map Char.toLower ++ ·) hsame

theorem toLower_eq_of_startsWith {c d : Char} {cs ds : List Char}
    (h : startsWith (c :: cs) (d :: ds) = true) : c.toLower = d.toLower := by
  obtain ⟨front, back, htext, -, hsame⟩ := startsWith_iff.mp h
  cases front with
  | nil => cases hsame
  | cons e es =>
      obtain rfl := (List.cons.inj htext).1
      exact (List.cons.inj hsame).1

end DocShell.Text.Ascii
