namespace DocShell.Text.Segments

/-- The segments between the characters that satisfy `p`; a text without such a character is its
only segment. -/
def splitBy (p : Char → Bool) : List Char → List (List Char)
  | [] => [[]]
  | c :: cs =>
      if p c then [] :: splitBy p cs
      else
        match splitBy p cs with
        | [] => [[c]]
        | segment :: segments => (c :: segment) :: segments

theorem splitBy_ne_nil (p : Char → Bool) (cs : List Char) : splitBy p cs ≠ [] := by
  cases cs with
  | nil => simp [splitBy]
  | cons c cs =>
      simp only [splitBy]
      split
      · simp
      · split <;> simp

def splitOn (separator : Char) (cs : List Char) : List (List Char) :=
  splitBy (· == separator) cs

theorem splitOn_ne_nil (separator : Char) (cs : List Char) : splitOn separator cs ≠ [] :=
  splitBy_ne_nil _ cs

theorem splitOn_of_not_mem {separator : Char} {cs : List Char} (h : separator ∉ cs) :
    splitOn separator cs = [cs] := by
  induction cs with
  | nil => rfl
  | cons c cs ih =>
      simp only [List.mem_cons, not_or] at h
      have hcs : splitBy (· == separator) cs = [cs] := ih h.2
      simp [splitOn, splitBy, Ne.symm h.1, hcs]

def joinWith (separator : Char) : List (List Char) → List Char
  | [] => []
  | [segment] => segment
  | segment :: segments => segment ++ separator :: joinWith separator segments

theorem joinWith_splitOn (separator : Char) (cs : List Char) :
    joinWith separator (splitOn separator cs) = cs := by
  induction cs with
  | nil => rfl
  | cons c cs ih =>
      simp only [splitOn, splitBy]
      cases hsplit : splitBy (· == separator) cs with
      | nil => exact absurd hsplit (splitBy_ne_nil _ cs)
      | cons segment segments =>
          rw [splitOn, hsplit] at ih
          split
          · rename_i hseparator
            simp only [beq_iff_eq] at hseparator
            simp [joinWith, ih, hseparator]
          · cases segments <;> simp_all [joinWith]

end DocShell.Text.Segments
