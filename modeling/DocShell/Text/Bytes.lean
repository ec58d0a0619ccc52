namespace DocShell.Text.Bytes

def byteLength : List Char → Nat
  | [] => 0
  | c :: cs => c.utf8Size + byteLength cs

@[simp] theorem byteLength_nil : byteLength [] = 0 := rfl

@[simp] theorem byteLength_cons (c : Char) (cs : List Char) :
    byteLength (c :: cs) = c.utf8Size + byteLength cs := rfl

@[simp] theorem byteLength_append (cs ds : List Char) :
    byteLength (cs ++ ds) = byteLength cs + byteLength ds := by
  induction cs with
  | nil => simp
  | cons c cs ih => simp [ih, Nat.add_assoc]

theorem byteLength_eq_zero_iff {cs : List Char} : byteLength cs = 0 ↔ cs = [] := by
  cases cs with
  | nil => simp
  | cons c cs =>
      have hpos := c.utf8Size_pos
      simp only [byteLength_cons, reduceCtorEq, iff_false]
      omega

/-- Cut a text at a byte position. There is no cut inside a character or past the end. -/
def splitAt? : List Char → Nat → Option (List Char × List Char)
  | cs, 0 => some ([], cs)
  | [], _ + 1 => none
  | c :: cs, position + 1 =>
      if c.utf8Size ≤ position + 1 then
        (splitAt? cs (position + 1 - c.utf8Size)).map fun parts => (c :: parts.1, parts.2)
      else none

theorem splitAt?_eq_some {cs front back : List Char} {position : Nat}
    (h : splitAt? cs position = some (front, back)) :
    cs = front ++ back ∧ byteLength front = position := by
  induction cs generalizing position front back with
  | nil =>
      cases position with
      | zero => simp_all [splitAt?]
      | succ position => simp [splitAt?] at h
  | cons c cs ih =>
      cases position with
      | zero => simp_all [splitAt?]
      | succ position =>
          simp only [splitAt?] at h
          split at h
          · rename_i hsize
            obtain ⟨⟨front', back'⟩, hcut, hparts⟩ := Option.map_eq_some_iff.mp h
            obtain ⟨hjoin, hlength⟩ := ih hcut
            simp only [Prod.mk.injEq] at hparts
            obtain ⟨rfl, rfl⟩ := hparts
            refine ⟨by simp [hjoin], ?_⟩
            simp only [byteLength_cons, hlength]
            omega
          · simp at h

theorem splitAt?_append (front back : List Char) :
    splitAt? (front ++ back) (byteLength front) = some (front, back) := by
  induction front with
  | nil => simp [splitAt?]
  | cons c cs ih =>
      have hpos : 0 < c.utf8Size := c.utf8Size_pos
      obtain ⟨size, hsize⟩ : ∃ size, c.utf8Size + byteLength cs = size + 1 :=
        ⟨c.utf8Size + byteLength cs - 1, by omega⟩
      simp only [List.cons_append, byteLength_cons, hsize, splitAt?]
      have hle : c.utf8Size ≤ size + 1 := by omega
      have hrest : size + 1 - c.utf8Size = byteLength cs := by omega
      simp [hle, hrest, ih]

theorem splitAt?_byteLength (cs : List Char) : splitAt? cs (byteLength cs) = some (cs, []) := by
  simpa using splitAt?_append cs []

def slice? (cs : List Char) (start stop : Nat) : Option (List Char) := do
  let (front, _) ← splitAt? cs stop
  let (_, piece) ← splitAt? front start
  return piece

theorem slice?_append (front piece back : List Char) :
    slice? (front ++ piece ++ back) (byteLength front) (byteLength (front ++ piece)) =
      some piece := by
  unfold slice?
  rw [splitAt?_append]
  show (splitAt? (front ++ piece) (byteLength front)).bind (fun parts => some parts.2) = some piece
  rw [splitAt?_append]
  rfl

/-- The longest part in front of a byte position that ends between two characters. -/
def upTo : List Char → Nat → List Char
  | [], _ => []
  | c :: cs, position =>
      if c.utf8Size ≤ position then c :: upTo cs (position - c.utf8Size) else []

theorem byteLength_upTo_le (cs : List Char) (position : Nat) :
    byteLength (upTo cs position) ≤ position := by
  induction cs generalizing position with
  | nil => simp [upTo]
  | cons c cs ih =>
      simp only [upTo]
      split
      · have hrest := ih (position - c.utf8Size)
        simp only [byteLength_cons]
        omega
      · simp

theorem upTo_prefix (cs : List Char) (position : Nat) : ∃ back, cs = upTo cs position ++ back := by
  induction cs generalizing position with
  | nil => exact ⟨[], rfl⟩
  | cons c cs ih =>
      rw [upTo]
      split
      · obtain ⟨back, hback⟩ := ih (position - c.utf8Size)
        exact ⟨back, congrArg (c :: ·) hback⟩
      · exact ⟨c :: cs, rfl⟩

theorem slice?_upTo (cs : List Char) (position : Nat) :
    slice? cs 0 (byteLength (upTo cs position)) = some (upTo cs position) := by
  obtain ⟨back, hback⟩ := upTo_prefix cs position
  have hslice := slice?_append [] (upTo cs position) back
  rwa [List.nil_append, ← hback] at hslice

@[simp] theorem upTo_byteLength (cs : List Char) : upTo cs (byteLength cs) = cs := by
  induction cs with
  | nil => rfl
  | cons c cs ih => simp [upTo, ih]

/-- The byte positions between two characters, the ends of the text included. -/
def boundaries : List Char → List Nat
  | [] => [0]
  | c :: cs => 0 :: (boundaries cs).map (c.utf8Size + ·)

theorem byteLength_mem_boundaries (front back : List Char) :
    byteLength front ∈ boundaries (front ++ back) := by
  induction front with
  | nil => cases back <;> simp [boundaries]
  | cons c cs ih => exact List.mem_cons_of_mem _ (List.mem_map_of_mem ih)

theorem byteLength_upTo_of_mem {cs : List Char} {position : Nat} (h : position ∈ boundaries cs) :
    byteLength (upTo cs position) = position := by
  induction cs generalizing position with
  | nil =>
      obtain rfl : position = 0 := by simpa [boundaries] using h
      rfl
  | cons c cs ih =>
      rcases List.mem_cons.mp h with rfl | h
      · exact Nat.le_zero.mp (byteLength_upTo_le _ 0)
      · obtain ⟨position, hmem, rfl⟩ := List.mem_map.mp h
        have hupTo : upTo (c :: cs) (c.utf8Size + position) = c :: upTo cs position := by
          simp [upTo]
        rw [hupTo, byteLength_cons, ih hmem]

theorem exists_upTo_append {cs : List Char} {position : Nat} (h : position ∈ boundaries cs) :
    byteLength (upTo cs position) = position ∧ ∃ back, cs = upTo cs position ++ back :=
  ⟨byteLength_upTo_of_mem h, upTo_prefix cs position⟩

theorem le_byteLength_of_mem_boundaries {cs : List Char} {boundary : Nat}
    (h : boundary ∈ boundaries cs) : boundary ≤ byteLength cs := by
  obtain ⟨hlength, back, hback⟩ := exists_upTo_append h
  rw [← hlength, congrArg byteLength hback, byteLength_append]
  exact Nat.le_add_right _ _

end DocShell.Text.Bytes
