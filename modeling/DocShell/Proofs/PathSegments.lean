import DocShell.Path

namespace DocShell.Text.Segments

theorem splitOn_append (separator : Char) (front back : List Char) :
    splitOn separator (front ++ separator :: back) =
      splitOn separator front ++ splitOn separator back := by
  induction front with
  | nil => simp [splitOn, splitBy]
  | cons c cs ih =>
      simp only [splitOn, List.cons_append, splitBy] at ih ⊢
      rw [ih]
      split
      · rfl
      · cases hsplit : splitBy (· == separator) cs with
        | nil => exact absurd hsplit (splitBy_ne_nil _ cs)
        | cons segment segments => rfl

theorem not_mem_of_mem_splitOn {separator : Char} {cs segment : List Char}
    (h : segment ∈ splitOn separator cs) : separator ∉ segment := by
  induction cs generalizing segment with
  | nil =>
      have hnil : segment = [] := by simpa [splitOn, splitBy] using h
      simp [hnil]
  | cons c cs ih =>
      simp only [splitOn, splitBy] at h ih
      split at h
      · rcases List.mem_cons.mp h with rfl | h
        · simp
        · exact ih h
      · rename_i hc
        cases hsplit : splitBy (· == separator) cs with
        | nil => exact absurd hsplit (splitBy_ne_nil _ cs)
        | cons first segments =>
            rw [hsplit] at h ih
            rcases List.mem_cons.mp h with rfl | h
            · simp only [beq_iff_eq] at hc
              have hfirst := ih (List.mem_cons_self ..)
              simp [Ne.symm hc, hfirst]
            · exact ih (List.mem_cons_of_mem _ h)

theorem joinWith_append_singleton (separator : Char) {segments : List (List Char)}
    (h : segments ≠ []) (last : List Char) :
    joinWith separator (segments ++ [last]) = joinWith separator segments ++ separator :: last := by
  induction segments with
  | nil => exact absurd rfl h
  | cons first segments ih =>
      cases segments with
      | nil => rfl
      | cons second segments =>
          simp only [List.cons_append, joinWith] at ih ⊢
          rw [ih (by simp), List.append_assoc, List.cons_append]

end DocShell.Text.Segments

namespace DocShell.Path

open DocShell.Text.Segments

theorem segments_append (front back : String) :
    segments (front ++ "/" ++ back) = segments front ++ segments back := by
  have hchars : (front ++ "/" ++ back).toList = front.toList ++ '/' :: back.toList := by
    simp
  rw [segments, hchars, splitOn_append, List.map_append]
  rfl

theorem segments_of_not_mem {path : String} (h : '/' ∉ path.toList) : segments path = [path] := by
  simp [segments, splitOn_of_not_mem h]

theorem segments_empty : segments "" = [""] := segments_of_not_mem (by simp)

theorem not_mem_of_mem_segments {path segment : String} (h : segment ∈ segments path) :
    '/' ∉ segment.toList := by
  obtain ⟨cs, hcs, rfl⟩ := List.mem_map.mp h
  rw [String.toList_ofList]
  exact not_mem_of_mem_splitOn hcs

theorem segments_ne_nil (path : String) : segments path ≠ [] := by
  simp [segments, splitOn_ne_nil]

theorem ofSegments_append_singleton {names : List String} (h : names ≠ []) (last : String) :
    ofSegments (names ++ [last]) = ofSegments names ++ "/" ++ last := by
  apply String.toList_injective
  simp only [ofSegments, List.map_append, List.map_cons, List.map_nil, String.toList_ofList,
    String.toList_append]
  rw [joinWith_append_singleton '/' (by simpa using h)]
  simp

theorem splitLast?_eq_some_iff {path parent last : String} :
    splitLast? path = some (parent, last) ↔
      path = parent ++ "/" ++ last ∧ '/' ∉ last.toList := by
  constructor
  · intro h
    unfold splitLast? at h
    split at h
    · rename_i final inner outer hreverse
      simp only [Option.some.injEq, Prod.mk.injEq] at h
      obtain ⟨rfl, rfl⟩ := h
      have hsegments : segments path = (inner :: outer).reverse ++ [final] := by
        rw [← List.reverse_reverse (segments path), hreverse]
        simp
      constructor
      · rw [← ofSegments_append_singleton (by simp), ← hsegments, ofSegments_segments]
      · exact not_mem_of_mem_segments (by simp [hsegments] : final ∈ segments path)
    · cases h
  · rintro ⟨rfl, hlast⟩
    unfold splitLast?
    rw [segments_append, segments_of_not_mem hlast]
    cases hreverse : (segments parent).reverse with
    | nil => exact absurd (List.reverse_eq_nil_iff.mp hreverse) (segments_ne_nil parent)
    | cons inner outer =>
        have hparent : segments parent = (inner :: outer).reverse := by
          rw [← hreverse, List.reverse_reverse]
        simp only [List.reverse_append, List.reverse_singleton, List.singleton_append, hreverse]
        rw [← hparent, ofSegments_segments]

theorem isDocument_iff {path : String} :
    isDocument path = true ↔ (segments path).length % 2 = 0 := by
  simp [isDocument]

theorem not_isDocument_iff {path : String} :
    ¬isDocument path = true ↔ (segments path).length % 2 = 1 := by
  rw [isDocument_iff]
  omega

theorem normalize_cases (path : String) :
    (path.toList.head? = some '/' ∧ path.toList = '/' :: (normalize path).toList) ∨
      (path.toList.head? ≠ some '/' ∧ normalize path = path) := by
  unfold normalize
  split
  · rename_i rest hpath
    exact .inl ⟨by rw [hpath]; rfl, by rw [hpath, String.toList_ofList]⟩
  · rename_i hpath
    refine .inr ⟨fun hhead => ?_, rfl⟩
    obtain ⟨rest, hrest⟩ := List.head?_eq_some_iff.mp hhead
    exact hpath rest hrest

theorem normalize_eq_self {path : String} (h : path.toList.head? ≠ some '/') :
    normalize path = path := by
  obtain ⟨-, hpath⟩ := (normalize_cases path).resolve_left fun hslash => h hslash.1
  exact hpath

theorem normalize_slash (path : String) : normalize ("/" ++ path) = path := by
  have hchars : ("/" ++ path).toList = '/' :: path.toList := by simp
  simp [normalize, hchars]

theorem normalize_slash_eq {path : String} (h : path.toList.head? ≠ some '/') :
    normalize ("/" ++ path) = normalize path := by
  rw [normalize_slash, normalize_eq_self h]

end DocShell.Path
