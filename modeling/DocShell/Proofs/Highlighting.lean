import DocShell.Editor.Highlight
import DocShell.Proofs.Lossless

namespace DocShell.Editor

open DocShell.Query
open DocShell.Text.Bytes

def segmentOf (piece : Piece) : Style × List Char := (Style.ofPiece piece, piece.source)

/-- The segment between two positions of a line, if they are apart. -/
def cutGap? (line : List Char) (start stop : Nat) : Option (List (Style × List Char)) :=
  if start < stop then (slice? line start stop).map fun gap => [(Style.plain, gap)] else some []

/-- The segments of a line from a position on, cut at the places of the lexemes behind it. There
are none if a place lies inside a character or outside of the line. -/
def cut? (line : List Char) (position : Nat) : List Lexeme → Option (List (Style × List Char))
  | [] => cutGap? line position (byteLength line)
  | lexeme :: rest => do
      let gap ← cutGap? line position lexeme.start
      let source ← slice? line lexeme.start lexeme.stop
      let segments ← cut? line lexeme.stop rest
      return gap ++ (Style.ofLexeme lexeme, source) :: segments

/-- The segments of a line with their styles, cut at the places of its lexemes. -/
def cutSegments? (enabled : Bool) (line : List Char) : Option (List (Style × List Char)) :=
  if enabled then cut? line 0 ((tokenize line).filter fun lexeme => lexeme.kind ≠ .endOfInput)
  else some [(.plain, line)]

theorem filter_tokenize (line : List Char) :
    ((tokenize line).filter fun lexeme => lexeme.kind ≠ .endOfInput) = lexemes line := by
  have hlexemes : ∀ lexeme ∈ lexemes line, lexeme.kind ≠ .endOfInput := fun lexeme hmem =>
    kind_ne_endOfInput (hmem : lexeme ∈ lexemesFrom true 0 line)
  rw [tokenize, List.filter_append, List.filter_eq_self.mpr (by simpa using hlexemes)]
  simp

theorem cut?_cons {line : List Char} {position : Nat} {lexeme : Lexeme} {rest : List Lexeme}
    {gap segments : List (Style × List Char)} {source : List Char}
    (hgap : cutGap? line position lexeme.start = some gap)
    (hsource : slice? line lexeme.start lexeme.stop = some source)
    (hrest : cut? line lexeme.stop rest = some segments) :
    cut? line position (lexeme :: rest) =
      some (gap ++ (Style.ofLexeme lexeme, source) :: segments) := by
  rw [cut?, hgap, hsource, hrest]
  rfl

theorem cutGap?_append (front gap back : List Char) :
    cutGap? (front ++ gap ++ back) (byteLength front) (byteLength (front ++ gap)) =
      some ((gapPieces gap).map segmentOf) := by
  unfold cutGap?
  rw [slice?_append, byteLength_append]
  cases gap with
  | nil => simp [gapPieces]
  | cons c gap =>
      have hpos := c.utf8Size_pos
      rw [if_pos]
      · rfl
      · rw [byteLength_cons]
        omega

/-- The cuts do not fail from where a lexeme ended. The separators behind it are gathered one by
one, until the next lexeme or the end of the line makes them a segment. -/
theorem cut?_lexemesFrom (first : Bool) (position : Nat) (cs : List Char) :
    ∀ front gap, position = byteLength (front ++ gap) → (∀ c ∈ gap, isSeparator c = true) →
      cut? (front ++ gap ++ cs) (byteLength front) (lexemesFrom first position cs) =
        some ((pieces first (byteLength front) (gap ++ cs)).map segmentOf) := by
  induction first, position, cs using lexemes_induction with
  | nil first position =>
      intro front gap _ hgap
      have hcut := cutGap?_append front gap []
      rw [List.append_nil] at hcut
      rw [lexemesFrom_nil, List.append_nil, pieces_gap hgap (by simp), cut?, hcut]
      simp [pieces]
  | separator first position c cs hc ih =>
      rintro front gap rfl hgap
      have hlonger : byteLength (front ++ gap) + c.utf8Size =
          byteLength (front ++ (gap ++ [c])) := by
        simp [Nat.add_assoc]
      have hrest := ih front (gap ++ [c]) hlonger
        (List.forall_mem_append.mpr ⟨hgap, List.forall_mem_singleton.mpr hc⟩)
      rw [lexemesFrom_separator hc]
      simpa using hrest
  | lexeme first position c cs hc ih =>
      rintro front gap rfl hgap
      rw [lexemesFrom_lexeme hc, pieces_gap hgap (by simpa using hc), ← byteLength_append,
        pieces_lexeme hc]
      have hsource : c :: cs = (frontLexeme first (byteLength (front ++ gap)) c cs).source ++
          (munch first c cs).2.2 := by
        rw [frontLexeme, List.cons_append, munch_append]
      generalize hlexeme : frontLexeme first (byteLength (front ++ gap)) c cs = lexeme at *
      have hstart : lexeme.start = byteLength (front ++ gap) := by rw [← hlexeme, frontLexeme]
      have hstop : lexeme.stop = byteLength (front ++ gap ++ lexeme.source) := by
        rw [Lexeme.stop, hstart, byteLength_append (front ++ gap)]
      have hcut := cutGap?_append front gap (lexeme.source ++ (munch first c cs).2.2)
      have hslice := slice?_append (front ++ gap) lexeme.source (munch first c cs).2.2
      have hrest := ih (front ++ gap ++ lexeme.source) [] (by simpa using hstop) (by simp)
      rw [← hstart] at hcut
      rw [← hstart, ← hstop, List.append_assoc] at hslice
      rw [← hstop, List.append_nil, List.append_assoc, List.nil_append] at hrest
      rw [hsource, cut?_cons hcut hslice hrest, List.map_append, List.map_cons]
      rfl

theorem cutSegments?_eq (enabled : Bool) (line : List Char) :
    cutSegments? enabled line = some (highlight enabled line) := by
  cases enabled with
  | false => rfl
  | true =>
      have hcut := cut?_lexemesFrom true 0 line [] [] rfl (by simp)
      rw [cutSegments?, if_pos rfl, filter_tokenize]
      exact hcut

theorem source_of_mem_pieces {first : Bool} {position : Nat} {cs : List Char} {piece : Piece}
    (h : piece ∈ pieces first position cs) :
    piece.source ≠ [] ∧ piece.source.all isSeparator = piece.lexeme?.isNone := by
  cases piece with
  | gap gap =>
      obtain ⟨hne, hgap⟩ := gap_of_mem_pieces h
      exact ⟨hne, List.all_eq_true.mpr hgap⟩
  | lexeme lexeme =>
      have hmem : lexeme ∈ lexemesFrom first position cs :=
        List.mem_filterMap.mpr ⟨_, h, rfl⟩
      obtain ⟨first, c, cs, hc, hlexeme⟩ := exists_eq_frontLexeme hmem
      have hsource : (Piece.lexeme lexeme).source = c :: (munch first c cs).2.1 := by
        rw [hlexeme]
        rfl
      rw [hsource]
      exact ⟨by simp, by simp [hc, Piece.lexeme?]⟩

theorem filter_segments {found : List Piece}
    (h : ∀ piece ∈ found, piece.source.all isSeparator = piece.lexeme?.isNone) :
    (found.map segmentOf).filter (fun segment => !segment.2.all isSeparator) =
      (found.filterMap Piece.lexeme?).map fun lexeme =>
        (Style.ofLexeme lexeme, lexeme.source) := by
  induction found with
  | nil => rfl
  | cons piece found ih =>
      obtain ⟨hpiece, hfound⟩ := List.forall_mem_cons.mp h
      have hrest := ih hfound
      cases piece with
      | gap gap =>
          have hgap : (segmentOf (.gap gap)).2.all isSeparator = true := hpiece
          rw [List.map_cons, List.filter_cons_of_neg (by simp [hgap]), hrest]
          rfl
      | lexeme lexeme =>
          have hsource : (segmentOf (.lexeme lexeme)).2.all isSeparator = false := hpiece
          rw [List.map_cons, List.filter_cons_of_pos (by simp [hsource]), hrest]
          rfl

/-- Highlighting leaves the line as it is, and can be done by cuts between characters of the line.
In a line with colors no segment is empty. Those that are more than separators are, in order, what
the places of the lexemes cut out of the line, each in the style of its lexeme, and the others have
no style. -/
theorem highlight_keeps_line (line : List Char) :
    (∀ enabled, (highlight enabled line).flatMap Prod.snd = line ∧
      cutSegments? enabled line = some (highlight enabled line)) ∧
    (∀ segment ∈ highlight true line, segment.2 ≠ []) ∧
    ((highlight true line).filter fun segment => !segment.2.all isSeparator).map
        (fun segment => (segment.1, some segment.2)) =
      ((tokenize line).filter fun lexeme => lexeme.kind ≠ .endOfInput).map (fun lexeme =>
        (Style.ofLexeme lexeme, slice? line lexeme.start lexeme.stop)) ∧
    ∀ segment ∈ highlight true line, segment.2.all isSeparator = true →
      segment.1 = Style.plain := by
  have hsegments : highlight true line = (pieces true 0 line).map segmentOf := rfl
  refine ⟨fun enabled => ⟨flatMap_highlight enabled line, cutSegments?_eq enabled line⟩,
    fun segment hmem => ?_, ?_, fun segment hmem hall => ?_⟩
  · rw [hsegments] at hmem
    obtain ⟨piece, hpiece, rfl⟩ := List.mem_map.mp hmem
    exact (source_of_mem_pieces hpiece).1
  · have hlexemes : (pieces true 0 line).filterMap Piece.lexeme? = lexemes line := rfl
    rw [hsegments, filter_segments fun piece hpiece => (source_of_mem_pieces hpiece).2, hlexemes,
      filter_tokenize, List.map_map]
    refine List.map_congr_left fun lexeme hlexeme => ?_
    rw [(standsIn_of_mem hlexeme).slice_eq]
    rfl
  · rw [hsegments] at hmem
    obtain ⟨piece, hpiece, rfl⟩ := List.mem_map.mp hmem
    have hgap : piece.source.all isSeparator = true := hall
    rw [(source_of_mem_pieces hpiece).2] at hgap
    cases piece with
    | gap gap => rfl
    | lexeme lexeme => cases hgap

/-- A character of two bytes that begins nothing, a word in the place of a point in time, a string
that is left open, and blanks around them of which one is no separator. -/
theorem highlight_keeps_line_illegal :
    highlight true " é TimeStamp\u00a0'x \t".toList =
        [(Style.plain, [' ']), (⟨some .red, .underline⟩, ['é']), (Style.plain, [' ']),
          (⟨some .green, .none⟩, "TimeStamp".toList), (⟨some .red, .underline⟩, ['\u00a0']),
          (⟨some .yellow, .none⟩, "'x \t".toList)] ∧
      cutSegments? true " é TimeStamp\u00a0'x \t".toList =
        some (highlight true " é TimeStamp\u00a0'x \t".toList) ∧
      ∀ segment ∈ highlight true " é TimeStamp\u00a0'x \t".toList, segment.2 ≠ [] := by
  obtain ⟨hboth, hne, -⟩ := highlight_keeps_line " é TimeStamp\u00a0'x \t".toList
  exact ⟨by decide +kernel, (hboth true).2, hne⟩

end DocShell.Editor
