import Treewalk.Proofs.Lexing

/-!
# The scanner partitions the text

Each turn of the scanner is over a range of bytes, from where its lexeme started to where it
stands then (`Scanner.Walks`). The ranges follow one another without gaps (`Tiles`) from the
first byte to the last, and each of them lies between two characters, so it can be cut out of
the text; what the scanner makes of it is told from what is cut out (`Span.Reads`). Asked for
one item after another (`Scanner.calls`), the scanner gives those of the ranges, in order, and
an end of file, and from then on nothing.

The ranges are found as those of the pieces of the text (`Span.ofPieces`), each of which is one
turn (`Scanner.Between.turn_eq`).
-/

namespace Treewalk

open Piece

/-- A range of bytes of a text, and what the scanner makes of it. -/
structure Span where
  start : String.Pos.Raw
  stop : String.Pos.Raw
  item? : Option Item
  deriving DecidableEq

namespace Span

variable (source : String) (r : Span)

/-- The bytes of the range. -/
def text : String :=
  String.Pos.Raw.extract source r.start r.stop

/-- The text from the range on. -/
def rest : String :=
  String.Pos.Raw.extract source r.start source.rawEndPos

/-- The line that the range ends on. -/
def line : Nat :=
  1 + (String.Pos.Raw.extract source 0 r.stop).toList.count '\n'

/-- The range without its first and its last byte is `value`. -/
structure Encloses (value : String) : Prop where
  first : String.Pos.Raw.IsValid source ⟨r.start.byteIdx + 1⟩
  last : String.Pos.Raw.IsValid source ⟨r.stop.byteIdx - 1⟩
  ordered : r.start.byteIdx + 1 ≤ r.stop.byteIdx - 1
  text : String.Pos.Raw.extract source ⟨r.start.byteIdx + 1⟩ ⟨r.stop.byteIdx - 1⟩ = value

/-- What the scanner makes of a range, told from the text. -/
inductive Reads : Prop
  | blank : r.item? = none → r.text source ∈ [" ", "\r", "\t", "\n"] → Reads
  | comment (body : String) : r.item? = none → r.text source = "//" ++ body →
    '\n' ∉ body.toList → r.stop = source.rawEndPos ∨ r.stop.get? source = some '\n' → Reads
  | token (t : Token) : r.item? = some (.token t) → t.kind ≠ .endOfFile →
    t.lexeme = r.text source → t.line = r.line source →
    (∀ value, t.kind = .string value → r.Encloses source value) → Reads
  | unexpected (c : Char) (fault : LexicalFault) :
    r.item? = some (.fault (.lexical (r.line source) fault)) →
    fault.message = "Unexpected character." → r.text source = String.singleton c → Reads
  | unterminated (fault : LexicalFault) :
    r.item? = some (.fault (.lexical (r.line source) fault)) →
    fault.message = "Unterminated string." → r.stop = source.rawEndPos → Reads

end Span

/-- The ranges follow one another from `start` to `stop`, and none is empty. -/
def Tiles (stop : String.Pos.Raw) : String.Pos.Raw → List Span → Prop
  | start, [] => start = stop
  | start, r :: rs => r.start = start ∧ start < r.stop ∧ Tiles stop r.stop rs

namespace Scanner

/-- The scanner makes turns over these ranges, none of which halts it. -/
inductive Walks : Scanner → List Span → Scanner → Prop
  | stay (s : Scanner) : Walks s [] s
  | turn {s s' s'' : Scanner} {item? : Option Item} {rs : List Span} :
    turn s = .ok item? s' → Walks s' rs s'' →
      Walks s (⟨⟨s'.start⟩, ⟨s'.current⟩, item?⟩ :: rs) s''

/-- The item that the scanner gives after `k` others. -/
def calls : Nat → Reader (Option Item)
  | 0 => next
  | k + 1 => do
    let _ ← next
    calls k

end Scanner

/-! ## Where the pieces lie -/

/-- The ranges of pieces, the first of which starts at `start` and on `line`. -/
def Span.ofPieces (start : String.Pos.Raw) (line : Nat) : List Piece → List Span
  | [] => []
  | p :: ps =>
    let stop := start + String.ofList p.text
    let line := line + p.newlines
    ⟨start, stop, p.item? line⟩ :: ofPieces stop line ps

/-- The ranges of a text. They are those of the scanner's turns (`Scanner.walks_ofText`). -/
def Span.ofText (source : String) : List Span :=
  ofPieces 0 1 (split source.toList)

theorem zero_add_ofList (chars : List Char) :
    (0 : String.Pos.Raw) + String.ofList chars = posAfter chars := by
  ext
  simp only [String.Pos.Raw.byteIdx_add_string, String.Pos.Raw.byteIdx_zero, Nat.zero_add]
  rfl

/-- The range `r` of the text is the piece `p` of it, between `before` and `after`. -/
structure Span.At (source : String) (r : Span) (before : List Char) (p : Piece)
    (after : List Char) : Prop where
  source_eq : source = String.ofList (before ++ p.text ++ after)
  start_eq : r.start = posAfter before
  stop_eq : r.stop = posAfter (before ++ p.text)
  item_eq : r.item? = p.item? (1 + (before ++ p.text).count '\n')
  munch : Lexeme.Munch (p.text ++ after) p

namespace Span

theorem exists_of_mem_ofPieces {r : Span} {start : String.Pos.Raw} {line : Nat} {ps : List Piece}
    (h : r ∈ ofPieces start line ps) : ∃ before p after, ps = before ++ p :: after ∧
      r.start = start + String.ofList (texts before) ∧
      r.stop = start + String.ofList (texts before ++ p.text) ∧
      r.item? = p.item? (line + (texts before ++ p.text).count '\n') := by
  induction ps generalizing start line with
  | nil => cases h
  | cons q ps ih =>
    rw [ofPieces] at h
    rcases List.mem_cons.mp h with rfl | h
    · refine ⟨[], q, ps, rfl, ?_, rfl, rfl⟩
      ext
      simp
    · obtain ⟨before, p, after, rfl, hstart, hstop, hitem⟩ := ih h
      refine ⟨q :: before, p, after, rfl, ?_, ?_, ?_⟩
      · rw [hstart]
        ext
        simp [Nat.add_assoc]
      · rw [hstop]
        ext
        simp [Nat.add_assoc]
      · rw [hitem]
        simp [newlines, Nat.add_assoc]

theorem ends_of_cut {before after : List Piece} {p : Piece} (h : Cut (before ++ p :: after)) :
    Ends p (texts after) := by
  induction before with
  | nil => exact h.1
  | cons q before ih => exact ih h.2

theorem exists_at {source : String} {r : Span} (h : r ∈ ofText source) :
    ∃ before p after, r.At source before p after := by
  obtain ⟨before, p, after, hsplit, hstart, hstop, hitem⟩ := exists_of_mem_ofPieces h
  have htexts := texts_split source.toList
  rw [hsplit, texts_append, texts_cons, ← List.append_assoc] at htexts
  obtain ⟨c, body, htext, hfirst⟩ := ends_of_cut (hsplit ▸ cut_split source.toList)
  rw [zero_add_ofList] at hstart hstop
  refine ⟨texts before, p, texts after, ?_, hstart, hstop, hitem, ?_⟩
  · rw [htexts, String.ofList_toList]
  · have hmunch := Lexeme.munch_first c (body ++ texts after)
    rwa [hfirst, ← List.cons_append, ← htext] at hmunch

section

variable {source : String} {r : Span} {before after : List Char} {p : Piece}

theorem At.text_eq (h : r.At source before p after) : r.text source = String.ofList p.text := by
  rw [text, h.source_eq, h.start_eq, h.stop_eq, extract_posAfter]

theorem At.rest_eq (h : r.At source before p after) :
    r.rest source = String.ofList (p.text ++ after) := by
  have hextract := @extract_posAfter before (p.text ++ after) []
  rw [List.append_nil, ← List.append_assoc] at hextract
  rw [rest, h.source_eq, h.start_eq]
  exact hextract

theorem At.line_eq (h : r.At source before p after) :
    r.line source = 1 + (before ++ p.text).count '\n' := by
  have hextract : String.Pos.Raw.extract source 0 r.stop = String.ofList (before ++ p.text) := by
    rw [h.source_eq, h.stop_eq]
    exact @extract_posAfter [] (before ++ p.text) after
  rw [line, hextract, String.toList_ofList]

theorem At.isValid (h : r.At source before p after) :
    r.start.IsValid source ∧ r.stop.IsValid source := by
  rw [h.source_eq, h.start_eq, h.stop_eq]
  exact ⟨List.append_assoc before p.text after ▸ isValid_posAfter, isValid_posAfter⟩

theorem At.stop_eq_rawEndPos (h : r.At source before p []) : r.stop = source.rawEndPos := by
  rw [h.source_eq, h.stop_eq, List.append_nil]
  rfl

theorem At.get?_stop (h : r.At source before p after) : r.stop.get? source = after.head? := by
  rw [h.source_eq, h.stop_eq, posAfter, String.rawEndPos_ofList]
  exact String.get?_of_valid (before ++ p.text) after

/-- A quoted text can be cut out without its quotes. -/
theorem At.encloses {body : List Char} (h : r.At source before p after)
    (htext : p.text = '"' :: (body ++ ['"'])) : r.Encloses source (String.ofList body) := by
  have hsource : source = String.ofList (before ++ ['"'] ++ body ++ '"' :: after) := by
    rw [h.source_eq, htext]
    simp
  have hquote : '"'.utf8Size = 1 := by decide
  have hfirst : (⟨r.start.byteIdx + 1⟩ : String.Pos.Raw) = posAfter (before ++ ['"']) := by
    ext
    simp [h.start_eq, byteIdx_posAfter, hquote]
  have hlast : (⟨r.stop.byteIdx - 1⟩ : String.Pos.Raw) = posAfter (before ++ ['"'] ++ body) := by
    ext
    simp [h.stop_eq, htext, byteIdx_posAfter, hquote]
  refine ⟨?_, ?_, ?_, ?_⟩
  · rw [hfirst, hsource, List.append_assoc]
    exact isValid_posAfter
  · rw [hlast, hsource]
    exact isValid_posAfter
  · have hle : (posAfter (before ++ ['"'])).byteIdx ≤
        (posAfter (before ++ ['"'] ++ body)).byteIdx := by simp [byteIdx_posAfter]
    rwa [← hfirst, ← hlast] at hle
  · rw [hfirst, hlast, hsource, extract_posAfter]

theorem At.reads (h : r.At source before p after) : r.Reads source := by
  have hitem := h.item_eq
  rw [← h.line_eq] at hitem
  have hmunch := h.munch
  generalize htext : p.text ++ after = text at hmunch
  cases hmunch with
  | token hdenotes _ =>
    refine .token _ hitem hdenotes.ne_endOfFile h.text_eq.symm rfl fun value hvalue => ?_
    obtain ⟨body, hbody, rfl⟩ := hdenotes.eq_quoted hvalue
    exact h.encloses hbody
  | blank hblank =>
    obtain ⟨c, hc, rfl⟩ := hblank
    have htexts : [" ", "\r", "\t", "\n"] =
        [' ', '\r', '\t', '\n'].map fun c => String.ofList [c] := by decide
    refine .blank hitem ?_
    rw [h.text_eq, htexts]
    exact List.mem_map_of_mem hc
  | comment hcomment heq hstops =>
    obtain ⟨body, hbody, rfl⟩ := Lexeme.mem_comment.mp hcomment
    obtain rfl := List.append_cancel_left (htext.trans heq)
    refine .comment (String.ofList body) hitem
      (h.text_eq.trans (@String.ofList_append ['/', '/'] body)) (by simpa using hbody) ?_
    cases after with
    | nil => exact .inl h.stop_eq_rawEndPos
    | cons c after =>
      obtain rfl : c = '\n' := by simpa using stops_cons.mp hstops
      exact .inr h.get?_stop
  | unexpected _ => exact .unexpected _ _ hitem rfl h.text_eq
  | unterminated _ =>
    obtain rfl : after = [] := List.append_right_eq_self.mp htext
    exact .unterminated _ hitem rfl h.stop_eq_rawEndPos

end

end Span

/-! ## Every byte once -/

theorem tiles_ofPieces (start : String.Pos.Raw) (line : Nat) {ps : List Piece} (h : Cut ps) :
    Tiles (start + String.ofList (texts ps)) start (Span.ofPieces start line ps) := by
  induction ps generalizing start line with
  | nil =>
    show start = start + String.ofList []
    ext
    simp
  | cons p ps ih =>
    obtain ⟨⟨c, body, htext, -⟩, hps⟩ := h
    refine ⟨rfl, ?_, ?_⟩
    · have hsize : 0 < String.utf8Len p.text := by
        rw [htext, String.utf8Len_cons]
        exact Nat.add_pos_right _ c.utf8Size_pos
      rw [String.Pos.Raw.lt_iff, String.Pos.Raw.byteIdx_add_string, String.utf8ByteSize_ofList]
      exact Nat.lt_add_of_pos_right hsize
    · have hstop : start + String.ofList (texts (p :: ps)) =
          start + String.ofList p.text + String.ofList (texts ps) := by
        ext
        simp [Nat.add_assoc]
      rw [hstop]
      exact ih _ _ hps

theorem tiles_ofText (source : String) : Tiles source.rawEndPos 0 (Span.ofText source) := by
  have h := tiles_ofPieces 0 1 (cut_split source.toList)
  rwa [texts_split, zero_add_ofList, posAfter, String.ofList_toList] at h

theorem Tiles.le_stop {start stop : String.Pos.Raw} {rs : List Span} (h : Tiles stop start rs) :
    start ≤ stop ∧ ∀ r ∈ rs, start ≤ r.start := by
  induction rs generalizing start with
  | nil => exact ⟨h ▸ String.Pos.Raw.le_refl, List.forall_mem_nil _⟩
  | cons r rs ih =>
    obtain ⟨rfl, hlt, hrs⟩ := h
    obtain ⟨hle, hstart⟩ := ih hrs
    have hlt := String.Pos.Raw.le_of_lt hlt
    refine ⟨String.Pos.Raw.le_trans hlt hle, List.forall_mem_cons.mpr
      ⟨String.Pos.Raw.le_refl, fun s hs => String.Pos.Raw.le_trans hlt (hstart s hs)⟩⟩

/-- Ranges that follow one another have each position between them in exactly one. -/
theorem Tiles.existsUnique {start stop pos : String.Pos.Raw} {rs : List Span}
    (h : Tiles stop start rs) (hstart : start ≤ pos) (hstop : pos < stop) :
    ∃! r, r ∈ rs ∧ r.start ≤ pos ∧ pos < r.stop := by
  induction rs generalizing start with
  | nil =>
    obtain rfl := h
    exact absurd hstop (Nat.not_lt.mpr hstart)
  | cons r rs ih =>
    obtain ⟨rfl, hlt, hrs⟩ := h
    by_cases hpos : pos < r.stop
    · refine ⟨r, ⟨List.mem_cons_self .., hstart, hpos⟩, ?_⟩
      rintro s ⟨hs, hle, -⟩
      rcases List.mem_cons.mp hs with rfl | hs
      · rfl
      · have hle := String.Pos.Raw.le_trans (hrs.le_stop.2 s hs) hle
        exact absurd hpos (Nat.not_lt.mpr hle)
    · obtain ⟨s, ⟨hs, hs'⟩, hunique⟩ := ih hrs (Nat.not_lt.mp hpos)
      refine ⟨s, ⟨List.mem_cons_of_mem r hs, hs'⟩, ?_⟩
      rintro t ⟨ht, hle, ht'⟩
      rcases List.mem_cons.mp ht with rfl | ht
      · exact absurd ht' hpos
      · exact hunique t ⟨ht, hle, ht'⟩

/-! ## One item after another -/

theorem Item.ofPieces_eq (line : Nat) (found : List Item) (ps : List Piece) :
    Item.ofPieces line found ps = found.reverse ++ Item.ofPieces line [] ps := by
  induction ps generalizing line found with
  | nil => simp [Item.ofPieces]
  | cons p ps ih =>
    simp only [Item.ofPieces]
    split
    · exact ih _ found
    · rename_i item _
      rw [ih _ (item :: found), ih _ [item], List.reverse_cons, List.append_assoc]
      rfl

theorem Item.ofPieces_cons (line : Nat) (p : Piece) (ps : List Piece) :
    Item.ofPieces line [] (p :: ps) =
      (p.item? (line + p.newlines)).toList ++ Item.ofPieces (line + p.newlines) [] ps := by
  rw [Item.ofPieces]
  split
  · rename_i hitem
    rw [hitem]
    rfl
  · rename_i item hitem
    rw [hitem, Item.ofPieces_eq]
    rfl

theorem Item.ofPieces_eq_spans (start : String.Pos.Raw) (line : Nat) (ps : List Piece) :
    Item.ofPieces line [] ps = (Span.ofPieces start line ps).filterMap Span.item? ++
      [.token (.endOfFile (line + (texts ps).count '\n'))] := by
  induction ps generalizing start line with
  | nil => rfl
  | cons p ps ih =>
    rw [Item.ofPieces_cons, ih (start + String.ofList p.text), add_newlines, ← List.append_assoc,
      Span.ofPieces]
    cases p.item? (line + p.newlines) <;> rfl

theorem Item.ofText_eq_spans (source : String) :
    Item.ofText source = (Span.ofText source).filterMap Span.item? ++
      [.token ⟨.endOfFile, "", 1 + source.toList.count '\n'⟩] := by
  have hitems := Item.ofPieces_eq_spans 0 1 (split source.toList)
  rwa [texts_split] at hitems

namespace Scanner

variable {s s' : Scanner} {before after : List Char} {c : Char}

/-- Where a turn leaves the scanner. -/
theorem Between.turn_between (h : s.Between before (c :: after)) :
    Between { s with
      start := s.current
      current := s.current + String.utf8Len (first c after).1.text
      line := s.line + (first c after).1.newlines
      pending := none } (before ++ (first c after).1.text) (first c after).2 := by
  refine ⟨?_, ?_⟩
  · rw [List.append_assoc, text_first]
    exact h.source
  · rw [String.utf8Len_append, ← h.current]

theorem Between.walks (h : s.Between before after) :
    ∃ s', s.Walks (Span.ofPieces ⟨s.current⟩ s.line (split after)) s' ∧
      s'.Between (before ++ after) [] := by
  induction after using split_induction generalizing s before with
  | nil => exact ⟨s, .stay s, by rwa [List.append_nil]⟩
  | cons c after ih =>
    obtain ⟨s', hwalks, hs'⟩ := ih h.turn_between
    refine ⟨s', ?_, by rwa [List.append_assoc, text_first] at hs'⟩
    rw [split_cons, Span.ofPieces]
    have hstop : (⟨s.current⟩ : String.Pos.Raw) + String.ofList (first c after).1.text =
        ⟨s.current + String.utf8Len (first c after).1.text⟩ := by
      ext
      simp [String.utf8ByteSize_ofList]
    rw [hstop]
    exact .turn h.turn_eq hwalks

theorem between_ofText (source : String) : (ofText source).Between [] source.toList :=
  ⟨String.ofList_toList.symm, rfl⟩

/-- The turns of the scanner, up to the end of the text. -/
theorem walks_ofText (source : String) :
    ∃ s, (ofText source).Walks (Span.ofText source) s ∧ s.current = s.size := by
  obtain ⟨s, hwalks, hs⟩ := (between_ofText source).walks
  exact ⟨s, hwalks, hs.size.symm⟩

theorem next_of_item {item : Item} (hlt : s.current < s.size) (h : turn s = .ok (some item) s') :
    next s = .ok (some item) s' := by
  rw [next, if_neg (by omega), if_neg (by omega), h]

/-- A turn without an item is followed by another one. -/
theorem next_of_none (hlt : s.current < s.size) (h : turn s = .ok none s')
    (hless : s'.size - s'.current < s.size - s.current) : next s = next s' := by
  rw [next, if_neg (by omega), if_neg (by omega), h]
  exact if_pos hless

theorem calls_over (h : s.size < s.current) (k : Nat) : calls k s = .ok none s := by
  have hnext : next s = .ok none s := by rw [next, if_pos h]
  induction k with
  | zero => exact hnext
  | succ k ih => rw [calls, bind_ok hnext, ih]

theorem calls_of_next (h : next s = next s') (k : Nat) : calls k s = calls k s' := by
  cases k with
  | zero => exact h
  | succ k =>
    show EStateM.bind next _ s = EStateM.bind next _ s'
    rw [EStateM.bind, EStateM.bind, h]

theorem Between.calls_eq (h : s.Between before after) (k : Nat) :
    ∃ s', calls k s = .ok (Item.ofPieces s.line [] (split after))[k]? s' := by
  induction after using split_induction generalizing s before k with
  | nil =>
    have hsize : s.size = s.current := h.size
    have hnext : next s =
        .ok (some (.token (.endOfFile s.line))) { s with current := s.current + 1 } := by
      rw [next, if_neg (by omega), if_pos hsize.symm]
    cases k with
    | zero => exact ⟨_, hnext⟩
    | succ k =>
      refine ⟨_, (bind_ok hnext).trans (calls_over ?_ k)⟩
      exact hsize ▸ Nat.lt_succ_self _
  | cons c after ih =>
    have hs := h.turn_between
    have hturn := h.turn_eq
    have hmoves : 0 < String.utf8Len (first c after).1.text := by
      obtain ⟨_, _, htext, -⟩ := ends_first c after
      rw [htext, String.utf8Len_cons]
      exact Nat.add_pos_right _ (Char.utf8Size_pos _)
    have hsize : s.size = s.current + String.utf8Len (c :: after) := h.size
    have hlt : s.current < s.size := by
      rw [hsize, String.utf8Len_cons]
      exact Nat.lt_add_of_pos_right (Nat.add_pos_right _ c.utf8Size_pos)
    rw [split_cons, Item.ofPieces_cons]
    cases hitem : (first c after).1.item? (s.line + (first c after).1.newlines) with
    | none =>
      rw [hitem] at hturn
      rw [calls_of_next (next_of_none hlt hturn
        (Nat.sub_lt_sub_left hlt (Nat.lt_add_of_pos_right hmoves)))]
      exact ih hs k
    | some item =>
      rw [hitem] at hturn
      cases k with
      | zero => exact ⟨_, next_of_item hlt hturn⟩
      | succ k =>
        obtain ⟨s', hcalls⟩ := ih hs k
        exact ⟨s', (bind_ok (next_of_item hlt hturn)).trans hcalls⟩

end Scanner

/-- The scanner goes over a text in turns, none of which halts it, up to the end. Their ranges
cover the bytes once, one after another, and none is empty. They start and end between
characters and are read as what they are, on the line that they end on. Asked for items, the
scanner gives those of the ranges and an end of file, and from then on nothing. -/
theorem scanner_partitions_text (source : String) : ∃ (rs : List Span) (s : Scanner),
    (Scanner.ofText source).Walks rs s ∧ s.current = s.size ∧
    Tiles source.rawEndPos 0 rs ∧
    (∀ pos < source.rawEndPos, ∃! r, r ∈ rs ∧ r.start ≤ pos ∧ pos < r.stop) ∧
    (∀ r ∈ rs, r.start.IsValid source ∧ r.stop.IsValid source ∧ r.Reads source) ∧
    Item.ofText source = rs.filterMap Span.item? ++
      [.token ⟨.endOfFile, "", 1 + source.toList.count '\n'⟩] ∧
    ∀ k, ∃ s', Scanner.calls k (Scanner.ofText source) = .ok (Item.ofText source)[k]? s' := by
  obtain ⟨s, hwalks, hend⟩ := Scanner.walks_ofText source
  have htiles := tiles_ofText source
  refine ⟨Span.ofText source, s, hwalks, hend, htiles,
    fun pos hpos => htiles.existsUnique (Nat.zero_le _) hpos, fun r hr => ?_,
    Item.ofText_eq_spans source, (Scanner.between_ofText source).calls_eq⟩
  obtain ⟨before, p, after, h⟩ := Span.exists_at hr
  exact ⟨h.isValid.1, h.isValid.2, h.reads⟩

end Treewalk
