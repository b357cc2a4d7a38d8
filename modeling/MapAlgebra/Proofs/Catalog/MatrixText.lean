import MapAlgebra.Proofs.Catalog.Reachable
import Mathlib.Data.List.Forall2
import Mathlib.Data.List.TakeWhile

/-!
# Matrices as text, by their spelling

Which texts are read as a matrix and what is said of the others. Main statement:
**`MatrixText.parse_exact`**. A matrix is rows of slices in braces (`Layout`), and it is read
exactly if the slices are numbers, equally many in each row. A slice that is no number is reported
at its first byte.

The reader cuts a text at every separator, which the library can undo (`splitAll_eq_splitOn`), so
the slices of a text are determined (`layout_iff`). Places are counted along, in bytes; they come to
the length of what stands before a slice (`textBefore`).
-/

namespace MapAlgebra

namespace Text

variable {sep c : Char} {cs : List Char}

/-! ### Pieces of a text -/

/-- Cutting a text is what the library calls it. -/
theorem splitAll_eq_splitOn (sep : Char) (cs : List Char) : splitAll sep cs = cs.splitOn sep := by
  induction cs with
  | nil => rfl
  | cons c cs ih =>
    rw [splitAll, List.splitOn_cons_eq_if_modifyHead, ih]
    by_cases hc : c = sep
    · rw [if_pos hc, if_pos (beq_iff_eq.2 hc)]
    · rw [if_neg hc, if_neg (by simpa using hc)]
      cases hpieces : cs.splitOn sep with
      | nil => exact absurd hpieces (List.splitOn_ne_nil sep cs)
      | cons piece pieces => rfl

/-- The pieces of a text hold what the text holds, but for the character it is cut at. -/
theorem mem_of_mem_splitAll {piece : List Char} (hpiece : piece ∈ splitAll sep cs)
    (hc : c ∈ piece) : c ∈ cs ∧ c ≠ sep := by
  induction cs generalizing piece with
  | nil =>
    obtain rfl := List.mem_singleton.1 hpiece
    cases hc
  | cons d cs ih =>
    rw [splitAll] at hpiece
    split at hpiece
    · rcases List.mem_cons.1 hpiece with rfl | hpiece
      · cases hc
      · exact ⟨List.mem_cons_of_mem _ (ih hpiece hc).1, (ih hpiece hc).2⟩
    · next hd =>
      cases hpieces : splitAll sep cs with
      | nil =>
        rw [hpieces] at hpiece
        obtain rfl := List.mem_singleton.1 hpiece
        obtain rfl := List.mem_singleton.1 hc
        exact ⟨List.mem_cons_self, hd⟩
      | cons first pieces =>
        rw [hpieces] at hpiece ih
        rcases List.mem_cons.1 hpiece with rfl | hpiece
        · rcases List.mem_cons.1 hc with rfl | hc
          · exact ⟨List.mem_cons_self, hd⟩
          · have := ih List.mem_cons_self hc
            exact ⟨List.mem_cons_of_mem _ this.1, this.2⟩
        · have := ih (List.mem_cons_of_mem _ hpiece) hc
          exact ⟨List.mem_cons_of_mem _ this.1, this.2⟩

/-- Texts with separators between them hold what the texts hold, and the separator. -/
theorem mem_intercalate {pieces : List (List Char)} (h : c ∈ [sep].intercalate pieces) :
    c = sep ∨ ∃ piece ∈ pieces, c ∈ piece := by
  induction pieces with
  | nil => cases h
  | cons piece pieces ih =>
    cases pieces with
    | nil =>
      rw [List.intercalate_singleton] at h
      exact Or.inr ⟨piece, List.mem_cons_self, h⟩
    | cons next pieces =>
      rw [List.intercalate_cons_cons, List.mem_append, List.mem_append,
        List.mem_singleton] at h
      rcases h with (h | h) | h
      · exact Or.inr ⟨piece, List.mem_cons_self, h⟩
      · exact Or.inl h
      · exact (ih h).imp_right fun ⟨p, hp, hc⟩ => ⟨p, List.mem_cons_of_mem _ hp, hc⟩

/-- What stands before one of the texts is those before it, each with a separator. -/
theorem intercalate_append_cons (sep : Char) (before : List (List Char)) (piece : List Char)
    (after : List (List Char)) : ∃ rest, [sep].intercalate (before ++ piece :: after) =
      before.flatMap (· ++ [sep]) ++ piece ++ rest := by
  induction before with
  | nil =>
    cases after with
    | nil => exact ⟨[], by simp⟩
    | cons next after =>
      rw [List.nil_append, List.intercalate_cons_cons, List.flatMap_nil, List.nil_append,
        List.append_assoc]
      exact ⟨_, rfl⟩
  | cons first before ih =>
    obtain ⟨rest, hrest⟩ := ih
    refine ⟨rest, ?_⟩
    rw [List.cons_append, List.intercalate_cons_of_ne_nil (by simp), hrest, List.flatMap_cons]
    simp only [List.append_assoc]

/-! ### Blanks around a text -/

/-- A text is blanks, what stands between them, and blanks. -/
theorem trim_spec (cs : List Char) : ∃ after, cs = cs.takeWhile isBlank ++ trim cs ++ after ∧
    ∀ c ∈ after, isBlank c = true := by
  have hend := List.takeWhile_append_dropWhile (p := isBlank) (l := (cs.dropWhile isBlank).reverse)
  refine ⟨((cs.dropWhile isBlank).reverse.takeWhile isBlank).reverse, ?_, fun c hc =>
    List.mem_takeWhile_imp (List.mem_reverse.1 hc)⟩
  rw [trim, List.append_assoc, ← List.reverse_append, hend, List.reverse_reverse,
    List.takeWhile_append_dropWhile]

/-- Nothing stands between the blanks of a text of blanks. -/
theorem trim_eq_nil_iff : trim cs = [] ↔ ∀ c ∈ cs, isBlank c = true := by
  simp only [trim, List.reverse_eq_nil_iff, List.dropWhile_eq_nil_iff, List.mem_reverse]
  constructor
  · intro h
    rw [← List.takeWhile_append_dropWhile (p := isBlank) (l := cs)]
    exact List.forall_mem_append.2 ⟨fun c hc => List.mem_takeWhile_imp hc, h⟩
  · exact fun h c hc => h c ((List.dropWhile_suffix _).subset hc)

/-! ### Bytes -/

/-- The bytes of a text are counted character by character. -/
theorem byteLength_eq (cs : List Char) : byteLength cs = (String.ofList cs).utf8ByteSize := by
  have hsum : ∀ n,
      cs.foldl (fun n c => n + c.utf8Size) n = n + (String.ofList cs).utf8ByteSize := by
    induction cs with
    | nil => exact fun n => rfl
    | cons c cs ih =>
      intro n
      rw [List.foldl_cons, ih, String.ofList_cons, String.utf8ByteSize_append,
        String.utf8ByteSize_singleton, Nat.add_assoc]
  rw [byteLength, hsum, Nat.zero_add]

theorem byteLength_append (cs cs' : List Char) :
    byteLength (cs ++ cs') = byteLength cs + byteLength cs' := by
  rw [byteLength_eq, byteLength_eq, byteLength_eq, String.ofList_append, String.utf8ByteSize_append]

end Text

namespace Catalog

open Text Decimal

namespace MatrixText

/-! ### How matrices are spelled -/

/-- The text of a row: its slices, with commas between them. -/
def rowText (row : List (List Char)) : List Char := [','].intercalate row

/-- The text of rows, with semicolons between them. -/
def bodyText (rows : List (List (List Char))) : List Char := [';'].intercalate (rows.map rowText)

/-- Between blanks, a text is the rows of slices in braces. -/
structure Layout (cs : List Char) (rows : List (List (List Char))) : Prop where
  /-- There is a row. -/
  rows_ne : rows ≠ []
  /-- Each row has a slice. -/
  row_ne : ∀ row ∈ rows, row ≠ []
  /-- No slice has a separator. -/
  plain : ∀ row ∈ rows, ∀ slice ∈ row, ',' ∉ slice ∧ ';' ∉ slice
  /-- The text. -/
  text : trim cs = '{' :: (bodyText rows ++ ['}'])

/-- A slice is read as a number, without the blanks around it. -/
def Reads (slice : List Char) (x : Float) : Prop := readSigned? (trim slice) = some x

/-- A slice is a number, with or without blanks around it. -/
def IsNumber (slice : List Char) : Prop := ∃ x, Reads slice x

variable {cs : List Char} {rows : List (List (List Char))} {slices : List (List Char)}
  {offset p : Nat} {r : Malformed}

theorem rowText_splitAll (piece : List Char) : rowText (splitAll ',' piece) = piece := by
  rw [rowText, splitAll_eq_splitOn, List.intercalate_splitOn]

/-- The slices of a text are what it is cut into at semicolons and then at commas. -/
theorem layout_iff : Layout cs rows ↔ ∃ inside, trim cs = '{' :: (inside ++ ['}']) ∧
    rows = (splitAll ';' inside).map (splitAll ',') := by
  constructor
  · rintro ⟨hrows, hrow, hplain, htext⟩
    refine ⟨bodyText rows, htext, ?_⟩
    have hbody : splitAll ';' (bodyText rows) = rows.map rowText := by
      rw [splitAll_eq_splitOn]
      refine List.splitOn_intercalate ';' (fun l hl hmem => ?_) (by simpa using hrows)
      obtain ⟨row, hmem', rfl⟩ := List.mem_map.1 hl
      rcases mem_intercalate hmem with h | ⟨slice, hslice, hmem⟩
      · exact absurd h (by decide)
      · exact (hplain row hmem' slice hslice).2 hmem
    rw [hbody, List.map_map]
    refine (List.map_id _).symm.trans (List.map_congr_left fun row hmem => ?_)
    show row = splitAll ',' (rowText row)
    rw [splitAll_eq_splitOn]
    exact (List.splitOn_intercalate ',' (fun slice hslice => (hplain row hmem slice hslice).1)
      (hrow row hmem)).symm
  · rintro ⟨inside, htext, rfl⟩
    refine ⟨?_, ?_, ?_, ?_⟩
    · rw [splitAll_eq_splitOn]
      simp
    · intro row hmem
      obtain ⟨piece, -, rfl⟩ := List.mem_map.1 hmem
      rw [splitAll_eq_splitOn]
      exact List.splitOn_ne_nil _ _
    · intro row hmem slice hslice
      obtain ⟨piece, hpiece, rfl⟩ := List.mem_map.1 hmem
      exact ⟨fun hcomma => (mem_of_mem_splitAll hslice hcomma).2 rfl, fun hsemicolon =>
        (mem_of_mem_splitAll hpiece (mem_of_mem_splitAll hslice hsemicolon).1).2 rfl⟩
    · rw [htext, bodyText, List.map_map]
      have hsame : (splitAll ';' inside).map (rowText ∘ splitAll ',') = splitAll ';' inside :=
        (List.map_congr_left fun piece _ => rowText_splitAll piece).trans (List.map_id _)
      rw [hsame, splitAll_eq_splitOn, List.intercalate_splitOn]

/-! ### Rows of numbers -/

/-- Slices that are read are numbers. -/
theorem isNumber_of_reads {xs : List Float} (h : List.Forall₂ Reads slices xs) :
    ∀ slice ∈ slices, IsNumber slice := by
  induction h with
  | nil => exact List.forall_mem_nil _
  | cons hread _ ih => exact List.forall_mem_cons.2 ⟨⟨_, hread⟩, ih⟩

/-- Slices that are numbers are read. -/
theorem exists_reads (h : ∀ slice ∈ slices, IsNumber slice) :
    ∃ xs, List.Forall₂ Reads slices xs := by
  induction slices with
  | nil => exact ⟨[], .nil⟩
  | cons slice slices ih =>
    obtain ⟨⟨x, hx⟩, h⟩ := List.forall_mem_cons.1 h
    obtain ⟨xs, hxs⟩ := ih h
    exact ⟨x :: xs, .cons hx hxs⟩

theorem readRow_eq_ok_iff {xs : List Float} :
    readRow offset slices = .ok xs ↔ List.Forall₂ Reads slices xs := by
  induction slices generalizing offset xs with
  | nil => simp [readRow, eq_comm]
  | cons slice slices ih =>
    rw [readRow, List.forall₂_cons_left_iff]
    unfold Reads
    cases readSigned? (trim slice) with
    | none => simp
    | some x =>
      dsimp only
      rw [map_eq_ok_iff]
      simp only [ih, Option.some.injEq]
      exact ⟨fun ⟨ys, hys, h⟩ => ⟨x, ys, rfl, hys, h.symm⟩,
        fun ⟨y, ys, hy, hys, h⟩ => ⟨ys, hys, by rw [hy, h]⟩⟩

/-- A row fails at its first slice that is no number, where this starts. -/
theorem readRow_eq_error (h : readRow offset slices = .error (p, r)) : r = .notNumber ∧
    ∃ before slice after, slices = before ++ slice :: after ∧
      (∀ earlier ∈ before, IsNumber earlier) ∧ ¬IsNumber slice ∧
      p = offset + byteLength (before.flatMap (· ++ [','])) := by
  induction slices generalizing offset with
  | nil => cases h
  | cons slice slices ih =>
    rw [readRow] at h
    split at h
    · next hread =>
      cases h
      refine ⟨rfl, [], slice, slices, rfl, List.forall_mem_nil _, ?_, rfl⟩
      rintro ⟨x, hx⟩
      rw [Reads, hread] at hx
      cases hx
    · next x hread =>
      obtain ⟨hr, before, culprit, after, rfl, hbefore, hculprit, rfl⟩ :=
        ih (map_eq_error_iff.1 h)
      refine ⟨hr, slice :: before, culprit, after, rfl,
        List.forall_mem_cons.2 ⟨⟨x, hread⟩, hbefore⟩, hculprit, ?_⟩
      rw [List.flatMap_cons, byteLength_append, byteLength_append]
      have hcomma : byteLength [','] = 1 := by decide
      omega

theorem readRows_eq_ok_iff {texts : List (List Char)} {xss : List (List Float)} :
    readRows offset texts = .ok xss ↔
      List.Forall₂ (List.Forall₂ Reads) (texts.map (splitAll ',')) xss := by
  induction texts generalizing offset xss with
  | nil => simp [readRows, eq_comm]
  | cons row texts ih =>
    rw [readRows, List.map_cons, List.forall₂_cons_left_iff]
    have hrow : ∀ xs, List.Forall₂ Reads (splitAll ',' row) xs ↔
        readRow offset (splitAll ',' row) = .ok xs := fun _ => readRow_eq_ok_iff.symm
    simp only [hrow]
    cases readRow offset (splitAll ',' row) with
    | error e => simp
    | ok xs =>
      dsimp only
      rw [map_eq_ok_iff]
      simp only [ih, Except.ok.injEq]
      exact ⟨fun ⟨ys, hys, h⟩ => ⟨xs, ys, rfl, hys, h.symm⟩,
        fun ⟨y, ys, hy, hys, h⟩ => ⟨ys, hys, by rw [hy, h]⟩⟩

/-- Rows fail in the first row that fails. -/
theorem readRows_eq_error {texts : List (List Char)} (h : readRows offset texts = .error (p, r)) :
    ∃ before row after, texts = before ++ row :: after ∧
      (∀ earlier ∈ before, ∀ slice ∈ splitAll ',' earlier, IsNumber slice) ∧
      readRow (offset + byteLength (before.flatMap (· ++ [';']))) (splitAll ',' row) =
        .error (p, r) := by
  induction texts generalizing offset with
  | nil => cases h
  | cons row texts ih =>
    rw [readRows] at h
    split at h
    · next hrow =>
      cases h
      exact ⟨[], row, texts, rfl, List.forall_mem_nil _, hrow⟩
    · next xs hrow =>
      obtain ⟨before, culprit, after, rfl, hbefore, hculprit⟩ := ih (map_eq_error_iff.1 h)
      have hnumbers : ∀ slice ∈ splitAll ',' row, IsNumber slice :=
        isNumber_of_reads (readRow_eq_ok_iff.1 hrow)
      refine ⟨row :: before, culprit, after, rfl,
        List.forall_mem_cons.2 ⟨hnumbers, hbefore⟩, ?_⟩
      have hsemicolon : byteLength [';'] = 1 := by decide
      rwa [List.flatMap_cons, byteLength_append, byteLength_append, hsemicolon, ← Nat.add_assoc,
        ← Nat.add_assoc]

/-! ### The braces -/

theorem dropEnding?_eq_some_iff {ending inside : List Char} :
    dropEnding? ending cs = some inside ↔ cs = inside ++ ending := by
  unfold dropEnding?
  constructor
  · intro h
    split at h
    · next hend =>
      obtain ⟨before, rfl⟩ := List.isSuffixOf_iff_suffix.1 hend
      rw [List.length_append, Nat.add_sub_cancel, List.take_left] at h
      rw [Option.some.inj h]
    · cases h
  · rintro rfl
    rw [if_pos (List.isSuffixOf_iff_suffix.2 (List.suffix_append _ _)), List.length_append,
      Nat.add_sub_cancel, List.take_left]

theorem inner_eq_ok_iff {inside : List Char} :
    inner offset cs = .ok inside ↔ cs = '{' :: (inside ++ ['}']) ∧ trim inside ≠ [] := by
  constructor
  · intro h
    unfold inner at h
    split at h
    · split at h
      · next hend =>
        split at h
        · cases h
        · next hempty =>
          cases h
          rw [dropEnding?_eq_some_iff.1 hend]
          exact ⟨rfl, fun hnil => hempty (List.isEmpty_iff.2 hnil)⟩
      · cases h
    · cases h
  · rintro ⟨rfl, hinside⟩
    have hend : dropEnding? ['}'] (inside ++ ['}']) = some inside := dropEnding?_eq_some_iff.2 rfl
    simp [inner, hend, hinside]

/-- The slices of rows that are read are numbers. -/
theorem isNumber_of_rows {xss : List (List Float)}
    (h : List.Forall₂ (List.Forall₂ Reads) rows xss) :
    ∀ row ∈ rows, ∀ slice ∈ row, IsNumber slice := by
  induction h with
  | nil => exact List.forall_mem_nil _
  | cons hrow _ ih => exact List.forall_mem_cons.2 ⟨isNumber_of_reads hrow, ih⟩

/-- Blanks are no number. -/
theorem not_isNumber_of_blank (h : ∀ c ∈ cs, isBlank c = true) : ¬IsNumber cs := by
  rintro ⟨x, hx⟩
  rw [Reads, trim_eq_nil_iff.2 h] at hx
  cases hx

/-- The rows of a text are read exactly if it is spelled as a matrix and its slices are numbers. -/
theorem rowsOf_eq_ok_iff {xss : List (List Float)} :
    rowsOf cs = .ok xss ↔ ∃ rows, Layout cs rows ∧ List.Forall₂ (List.Forall₂ Reads) rows xss := by
  constructor
  · intro h
    unfold rowsOf at h
    dsimp only at h
    split at h
    · cases h
    · next inside hinside =>
      have htext := (inner_eq_ok_iff.1 hinside).1
      exact ⟨_, layout_iff.2 ⟨inside, htext, rfl⟩, readRows_eq_ok_iff.1 h⟩
  · rintro ⟨rows, hlayout, hread⟩
    obtain ⟨inside, htext, hrows⟩ := layout_iff.1 hlayout
    -- a slice that is a number is not between the blanks of an empty matrix
    have hinside : trim inside ≠ [] := by
      intro hnil
      have hblank := trim_eq_nil_iff.1 hnil
      obtain ⟨row, hrow⟩ := List.exists_mem_of_ne_nil _ hlayout.rows_ne
      obtain ⟨slice, hslice⟩ := List.exists_mem_of_ne_nil _ (hlayout.row_ne row hrow)
      refine not_isNumber_of_blank (fun c hc => ?_) (isNumber_of_rows hread row hrow slice hslice)
      rw [hrows] at hrow
      obtain ⟨piece, hpiece, rfl⟩ := List.mem_map.1 hrow
      exact hblank c (mem_of_mem_splitAll hpiece (mem_of_mem_splitAll hslice hc).1).1
    unfold rowsOf
    dsimp only
    rw [inner_eq_ok_iff.2 ⟨htext, hinside⟩]
    dsimp only
    rw [readRows_eq_ok_iff, ← hrows]
    exact hread

/-- What stands before a slice of a matrix that is spelled as a text: blanks, the brace, the rows
before its row and the slices before it. -/
def textBefore (cs : List Char) (rowsBefore : List (List (List Char)))
    (before : List (List Char)) : List Char :=
  cs.takeWhile isBlank ++ '{' :: (rowsBefore.flatMap (rowText · ++ [';']) ++
    before.flatMap (· ++ [',']))

/-- A slice stands in the text behind what is before it. -/
theorem Layout.slice {rowsBefore rowsAfter : List (List (List Char))}
    {before after : List (List Char)} {slice : List Char}
    (h : Layout cs (rowsBefore ++ (before ++ slice :: after) :: rowsAfter)) :
    textBefore cs rowsBefore before ++ slice <+: cs := by
  obtain ⟨last, hcs, -⟩ := trim_spec cs
  have htext := h.text
  rw [bodyText, List.map_append, List.map_cons] at htext
  obtain ⟨later, hlater⟩ := intercalate_append_cons ';' (rowsBefore.map rowText)
    (rowText (before ++ slice :: after)) (rowsAfter.map rowText)
  obtain ⟨rest, hrest⟩ := intercalate_append_cons ',' before slice after
  rw [hlater, rowText, hrest, List.flatMap_map] at htext
  refine ⟨rest ++ later ++ ['}'] ++ last, ?_⟩
  calc textBefore cs rowsBefore before ++ slice ++ (rest ++ later ++ ['}'] ++ last)
      = cs.takeWhile isBlank ++ trim cs ++ last := by
        rw [htext, textBefore]
        simp only [List.append_assoc, List.cons_append]
    _ = cs := hcs.symm

/-- **A slice that is no number** is the first one, and the fault is reported where it starts. -/
theorem rowsOf_eq_error (h : rowsOf cs = .error (p, .notNumber)) :
    ∃ rowsBefore before slice after rowsAfter,
      Layout cs (rowsBefore ++ (before ++ slice :: after) :: rowsAfter) ∧
      (∀ earlier ∈ rowsBefore.flatten ++ before, IsNumber earlier) ∧ ¬IsNumber slice ∧
      p = byteLength (textBefore cs rowsBefore before) := by
  unfold rowsOf at h
  dsimp only at h
  split at h
  · next e hinner =>
    -- the faults of the braces are others
    cases h
    unfold inner at hinner
    split at hinner
    · split at hinner
      · split at hinner <;> cases hinner
      · cases hinner
    · cases hinner
  · next inside hinside =>
    have htext := (inner_eq_ok_iff.1 hinside).1
    obtain ⟨textsBefore, row, textsAfter, htexts, hearlier, hrow⟩ := readRows_eq_error h
    obtain ⟨-, before, slice, after, hslices, hbefore, hslice, hp⟩ := readRow_eq_error hrow
    have hlayout := layout_iff.2 ⟨inside, htext, rfl⟩
    rw [htexts, List.map_append, List.map_cons, hslices] at hlayout
    refine ⟨_, before, slice, after, _, hlayout, ?_, hslice, ?_⟩
    · refine List.forall_mem_append.2 ⟨fun earlier hmem => ?_, hbefore⟩
      obtain ⟨_, hmem, hslice⟩ := List.mem_flatten.1 hmem
      obtain ⟨text, htext, rfl⟩ := List.mem_map.1 hmem
      exact hearlier text htext earlier hslice
    · have hbrace : ∀ cs, byteLength ('{' :: cs) = 1 + byteLength cs := byteLength_append ['{']
      have hrows : (textsBefore.map (splitAll ',')).flatMap (rowText · ++ [';']) =
          textsBefore.flatMap (· ++ [';']) := by
        rw [List.flatMap_map]
        exact List.flatMap_congr fun text _ => by rw [rowText_splitAll]
      rw [hp, textBefore, hrows, byteLength_append, hbrace, byteLength_append]
      omega

/-! ### Matrices -/

/-- A matrix has the numbers of rows of slices, row by row. -/
structure Spelled (rows : List (List (List Char))) (m : MatrixText) : Prop where
  /-- As many rows. -/
  rows_eq : m.rows = rows.length
  /-- As many columns as each row has slices. -/
  cols_eq : ∀ row ∈ rows, row.length = m.cols
  /-- The values are what the slices are read as. -/
  values : List.Forall₂ Reads rows.flatten m.values

section Rows

variable {α β : Type} {R : α → β → Prop}

/-- Items that are related to the items of rows make up rows as well. -/
theorem exists_rows_of_forall₂ {as : List (List α)} {bs : List β}
    (h : List.Forall₂ R as.flatten bs) :
    ∃ rows, List.Forall₂ (List.Forall₂ R) as rows ∧ rows.flatten = bs := by
  induction as generalizing bs with
  | nil =>
    cases h
    exact ⟨[], .nil, rfl⟩
  | cons a as ih =>
    have hfirst := List.forall₂_take a.length h
    have hlater := List.forall₂_drop a.length h
    rw [List.flatten_cons, List.take_left] at hfirst
    rw [List.flatten_cons, List.drop_left] at hlater
    obtain ⟨rows, hrows, hflat⟩ := ih hlater
    exact ⟨bs.take a.length :: rows, .cons hfirst hrows, by
      rw [List.flatten_cons, hflat, List.take_append_drop]⟩

/-- Related rows have one length alike. -/
theorem forall_length_iff_of_forall₂ {as : List (List α)} {bs : List (List β)} {n : Nat}
    (h : List.Forall₂ (List.Forall₂ R) as bs) :
    (∀ a ∈ as, a.length = n) ↔ ∀ b ∈ bs, b.length = n := by
  induction h with
  | nil => exact iff_of_true (List.forall_mem_nil _) (List.forall_mem_nil _)
  | cons hrow _ ih => rw [List.forall_mem_cons, List.forall_mem_cons, hrow.length_eq, ih]

end Rows

/-- **Matrices**: a text is read as a matrix exactly if it spells it. -/
theorem parse_eq_ok_iff {text : String} {m : MatrixText} :
    parse text = .ok m ↔ ∃ rows, Layout text.toList rows ∧ Spelled rows m := by
  constructor
  · intro h
    unfold parse at h
    split at h
    · cases h
    · next xss hxss =>
      dsimp only at h
      split at h
      · cases h
      · next hfind =>
        cases h
        obtain ⟨rows, hlayout, hread⟩ := rowsOf_eq_ok_iff.1 hxss
        have hlengths : ∀ xs ∈ xss, xs.length = (xss.headD []).length := by
          simpa using hfind
        exact ⟨rows, hlayout, hread.length_eq.symm,
          (forall_length_iff_of_forall₂ hread).2 hlengths, List.rel_flatten hread⟩
  · rintro ⟨rows, hlayout, hrows, hcols, hvalues⟩
    obtain ⟨xss, hread, hflat⟩ := exists_rows_of_forall₂ hvalues
    have hlengths := (forall_length_iff_of_forall₂ hread).1 hcols
    have hhead : (xss.headD []).length = m.cols := by
      cases hread with
      | nil => exact absurd rfl hlayout.rows_ne
      | cons _ _ => exact hlengths _ List.mem_cons_self
    have hfind : xss.find? (·.length ≠ m.cols) = none := by
      simpa using hlengths
    unfold parse
    rw [rowsOf_eq_ok_iff.2 ⟨rows, hlayout, hread⟩]
    dsimp only
    rw [hhead, hfind]
    dsimp only
    rw [hflat, ← hread.length_eq, ← hrows]

/-- A matrix that is read has a row and a column, and as many values as they say. -/
theorem Spelled.shape {m : MatrixText} (hlayout : Layout cs rows) (h : Spelled rows m) :
    0 < m.rows ∧ 0 < m.cols ∧ m.values.length = m.rows * m.cols := by
  refine ⟨?_, ?_, ?_⟩
  · rw [h.rows_eq]
    exact List.length_pos_of_ne_nil hlayout.rows_ne
  · obtain ⟨row, hrow⟩ := List.exists_mem_of_ne_nil _ hlayout.rows_ne
    rw [← h.cols_eq row hrow]
    exact List.length_pos_of_ne_nil (hlayout.row_ne row hrow)
  · rw [← h.values.length_eq, List.length_flatten, h.rows_eq,
      List.map_congr_left h.cols_eq, List.map_const', List.sum_replicate_nat]

/-- A text is read as a matrix exactly if its slices are numbers, equally many in each row. -/
theorem exists_parse_iff {text : String} : (∃ m, parse text = .ok m) ↔ ∃ rows,
    Layout text.toList rows ∧ (∀ row ∈ rows, ∀ slice ∈ row, IsNumber slice) ∧
      ∃ cols, ∀ row ∈ rows, row.length = cols := by
  constructor
  · rintro ⟨m, h⟩
    obtain ⟨rows, hlayout, hrows, hcols, hvalues⟩ := parse_eq_ok_iff.1 h
    refine ⟨rows, hlayout, fun row hrow slice hslice => ?_, m.cols, hcols⟩
    exact isNumber_of_reads hvalues slice (List.mem_flatten.2 ⟨row, hrow, hslice⟩)
  · rintro ⟨rows, hlayout, hnumbers, cols, hcols⟩
    obtain ⟨values, hvalues⟩ := exists_reads fun slice hslice => by
      obtain ⟨row, hrow, hslice⟩ := List.mem_flatten.1 hslice
      exact hnumbers row hrow slice hslice
    exact ⟨⟨rows.length, cols, values⟩, parse_eq_ok_iff.2 ⟨rows, hlayout, rfl, hcols, hvalues⟩⟩

end MatrixText

/-- A matrix whose values are as many as its shape says is declared if its name is available. -/
theorem declareMatrix_eq (c : Catalog) (name : String) (m : Matrix) (hrows : 0 < m.rows)
    (hcols : 0 < m.cols) : c.declareMatrix name m.rows m.cols m.cells =
      (c.checkAvailable name).map fun _ => (c.push name (.matrix m)).2.advance := by
  cases hname : c.checkAvailable name with
  | error e =>
    unfold declareMatrix
    rw [hname]
    rfl
  | ok u =>
    exact declareMatrix_eq_ok_iff.2
      ⟨hname, Nat.ne_of_gt hrows, Nat.ne_of_gt hcols, m.length_cells, rfl⟩

namespace MatrixText

/-- **Matrix texts** are read exactly: a text is a matrix if and only if it is rows of numbers in
braces, equally many in each row, and the values are those numbers in order. Its shape and its
values always fit, so a matrix that is read is declared unless its name is refused. A slice that is
no number is reported at the byte at which it starts, after all slices that are numbers. -/
theorem parse_exact (text : String) :
    ((∃ m, parse text = .ok m) ↔ ∃ rows, Layout text.toList rows ∧
      (∀ row ∈ rows, ∀ slice ∈ row, IsNumber slice) ∧ ∃ cols, ∀ row ∈ rows, row.length = cols) ∧
    (∀ m, parse text = .ok m →
      0 < m.rows ∧ 0 < m.cols ∧ m.values.length = m.rows * m.cols ∧
      (∃ rows, Layout text.toList rows ∧ Spelled rows m) ∧
      ∃ matrix : Matrix, matrix.rows = m.rows ∧ matrix.cols = m.cols ∧ matrix.cells = m.values ∧
        ∀ c : Catalog, ∀ name, c.declareMatrixText name text =
          (c.checkAvailable name).map fun _ => (c.push name (.matrix matrix)).2.advance) ∧
    ∀ source p, parse text = .error (.malformed source p .notNumber) → source = text ∧
      ∃ rowsBefore before slice after rowsAfter,
        Layout text.toList (rowsBefore ++ (before ++ slice :: after) :: rowsAfter) ∧
        (∀ earlier ∈ rowsBefore.flatten ++ before, IsNumber earlier) ∧ ¬IsNumber slice ∧
        ∃ later, text = String.ofList (textBefore text.toList rowsBefore before) ++
            String.ofList slice ++ later ∧
          p = (String.ofList (textBefore text.toList rowsBefore before)).utf8ByteSize := by
  refine ⟨exists_parse_iff, fun m h => ?_, fun source p h => ?_⟩
  · obtain ⟨rows, hlayout, hspelled⟩ := parse_eq_ok_iff.1 h
    obtain ⟨hrows, hcols, hlength⟩ := hspelled.shape hlayout
    refine ⟨hrows, hcols, hlength, ⟨rows, hlayout, hspelled⟩,
      ⟨m.rows, m.cols, m.values, hlength⟩, rfl, rfl, rfl, fun c name => ?_⟩
    unfold declareMatrixText
    rw [h]
    exact c.declareMatrix_eq name ⟨m.rows, m.cols, m.values, hlength⟩ hrows hcols
  · unfold parse at h
    split at h
    · next position reason hrowsOf =>
      cases h
      obtain ⟨rowsBefore, before, slice, after, rowsAfter, hlayout, hearlier, hslice, rfl⟩ :=
        rowsOf_eq_error hrowsOf
      obtain ⟨later, hlater⟩ := hlayout.slice
      refine ⟨rfl, rowsBefore, before, slice, after, rowsAfter, hlayout, hearlier, hslice,
        String.ofList later, ?_, byteLength_eq _⟩
      rw [← String.ofList_append, ← String.ofList_append, hlater, String.ofList_toList]
    · dsimp only at h
      split at h <;> cases h

/-- A matrix between wide blanks, and one with a letter behind such a blank. -/
theorem parse_exact_sample :
    let stray := "\u2003\x7b1;\u2003x,2\x7d"
    (∃ m, parse "\u2003\x7b 1, -2.5 ;\u00a0.5e1,INF\x7d " = .ok m ∧
      m.values.length = m.rows * m.cols) ∧
    parse stray = .error (.malformed stray 6 .notNumber) ∧
      ∃ before slice later, stray = before ++ String.ofList slice ++ later ∧
        before.utf8ByteSize = 6 ∧ ¬IsNumber slice := by
  intro stray
  have hmatrix : parse "\u2003\x7b 1, -2.5 ;\u00a0.5e1,INF\x7d " = .ok _ :=
    eq_ok_valueOf (by decide +kernel)
  have hfault : parse stray = .error (.malformed stray 6 .notNumber) :=
    eq_error_of_faultOf? (by decide +kernel)
  obtain ⟨-, rowsBefore, before, slice, after, rowsAfter, -, -, hslice, later, htext, hplace⟩ :=
    (parse_exact stray).2.2 stray 6 hfault
  exact ⟨⟨_, hmatrix, ((parse_exact _).2.1 _ hmatrix).2.2.1⟩, hfault, _, slice, later, htext,
    hplace.symm, hslice⟩

end MatrixText

end Catalog

end MapAlgebra
