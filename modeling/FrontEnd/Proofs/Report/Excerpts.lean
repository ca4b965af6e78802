import FrontEnd.Proofs.Text.Reading
import FrontEnd.Proofs.Token.Writing
import FrontEnd.Report.Excerpt

/-!
# What reports quote

A report shows its findings one after another, each above an excerpt that quotes lines by their
numbers.  The characters of a line stand on it, and its text is kept; but the text of a line that
cannot be read is not, so every such line moves the texts of those behind it one number up.

Where every line can be read, an excerpt shows the lines of its span, and the carets stand below
the characters of the span.

## Main definitions

* `Item.onLine`: the character of an item, if it stands on a line.
* `Part.extent`: the characters from the first lexeme of some parts on.
* `Spanned`: which characters of a text are those of a span.
* `above`: the characters of a row that stand above carets.
* `Shows`: rows that show the characters from one token to another.

## Main statements

* `Source.line_ofBytes`: under which number the text of a line is kept.
* `renderFindings_ofText`: what a report consists of, and which lines and which characters it shows
  of a finding from token to token.
-/

namespace FrontEnd

/-! ## The characters of a line -/

/-- The character of an item, if it stands on line `n` and does not end it: the position after it is
on that line too, and not at its start. -/
def Item.onLine (n : Nat) : Item → Option Char
  | .char c next => if next.line = n ∧ next.column ≠ 1 then some c else none
  | .failure => none

theorem Position.after_of_ne_feed {c : Char} (hc : c ≠ '\n') {p : Position} (hp : 1 ≤ p.column) :
    (p.after c).line = p.line ∧ 1 < (p.after c).column := by
  have hline : (p.after c).line = p.line := by
    have hfeed : '\n' ∉ [c] := by simpa using hc.symm
    exact Source.line_foldl_after hfeed p
  have hle := advance_le_after c p hp
  rw [le_def, hline] at hle
  simp only [advance] at hle
  omega

namespace Source

variable {lines : List (Option String)} {text : String} {n k : Nat}

theorem filterMap_onLine_charsFrom {chars : List Char} (h : '\n' ∉ chars) {p : Position}
    (hp : 1 ≤ p.column) (n : Nat) :
    (charsFrom p (chars ++ ['\n'])).filterMap (Item.onLine n) =
      if p.line = n then chars else [] := by
  induction chars generalizing p with
  | nil => simp [charsFrom, Item.onLine, Position.after, Position.newline]
  | cons c rest ih =>
    rw [List.mem_cons, not_or] at h
    obtain ⟨hline, hcolumn⟩ := Position.after_of_ne_feed (Ne.symm h.1) hp
    rw [List.cons_append, charsFrom, List.filterMap_cons, ih h.2 (Nat.le_of_lt hcolumn), hline]
    by_cases hn : p.line = n
    · simp [Item.onLine, hline, hn, Nat.ne_of_gt hcolumn]
    · simp [Item.onLine, hline, hn]

/-- No character of a line stands on a line before it. -/
theorem filterMap_onLine_of_lt (h : ∀ text, some text ∈ lines → '\n' ∉ text.toList) {m : Nat}
    (hm : m < n) : (itemsFrom n lines).filterMap (Item.onLine m) = [] := by
  induction lines generalizing n with
  | nil => rfl
  | cons line rest ih =>
    have hrest := ih (fun text htext => h text (List.mem_cons_of_mem _ htext))
      (Nat.lt_succ_of_lt hm)
    cases line with
    | none => exact hrest
    | some text =>
      rw [itemsFrom, List.filterMap_append, hrest,
        filterMap_onLine_charsFrom (h text List.mem_cons_self) (Nat.le_refl 1),
        if_neg (Nat.ne_of_gt hm), List.append_nil]

/-- The characters on a line are those of its text. -/
theorem filterMap_onLine_itemsFrom (h : ∀ text, some text ∈ lines → '\n' ∉ text.toList)
    (hk : lines[k]? = some (some text)) :
    (itemsFrom n lines).filterMap (Item.onLine (n + k)) = text.toList := by
  induction lines generalizing n k with
  | nil => cases hk
  | cons line rest ih =>
    have hrest : ∀ text, some text ∈ rest → '\n' ∉ text.toList :=
      fun text htext => h text (List.mem_cons_of_mem _ htext)
    cases k with
    | zero =>
      obtain rfl := Option.some.inj hk
      rw [Nat.add_zero, itemsFrom, List.filterMap_append,
        filterMap_onLine_of_lt hrest (Nat.lt_succ_self n),
        filterMap_onLine_charsFrom (h text List.mem_cons_self) (Nat.le_refl 1), if_pos rfl,
        List.append_nil]
    | succ k =>
      have hlater := ih hrest hk (n := n + 1)
      rw [Nat.add_assoc, Nat.add_comm 1 k] at hlater
      cases line with
      | none => exact hlater
      | some first =>
        rw [itemsFrom, List.filterMap_append, hlater,
          filterMap_onLine_charsFrom (h first List.mem_cons_self) (Nat.le_refl 1),
          if_neg (by simp), List.nil_append]

/-! ## The texts that are kept -/

theorem length_retained_add (lines : List (Option String)) :
    (lines.filterMap id).length + lines.count none = lines.length := by
  induction lines with
  | nil => rfl
  | cons line rest ih => cases line <;> simp [← ih] <;> omega

/-- The number of a text that is kept leaves out the lines before it that could not be read. -/
theorem line_of_getElem? {s : Source} (hk : s.lines[k]? = some (some text)) :
    s.line (k + 1 - (s.lines.take k).count none) = text := by
  obtain ⟨hlt, hget⟩ := List.getElem?_eq_some_iff.mp hk
  have hsplit : s.lines = s.lines.take k ++ some text :: s.lines.drop (k + 1) := by
    rw [← hget, List.getElem_cons_drop, List.take_append_drop]
  have hcount := length_retained_add (s.lines.take k)
  rw [List.length_take, Nat.min_eq_left (Nat.le_of_lt hlt)] at hcount
  have hretained : s.retained = (s.lines.take k).filterMap id ++
      text :: (s.lines.drop (k + 1)).filterMap id := by
    rw [retained]
    nth_rewrite 1 [hsplit]
    rw [List.filterMap_append, List.filterMap_cons]
    rfl
  have hindex : k + 1 - (s.lines.take k).count none - 1 =
      ((s.lines.take k).filterMap id).length := by omega
  rw [line, if_neg (by omega), hretained, hindex, List.getD_eq_getElem?_getD,
    List.getElem?_append_right (Nat.le_refl _), Nat.sub_self]
  rfl

/-- What is decoded holds a line feed only where the bytes do. -/
theorem feed_not_mem_of_fromUTF8? {line : List UInt8}
    (h : String.fromUTF8? ⟨line.toArray⟩ = some text) (hline : 0x0a ∉ line) :
    '\n' ∉ text.toList := by
  have hbytes : text.toList.utf8Encode = ⟨line.toArray⟩ := by
    rw [← String.toByteArray_ofList, String.ofList_toList]
    unfold String.fromUTF8? at h
    split at h
    · exact (Option.some.inj h) ▸ rfl
    · cases h
  have hdata := congrArg (fun bytes : ByteArray => bytes.data.toList) hbytes
  simp only [List.utf8Encode, List.data_toByteArray, List.toList_toArray] at hdata
  intro hmem
  exact hline (hdata ▸ List.mem_flatMap.mpr ⟨'\n', hmem, by decide⟩)

/-- **Numbers of lines.**  The characters of a line that can be read are emitted on it.  Its text is
kept under its number, less the number of lines before it that cannot be read. -/
theorem line_ofBytes (name : String) {bytes line : List UInt8} (reading : Nat)
    (hline : (Text.byteLines bytes)[k]? = some line)
    (htext : String.fromUTF8? ⟨line.toArray⟩ = some text) :
    let source := ofBytes name bytes reading
    source.items.filterMap (Item.onLine (k + 1)) = text.toList ∧
      source.line (k + 1 - (source.lines.take k).count none) = text := by
  intro source
  have hk : source.lines[k]? = some (some text) := by
    simp [source, ofBytes, hline, htext]
  have hfeeds : ∀ text, some text ∈ source.lines → '\n' ∉ text.toList := by
    intro text hmem
    obtain ⟨line, hline, htext⟩ := List.mem_map.mp hmem
    exact feed_not_mem_of_fromUTF8? htext fun hfeed =>
      ((Text.mem_of_mem_cutLines hline hfeed).resolve_left List.not_mem_nil).2 rfl
  refine ⟨?_, line_of_getElem? hk⟩
  rw [Nat.add_comm]
  exact filterMap_onLine_itemsFrom hfeeds hk

/-- Behind a line that cannot be read, the third line is kept as the second. -/
theorem line_ofBytes_third : (ofBytes "f" [0x61, 0x0a, 0xff, 0x0a, 0x62] 0).line 2 = "b" :=
  have hline : (Text.byteLines [0x61, 0x0a, 0xff, 0x0a, 0x62])[2]? = some [0x62] := by decide
  (line_ofBytes "f" 0 hline (by decide +kernel)).2

/-- The text of a line that can be read need not be kept under the number of the line. -/
theorem exists_line_ofBytes_ne : ∃ bytes line,
    (Text.byteLines bytes)[1]? = some line ∧ String.fromUTF8? ⟨line.toArray⟩ = some "b" ∧
      (ofBytes "f" bytes 0).line 2 = "" :=
  ⟨[0xff, 0x0a, 0x62], [0x62], by decide +kernel⟩

end Source

/-! ## The lines of an excerpt -/

theorem feed_not_mem_toDigits (n : Nat) : '\n' ∉ Nat.toDigits 10 n :=
  fun h => absurd (Text.isWordChar_of_mem_toDigits (by decide) (by decide) h) (by decide)

namespace Finding

/-- The lines of an excerpt: a margin, the numbered lines of the source, and the carets. -/
def rows (f : Finding) (source : Source) : List (List Char) :=
  let width := (toString f.span.stop.line).length
  (Text.repeated width ' ' ++ " |").toList ::
    f.span.lineNumbers.map (fun n =>
      (Text.rightAligned width n ++ " | " ++ source.line n).toList) ++
    [(Text.repeated width ' ' ++ " | " ++ f.span.carets).toList]

theorem toList_excerpt (f : Finding) (source : Source) :
    (f.excerpt source).toList = (f.rows source).flatMap (· ++ ['\n']) := by
  simp [excerpt, rows, String.toList_join, List.flatMap_map]

theorem feed_not_mem_rows (f : Finding) {source : Source}
    (h : ∀ n, '\n' ∉ (source.line n).toList) : ∀ row ∈ f.rows source, '\n' ∉ row := by
  intro row hrow
  simp only [rows, List.cons_append, List.mem_cons, List.mem_append, List.mem_map,
    List.not_mem_nil, or_false] at hrow
  rcases hrow with hrow | ⟨n, -, hrow⟩ | hrow
  · simp [hrow, Text.repeated]
  · have hline := h n
    simp [← hrow, Text.rightAligned, Text.repeated, hline, feed_not_mem_toDigits]
  · simp [hrow, Span.carets, Text.repeated]

/-- What stands above an excerpt: the label and the message of a finding, and its location. -/
def heading (f : Finding) (name errorLabel : String) : String :=
  f.label errorLabel ++ ": " ++ f.message ++ "\n --> " ++ f.span.describe name ++ "\n"

theorem toList_render (f : Finding) (source : Source) (errorLabel : String) :
    (f.render source errorLabel).toList = (f.heading source.name errorLabel).toList ++
      (f.rows source ++ [[]]).flatMap (· ++ ['\n']) := by
  simp [render, heading, toList_excerpt]

end Finding

theorem toList_renderFindings {source : Source} {errorLabel : String} {findings : List Finding}
    (h : findings ≠ []) :
    (renderFindings source errorLabel findings).toList =
      findings.flatMap (fun f =>
        (f.heading source.name errorLabel).toList ++
          (f.rows source ++ [[]]).flatMap (· ++ ['\n'])) ++
        (failureSummary (findings.countP Finding.isError)).toList := by
  cases findings with
  | nil => exact absurd rfl h
  | cons f rest =>
    simp only [renderFindings, String.toList_append, String.toList_join, List.flatMap_map,
      Finding.toList_render]

/-! ## Where the characters of a text stand -/

section Lines

variable {before middle after : List Char}

theorem Position.lastLine_append_cons (first second : List Char) :
    lastLine (first ++ '\n' :: second) = lastLine second := by
  have hstop : ∀ kept dropped : List Char,
      (kept ++ '\n' :: dropped).takeWhile (· ≠ '\n') = kept.takeWhile (· ≠ '\n') := by
    intro kept dropped
    induction kept with
    | nil => simp
    | cons c kept ih => rw [List.cons_append, List.takeWhile_cons, List.takeWhile_cons, ih]
  rw [lastLine, List.reverse_append, List.reverse_cons, List.append_assoc, List.singleton_append,
    hstop, lastLine]

/-- Without tabs the columns count the characters. -/
theorem Position.column_place (h : '\t' ∉ before) :
    (place before).column = (lastLine before).length + 1 := by
  have hcolumns : ∀ (chars : List Char) (column : Nat), '\t' ∉ chars →
      chars.foldl columnAfter column = chars.length + column := by
    intro chars
    induction chars with
    | nil => simp
    | cons c rest ih =>
      intro column hrest
      rw [List.mem_cons, not_or] at hrest
      rw [List.foldl_cons, ih _ hrest.2, columnAfter, if_neg (Ne.symm hrest.1), List.length_cons]
      omega
  apply hcolumns
  intro hmem
  exact h (List.mem_reverse.mp (List.takeWhile_subset _ (List.mem_reverse.mp hmem)))

/-- Characters without a line end stand in the line that counts the line ends before them, after
what stands before them since the last of those. -/
theorem exists_line {lines : List (List Char)} (hlines : ∀ line ∈ lines, '\n' ∉ line)
    (h : lines.flatMap (· ++ ['\n']) = before ++ middle ++ after) (hmiddle : middle ≠ [])
    (hfeed : '\n' ∉ middle) :
    ∃ tail, lines[before.count '\n']? = some (Position.lastLine before ++ middle ++ tail) := by
  induction lines generalizing before with
  | nil => simp_all
  | cons line rest ih =>
    have hline := hlines line List.mem_cons_self
    rw [List.flatMap_cons, List.append_assoc, List.singleton_append] at h
    by_cases hbefore : '\n' ∈ before
    · obtain ⟨first, second, rfl, hfirst⟩ := List.eq_append_cons_of_mem hbefore
      have hsplit : line ++ '\n' :: rest.flatMap (· ++ ['\n']) =
          first ++ '\n' :: (second ++ middle ++ after) := by simpa using h
      obtain ⟨rfl, hrest⟩ := Text.append_inj_of_line hline hfirst hsplit
      obtain ⟨tail, htail⟩ := ih (fun l hl => hlines l (List.mem_cons_of_mem _ hl)) hrest
      refine ⟨tail, ?_⟩
      rw [Position.lastLine_append_cons, List.count_append, List.count_eq_zero_of_not_mem hfirst,
        List.count_cons_self, Nat.zero_add, List.getElem?_cons_succ, htail]
    · have hmem : '\n' ∈ before ++ middle ++ after := h ▸ by simp
      have hafter : '\n' ∈ after := by simpa [hbefore, hfeed] using hmem
      obtain ⟨first, second, rfl, hfirst⟩ := List.eq_append_cons_of_mem hafter
      have hsplit : line ++ '\n' :: rest.flatMap (· ++ ['\n']) =
          (before ++ middle ++ first) ++ '\n' :: second := by simpa using h
      obtain ⟨rfl, -⟩ := Text.append_inj_of_line hline (by simp [hbefore, hfeed, hfirst]) hsplit
      refine ⟨first, ?_⟩
      have hlast := Position.lastLine_append hbefore []
      rw [List.nil_append] at hlast
      rw [List.count_eq_zero_of_not_mem hbefore, List.getElem?_cons_zero, hlast]
      rfl

end Lines

/-! ## The characters from one token to another -/

namespace Part

variable {parts : List Part} {p q : Part} {i j : Nat}

/-- The characters from the first lexeme of the parts on. -/
def extent : List Part → List Char
  | [] => []
  | p :: parts => p.lexeme ++ parts.flatMap Part.chars

theorem getElem?_locate (before : List Char) (parts : List Part) (i : Nat) :
    (locate before parts)[i]? = parts[i]?.map fun p =>
      ⟨p.token, p.span (before ++ (parts.take i).flatMap Part.chars)⟩ := by
  induction parts generalizing before i with
  | nil => rfl
  | cons p parts ih =>
    cases i with
    | zero => simp [locate]
    | succ i => simp [locate, ih]

/-- What stands before a part, its gap, and the extent from it to a later part are all the parts up
to there. -/
theorem append_extent (hij : i ≤ j) (hp : parts[i]? = some p) :
    (parts.take i).flatMap Part.chars ++ p.gap ++ extent ((parts.drop i).take (j + 1 - i)) =
      (parts.take (j + 1)).flatMap Part.chars := by
  obtain ⟨hi, rfl⟩ := List.getElem?_eq_some_iff.mp hp
  have hcount : j + 1 - i = j - i + 1 := by omega
  have hsum : j + 1 = i + (j - i + 1) := by omega
  have htake : parts.take (j + 1) = parts.take i ++ (parts.drop i).take (j - i + 1) := by
    rw [hsum, List.take_add]
  rw [htake, hcount, List.flatMap_append, List.drop_eq_getElem_cons hi, List.take_succ_cons,
    List.flatMap_cons, extent]
  simp [Part.chars]

/-- The span of a part ends with the last character of the parts up to it, which ends no line. -/
theorem stop_span (hq : parts[j]? = some q) (hspells : Spells q.lexeme q.token) :
    let chars := (parts.take (j + 1)).flatMap Part.chars
    let stop := (q.span ((parts.take j).flatMap Part.chars)).stop
    stop = (Position.place chars.dropLast).advance ∧ stop.line = 1 + chars.count '\n' := by
  intro chars stop
  have hchars : chars = (parts.take j).flatMap Part.chars ++ q.gap ++ q.lexeme := by
    simp [chars, List.take_add_one, hq, Part.chars]
  have hfeed := List.count_eq_zero_of_not_mem hspells.inLine.1
  have hdrop : q.lexeme.dropLast.count '\n' ≤ q.lexeme.count '\n' :=
    (List.dropLast_sublist _).count_le _
  constructor
  · rw [hchars, List.dropLast_append_of_ne_nil hspells.ne_nil]
    rfl
  · rw [hchars, List.count_append, hfeed]
    change 1 + ((parts.take j).flatMap Part.chars ++ q.gap ++ q.lexeme.dropLast).count '\n' = _
    rw [List.count_append]
    omega

end Part

namespace Cut

variable {before chars rest : List Char} {parts : List Part} {tokens : List (Located Token)}
  {p : Part} {t : Located Token} {i : Nat}

theorem getElem?_tokens (h : Cut before chars parts rest tokens) (hp : parts[i]? = some p) :
    tokens[i]? = some ⟨p.token, p.span (before ++ (parts.take i).flatMap Part.chars)⟩ := by
  have hlocate := Part.getElem?_locate before parts i
  rw [hp, Option.map_some] at hlocate
  rw [h.tokens_eq, List.getElem?_append_left (List.getElem?_eq_some_iff.mp hlocate).1, hlocate]

/-- A token other than the end of the input is that of a part. -/
theorem exists_part (h : Cut before chars parts rest tokens) (ht : tokens[i]? = some t)
    (heof : t.value ≠ .eof) : ∃ p, parts[i]? = some p := by
  by_contra hnone
  have hlocate := Part.getElem?_locate before parts i
  rw [Option.eq_none_iff_forall_ne_some.mpr fun p hp => hnone ⟨p, hp⟩, Option.map_none,
    List.getElem?_eq_none_iff] at hlocate
  rw [h.tokens_eq, List.getElem?_append_right hlocate] at ht
  rw [List.mem_singleton.mp (List.mem_of_getElem? ht)] at heof
  exact heof rfl

end Cut

/-- The characters `middle` of `chars`, after `before`, are those of a span, and the last of them
ends no line. -/
structure Spanned (chars before middle : List Char) (s : Span) : Prop where
  split : ∃ after, chars = before ++ middle ++ after
  ne_nil : middle ≠ []
  start_eq : s.start = .place before
  stop_eq : s.stop = (Position.place (before ++ middle).dropLast).advance
  stop_line : s.stop.line = 1 + (before ++ middle).count '\n'

/-- From one token to another there are the characters from the lexeme of the first to that of the
second. -/
theorem Cut.spanned {chars rest : List Char} {parts : List Part} {tokens : List (Located Token)}
    {t u : Located Token} {i j : Nat} (h : Cut [] chars parts rest tokens) (hij : i ≤ j)
    (ht : tokens[i]? = some t) (hu : tokens[j]? = some u) (heof : u.value ≠ .eof) :
    ∃ before, Spanned chars before (Part.extent ((parts.drop i).take (j + 1 - i)))
      (t.span.join u.span) := by
  obtain ⟨q, hq⟩ := h.exists_part hu heof
  have hj := (List.getElem?_eq_some_iff.mp hq).1
  have hp : parts[i]? = some parts[i] := List.getElem?_eq_getElem (Nat.lt_of_le_of_lt hij hj)
  obtain rfl := Option.some.inj (ht.symm.trans (h.getElem?_tokens hp))
  obtain rfl := Option.some.inj (hu.symm.trans (h.getElem?_tokens hq))
  have hparts := Part.append_extent hij hp
  have hspells := (h.valid q (List.mem_of_getElem? hq)).2
  obtain ⟨hstop, hline⟩ := Part.stop_span hq hspells
  have hfirst := (h.valid _ (List.mem_of_getElem? hp)).2.ne_nil
  refine ⟨(parts.take i).flatMap Part.chars ++ parts[i].gap, ?_, ?_, rfl, ?_, ?_⟩
  · refine ⟨(parts.drop (j + 1)).flatMap Part.chars ++ rest, ?_⟩
    rw [hparts, ← List.append_assoc, ← List.flatMap_append, List.take_append_drop, h.chars_eq]
  · have hcount : j + 1 - i = j - i + 1 := by omega
    rw [hcount, List.drop_eq_getElem_cons (Nat.lt_of_le_of_lt hij hj), List.take_succ_cons]
    simp [Part.extent, hfirst]
  · rw [hparts]
    exact hstop
  · rw [hparts]
    exact hline

/-! ## What the carets mark -/

/-- The characters of a row that stand above carets. -/
def above (marks row : List Char) : List Char :=
  (row.zip marks).filterMap fun (c, mark) => if mark = '^' then some c else none

theorem above_carets {front indent : List Char} (hlength : front.length = indent.length)
    (hindent : '^' ∉ indent) (middle tail : List Char) :
    above (indent ++ List.replicate middle.length '^') (front ++ (middle ++ tail)) = middle := by
  have hfront : (front.zip indent).filterMap
      (fun (c, mark) => if mark = '^' then some c else none) = [] := by
    rw [List.filterMap_eq_nil_iff]
    rintro ⟨c, mark⟩ hmem
    have hmark : mark ≠ '^' := fun heq => hindent (heq ▸ (List.of_mem_zip hmem).2)
    exact if_neg hmark
  rw [above, List.zip_append hlength, List.filterMap_append, hfront, List.nil_append]
  induction middle with
  | nil => simp
  | cons c middle ih => simpa [List.replicate_succ] using ih

namespace Spanned

variable {lines : List (List Char)} {before middle : List Char} {s : Span}
  (h : Spanned (lines.flatMap (· ++ ['\n'])) before middle s)
  (hlines : ∀ line ∈ lines, '\n' ∉ line)
include h

theorem start_line : s.start.line = 1 + before.count '\n' := congrArg Position.line h.start_eq

theorem start_le_stop : s.start.line ≤ s.stop.line := by
  rw [h.start_line, h.stop_line, List.count_append]
  omega

theorem feed_not_mem (hline : s.start.line = s.stop.line) : '\n' ∉ middle := by
  rw [h.start_line, h.stop_line, List.count_append] at hline
  exact List.count_eq_zero.mp (by omega)

include hlines

/-- The last character stands in one of the lines. -/
theorem stop_le_length : s.stop.line ≤ lines.length := by
  obtain ⟨after, hsplit⟩ := h.split
  have hne : before ++ middle ≠ [] := by simp [h.ne_nil]
  have hlast := List.dropLast_append_getLast hne
  have hcount : (before ++ middle).count '\n' = (before ++ middle).dropLast.count '\n' := by
    have hline := h.stop_line.symm.trans (congrArg Position.line h.stop_eq)
    simpa [Position.place, Position.advance] using hline
  have hfeed : '\n' ∉ [(before ++ middle).getLast hne] := by
    rw [← hlast, List.count_append] at hcount
    rw [List.dropLast_concat] at hcount
    exact List.count_eq_zero.mp (by omega)
  rw [← hlast] at hsplit
  obtain ⟨tail, htail⟩ := exists_line hlines hsplit (by simp) hfeed
  have hlt := (List.getElem?_eq_some_iff.mp htail).1
  rw [h.stop_line, hcount]
  omega

/-- Characters within one line stand there after what the start column counts. -/
theorem exists_tail (hline : s.start.line = s.stop.line) : ∃ tail,
    lines[s.start.line - 1]? = some (Position.lastLine before ++ middle ++ tail) := by
  obtain ⟨after, hsplit⟩ := h.split
  rw [h.start_line, Nat.add_sub_cancel_left]
  exact exists_line hlines hsplit h.ne_nil (h.feed_not_mem hline)

omit hlines

theorem toList_carets (hline : s.start.line = s.stop.line) (htab : '\t' ∉ before ++ middle) :
    s.carets.toList = List.replicate (Position.lastLine before).length ' ' ++
      List.replicate middle.length '^' := by
  have hpos := List.length_pos_iff.mpr h.ne_nil
  have hstart : s.start.column = (Position.lastLine before).length + 1 := by
    rw [h.start_eq, Position.column_place fun hmem => htab (List.mem_append_left _ hmem)]
  have hstop : s.stop.column = (Position.lastLine before).length + middle.length + 1 := by
    have hfeed : '\n' ∉ middle.dropLast := fun hmem =>
      h.feed_not_mem hline ((List.dropLast_sublist _).subset hmem)
    have htab' : '\t' ∉ (before ++ middle).dropLast := fun hmem =>
      htab ((List.dropLast_sublist _).subset hmem)
    rw [h.stop_eq]
    change (Position.place _).column + 1 = _
    rw [Position.column_place htab',
      List.dropLast_append_of_ne_nil h.ne_nil, Position.lastLine_append hfeed, List.length_append,
      List.length_dropLast]
    omega
  simp only [Span.carets, Span.caretColumns, hstart, hstop, Text.repeated, String.toList_append,
    String.toList_ofList]
  congr 2 <;> omega

include hlines

/-- In a line printed behind its number, the characters of the span stand above the carets that are
printed behind a margin of the same width. -/
theorem above_row (hline : s.start.line = s.stop.line) (htab : '\t' ∉ before ++ middle)
    (number : String) : ∃ line, lines[s.start.line - 1]? = some line ∧
      above (Text.repeated number.length ' ' ++ " | " ++ s.carets).toList
        ((number ++ " | ").toList ++ line) = middle := by
  obtain ⟨tail, htail⟩ := h.exists_tail hlines hline
  refine ⟨_, htail, ?_⟩
  rw [String.toList_append, h.toList_carets hline htab, ← List.append_assoc,
    List.append_assoc _ middle, ← List.append_assoc]
  refine above_carets ?_ ?_ middle tail
  · simp [Text.repeated, String.length_toList]
  · simp [Text.repeated]

end Spanned

theorem Source.line_ofText (name text : String) (reading : Nat) {n : Nat} (hn : 0 < n) :
    (ofText name text reading).line n = (Text.lines text).getD (n - 1) "" := by
  simp [line, retained, ofText, Nat.ne_of_gt hn]

theorem Source.mem_of_mem_characters {name text : String} {reading : Nat} {c : Char}
    (h : c ∈ (ofText name text reading).characters) (hc : c ≠ '\n') : c ∈ text.toList := by
  rw [characters_ofText] at h
  obtain ⟨line, hline, hmem⟩ := List.mem_flatMap.mp h
  exact (Text.mem_of_mem_lines hline (by simpa [hc] using hmem)).1

theorem Source.feed_not_mem_line (name text : String) (reading n : Nat) :
    '\n' ∉ ((ofText name text reading).line n).toList := by
  by_cases hn : n = 0
  · simp [line, hn]
  · rw [line_ofText name text reading (Nat.pos_of_ne_zero hn), List.getD_eq_getElem?_getD]
    cases hline : (Text.lines text)[n - 1]? with
    | none => simp
    | some line => exact Text.not_mem_lines (List.mem_of_getElem? hline)

/-- Rows that show the characters from token `i` to token `j` of a text, from its line `first` to
its line `last`. -/
structure Shows (source : Source) (text : String) (tokens : List (Located Token))
    (i j first last : Nat) (rows : List (List Char)) : Prop where
  /-- The lines are lines of the text. -/
  within : 0 < first ∧ first ≤ last ∧ last ≤ (Text.lines text).length
  inLine : ∀ row ∈ rows, '\n' ∉ row
  /-- Below a margin there is every line, once, in order and under its own number, and below these
  the carets.  In one line without tabs, they stand below the characters from the first to the last
  of the tokens. -/
  quoted :
    let width := (toString last).length
    let row := fun n =>
      (Text.rightAligned width n ++ " | " ++ (Text.lines text).getD (n - 1) "").toList
    ∃ carets, rows = (Text.repeated width ' ' ++ " |").toList ::
        (List.range' first (last + 1 - first)).map row ++ [carets] ∧
      ('\t' ∉ text.toList → first = last → ∃ parts rest,
        Cut [] source.characters parts rest tokens ∧
        above carets (row first) = Part.extent ((parts.drop i).take (j + 1 - i)))

section Report

variable {name text : String} {reading i j : Nat} {result : List (Located Token)}
  {t u : Located Token} {finding : Finding}
  (hresult : (Source.ofText name text reading).tokens = .ok result)
include hresult

/-- A span from the start of a token to the end of the same or a later one is shown. -/
theorem shows_ofText (hij : i ≤ j) (ht : result[i]? = some t) (hu : result[j]? = some u)
    (heof : u.value ≠ .eof) (hspan : finding.span = t.span.join u.span) :
    Shows (.ofText name text reading) text result i j t.span.start.line u.span.stop.line
      (finding.rows (.ofText name text reading)) := by
  obtain ⟨parts, rest, hcut⟩ := cuts_ofText hresult
  obtain ⟨before, hspanned⟩ := hcut.spanned hij ht hu heof
  have hchars : (Source.ofText name text reading).characters =
      ((Text.lines text).map String.toList).flatMap (· ++ ['\n']) := by
    rw [Source.characters_ofText, List.flatMap_map]
  have hfeeds : ∀ line ∈ (Text.lines text).map String.toList, '\n' ∉ line := by
    intro line hmem
    obtain ⟨text, htext, rfl⟩ := List.mem_map.mp hmem
    exact Text.not_mem_lines htext
  have hspanned' := hchars ▸ hspanned
  have hpos : 0 < t.span.start.line := by
    have hfirst := hspanned'.start_line
    rw [Span.start_join] at hfirst
    omega
  refine ⟨⟨hpos, hspanned'.start_le_stop, ?_⟩,
    finding.feed_not_mem_rows (Source.feed_not_mem_line name text reading), ?_⟩
  · simpa using hspanned'.stop_le_length hfeeds
  intro width row
  refine ⟨(Text.repeated width ' ' ++ " | " ++ finding.span.carets).toList, ?_, ?_⟩
  · have hrows : finding.span.lineNumbers.map (fun n => (Text.rightAligned width n ++ " | " ++
          (Source.ofText name text reading).line n).toList) =
        (List.range' t.span.start.line (u.span.stop.line + 1 - t.span.start.line)).map row := by
      rw [hspan]
      apply List.map_congr_left
      intro n hn
      rw [Source.line_ofText name text reading
        (Nat.lt_of_lt_of_le hpos (List.mem_range'_1.mp hn).1)]
    simp only [Finding.rows, ← hrows, hspan, Span.stop_join, width]
  · intro htab hline
    refine ⟨parts, rest, hcut, ?_⟩
    obtain ⟨after, hsplit⟩ := hspanned.split
    have htab' : '\t' ∉ before ++ Part.extent ((parts.drop i).take (j + 1 - i)) := fun hmem =>
      htab (Source.mem_of_mem_characters (hsplit ▸ List.mem_append_left _ hmem) (by decide))
    obtain ⟨chars, hget, habove⟩ :=
      hspanned'.above_row hfeeds hline htab' (toString u.span.stop.line)
    rw [List.getElem?_map, Option.map_eq_some_iff] at hget
    obtain ⟨line, hget, rfl⟩ := hget
    have hrow : row t.span.start.line =
        (toString u.span.stop.line ++ " | ").toList ++ line.toList := by
      have hgetD : (Text.lines text).getD (u.span.stop.line - 1) "" = line := by
        rw [List.getD_eq_getElem?_getD, ← hline]
        exact congrArg (·.getD "") hget
      simp only [row, hline, hgetD, Text.rightAligned, width, Nat.sub_self]
      simp [Text.repeated]
    rw [hspan, hrow]
    exact habove

/-- **Reports.**  A report shows its findings in order, each with its label, its message and its
location above some rows.  Where a finding spans the text from the start of a token to the end of
the same or a later one, the rows are the lines that it touches and the carets below its
characters. -/
theorem renderFindings_ofText (errorLabel : String) {findings : List Finding}
    (hne : findings ≠ []) :
    let source := Source.ofText name text reading
    ∃ rows : Finding → List (List Char),
      (renderFindings source errorLabel findings).toList =
        findings.flatMap (fun f =>
          (f.heading name errorLabel).toList ++ (rows f ++ [[]]).flatMap (· ++ ['\n'])) ++
          (failureSummary (findings.countP Finding.isError)).toList ∧
      ∀ f ∈ findings, ∀ i j t u, i ≤ j → result[i]? = some t → result[j]? = some u →
        u.value ≠ .eof → f.span = t.span.join u.span →
        Shows source text result i j t.span.start.line u.span.stop.line (rows f) := by
  intro source
  refine ⟨fun f => f.rows source, ?_, fun f _ i j t u hij ht hu heof hspan =>
    shows_ofText hresult hij ht hu heof hspan⟩
  rw [toList_renderFindings hne]
  rfl

end Report

/-- A report of an error over four tokens in the second line of a text. -/
theorem renderFindings_ofText_group :
    let source := Source.ofText "group" "x\n  g( 1 ) ;" 0
    let t : Located Token := ⟨.ident ⟨"g"⟩, ⟨⟨2, 3⟩, ⟨2, 4⟩⟩⟩
    let u : Located Token := ⟨.symbol .closeParen, ⟨⟨2, 8⟩, ⟨2, 9⟩⟩⟩
    let finding : Finding := ⟨.error, "stop", t.span.join u.span⟩
    ∃ result row carets, source.tokens = .ok result ∧ result[1]? = some t ∧ result[4]? = some u ∧
      row = "2 |   g( 1 ) ;".toList ∧
      (renderFindings source "Syntax error" [finding]).toList =
        "Syntax error: stop\n --> group:[2:3-2:8]\n".toList ++
          ["  |".toList, row, carets, []].flatMap (· ++ ['\n']) ++
          "Build failed with 1 error\n".toList ∧
      ∃ parts rest, Cut [] source.characters parts rest result ∧
        above carets row = Part.extent ((parts.drop 1).take 4) := by
  intro source t u finding
  have htokens : source.tokens = .ok _ := rfl
  obtain ⟨rows, hreport, hshows⟩ :=
    renderFindings_ofText htokens "Syntax error" (List.cons_ne_nil finding [])
  obtain ⟨carets, hrows, habove⟩ :=
    (hshows finding List.mem_cons_self 1 4 t u (by decide) rfl rfl (by decide) rfl).quoted
  refine ⟨_, _, carets, htokens, rfl, rfl, ?_, ?_, habove (by decide) rfl⟩
  · decide +kernel
  have hheading : finding.heading "group" "Syntax error" =
      "Syntax error: stop\n --> group:[2:3-2:8]\n" := by decide +kernel
  have hsummary : failureSummary ([finding].countP Finding.isError) =
      "Build failed with 1 error\n" := by decide +kernel
  have hmargin : Text.repeated (toString u.span.stop.line).length ' ' ++ " |" = "  |" := by
    decide +kernel
  rw [hreport, hsummary, List.flatMap_singleton, hheading, hrows, hmargin]
  rfl

end FrontEnd
