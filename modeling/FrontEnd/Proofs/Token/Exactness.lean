import FrontEnd.Proofs.Token.Spelling

/-!
# Exactness of scanning

The characters that scanning reads of a text are its lines, each with a line feed.  Where no
error is answered they are cut, without a rest, into gaps and lexemes; the tokens are what the
lexemes write, in order, each located where its lexeme stands.

## Main definitions

* `Position.place before`: where the character after the characters `before` stands.
* `Part`: a lexeme with the gap before it and the token that it writes.
* `Cut before chars parts rest tokens`: the characters `chars`, read after `before`, are cut in
  parts that write and locate `tokens`.

## Main statements

* `Position.foldlM_move_over`: positions in words and without bound are the same within the words.
* `Scanner.reads`: every run of the scanner without an error cuts what it reads.
* `tokens_ofText_cut`: the tokens of a text cut the characters of the text.
-/

namespace FrontEnd

/-! ## Places -/

namespace Position

/-- The column after a character: one more, or after a tab the next tab stop. -/
def columnAfter (column : Nat) (c : Char) : Nat :=
  if c = '\t' then column + (tabStop - (column - 1) % tabStop) else column + 1

/-- The characters after the last line feed. -/
def lastLine (chars : List Char) : List Char := (chars.reverse.takeWhile (· ≠ '\n')).reverse

/-- Where the character after the given ones stands: the line counts the line feeds, the
column runs over the last line. -/
def place (before : List Char) : Position :=
  ⟨1 + before.count '\n', (lastLine before).foldl columnAfter 1⟩

instance : LE Position where
  le p q := p.line < q.line ∨ p.line = q.line ∧ p.column ≤ q.column

instance : LT Position where
  lt p q := p.line < q.line ∨ p.line = q.line ∧ p.column < q.column

variable {p q : Position}

theorem le_def : p ≤ q ↔ p.line < q.line ∨ p.line = q.line ∧ p.column ≤ q.column := Iff.rfl

theorem lt_def : p < q ↔ p.line < q.line ∨ p.line = q.line ∧ p.column < q.column := Iff.rfl

theorem le_refl (p : Position) : p ≤ p := .inr ⟨rfl, Nat.le_refl _⟩

theorem le_trans {r : Position} (h : p ≤ q) (h' : q ≤ r) : p ≤ r := by
  rw [le_def] at *
  omega

theorem lt_advance (p : Position) : p < p.advance := .inr ⟨rfl, Nat.lt_succ_self _⟩

theorem lt_of_le_of_lt {r : Position} (h : p ≤ q) (h' : q < r) : p < r := by
  rw [lt_def] at *
  rw [le_def] at h
  omega

theorem le_of_lt (h : p < q) : p ≤ q := by
  rw [lt_def] at h
  rw [le_def]
  omega

/-- A character takes at least one column. -/
theorem advance_le_after (c : Char) (p : Position) (h : 1 ≤ p.column) :
    p.advance ≤ p.after c := by
  rw [le_def]
  by_cases hfeed : c = '\n'
  · simp [after, hfeed, newline, advance]
  · by_cases htab : c = '\t'
    · subst htab
      right
      refine ⟨rfl, ?_⟩
      show p.column + 1 ≤ 1 + ((p.column - 1) / 4 + 1) * 4
      omega
    · simp [after, hfeed, htab]

@[simp] theorem place_nil : place [] = origin := rfl

theorem lastLine_append_feed (before : List Char) : lastLine (before ++ ['\n']) = [] := by
  simp [lastLine]

theorem lastLine_append {more : List Char} (h : '\n' ∉ more) (before : List Char) :
    lastLine (before ++ more) = lastLine before ++ more := by
  have hkept : ∀ c ∈ more.reverse, (decide (c ≠ '\n')) = true := by
    intro c hc
    simpa using fun heq : c = '\n' => h (heq ▸ List.mem_reverse.mp hc)
  rw [lastLine, List.reverse_append, List.takeWhile_append_of_pos hkept]
  simp [lastLine]

theorem one_le_columnAfter (column : Nat) (c : Char) (h : 1 ≤ column) :
    1 ≤ columnAfter column c := by
  unfold columnAfter
  split <;> omega

theorem one_le_column_place (before : List Char) : 1 ≤ (place before).column := by
  have hfold : ∀ (chars : List Char) (column : Nat), 1 ≤ column →
      1 ≤ chars.foldl columnAfter column := by
    intro chars
    induction chars with
    | nil => exact fun _ h => h
    | cons c rest ih => exact fun column h => ih _ (one_le_columnAfter column c h)
  exact hfold _ 1 (Nat.le_refl 1)

/-- Places move with every character as the positions of a source do. -/
theorem place_append_singleton (before : List Char) (c : Char) :
    place (before ++ [c]) = (place before).after c := by
  have hcolumn := one_le_column_place before
  by_cases hfeed : c = '\n'
  · subst hfeed
    simp [place, after, newline, lastLine_append_feed, Nat.add_assoc]
  · have hcount : (before ++ [c]).count '\n' = before.count '\n' := by
      simp [hfeed]
    have hlast : lastLine (before ++ [c]) = lastLine before ++ [c] :=
      lastLine_append (by simpa using Ne.symm hfeed) before
    by_cases htab : c = '\t'
    · subst htab
      simp only [place, hlast, hcount] at hcolumn ⊢
      simp only [after, tab, List.foldl_append, List.foldl_cons, List.foldl_nil, columnAfter,
        Char.reduceEq, if_false, if_true, mk.injEq, true_and, tabStop]
      omega
    · simp [place, after, advance, hfeed, htab, hlast, hcount, columnAfter]

theorem place_le_place_append (before more : List Char) :
    place before ≤ place (before ++ more) := by
  induction more generalizing before with
  | nil => simpa using le_refl (place before)
  | cons c rest ih =>
    have hstep : place before ≤ place (before ++ [c]) := by
      rw [place_append_singleton]
      exact le_trans (le_of_lt (lt_advance _))
        (advance_le_after c _ (one_le_column_place before))
    have hrest := ih (before ++ [c])
    rw [List.append_assoc, List.singleton_append] at hrest
    exact le_trans hstep hrest

/-! ### Places in words -/

/-- The step over a character. -/
def Move.over (c : Char) : Move :=
  if c = '\n' then .newline else if c = '\t' then .tab else .advance

/-- A step in words leads where the step without bound does, if that is within their range. -/
theorem move_over {c : Char} (h : 1 ≤ p.column) (hline : (p.after c).line < wordSize)
    (hcolumn : (p.after c).column < wordSize) : p.move (.over c) = .ok (p.after c) := by
  by_cases hfeed : c = '\n'
  · subst hfeed
    exact if_pos hline
  · by_cases htab : c = '\t'
    · subst htab
      have hstop : ((p.column - 1) / tabStop + 1) * tabStop < wordSize :=
        Nat.lt_of_le_of_lt (Nat.le_add_left _ 1) hcolumn
      exact (if_neg (Nat.ne_of_gt h)).trans (if_pos hstop)
    · simp only [Move.over, after, if_neg hfeed, if_neg htab] at hcolumn ⊢
      exact if_pos hcolumn

/-- Steps in words lead from place to place over characters that all stand within their range. -/
theorem foldlM_move_over (before : List Char) {chars : List Char}
    (h : ∀ first rest, first ++ rest = chars →
      (place (before ++ first)).line < wordSize ∧ (place (before ++ first)).column < wordSize) :
    chars.foldlM (fun p c => p.move (.over c)) (place before) = .ok (place (before ++ chars)) := by
  induction chars generalizing before with
  | nil => exact congrArg (Except.ok ∘ place) (List.append_nil before).symm
  | cons c rest ih =>
    obtain ⟨hline, hcolumn⟩ := h [c] rest rfl
    rw [place_append_singleton] at hline hcolumn
    have hrest := ih (before ++ [c]) fun first more hmore => by
      simpa using h (c :: first) more (congrArg (c :: ·) hmore)
    rw [List.append_assoc, List.singleton_append] at hrest
    rw [List.foldlM_cons, move_over (one_le_column_place before) hline hcolumn,
      ← place_append_singleton]
    exact hrest

end Position

/-! ## The characters of a source -/

/-- The character of an item. -/
def Item.char? : Item → Option Char
  | .char c _ => some c
  | .failure => none

namespace Source

/-- The characters that scanning reads of a source. -/
def characters (s : Source) : List Char := s.items.filterMap Item.char?

theorem filterMap_charsFrom (p : Position) (chars : List Char) :
    (charsFrom p chars).filterMap Item.char? = chars := by
  induction chars generalizing p with
  | nil => rfl
  | cons c rest ih => simp [charsFrom, Item.char?, ih]

theorem charsFrom_append (p : Position) (first second : List Char) :
    charsFrom p (first ++ second) =
      charsFrom p first ++ charsFrom (first.foldl (fun q c => q.after c) p) second := by
  induction first generalizing p with
  | nil => rfl
  | cons c rest ih => simp [charsFrom, ih]

theorem line_foldl_after {chars : List Char} (h : '\n' ∉ chars) (p : Position) :
    (chars.foldl (fun q c => q.after c) p).line = p.line := by
  induction chars generalizing p with
  | nil => rfl
  | cons c rest ih =>
    rw [List.mem_cons, not_or] at h
    rw [List.foldl_cons, ih h.2]
    by_cases htab : c = '\t'
    · simp [Position.after, htab, Position.tab]
    · simp [Position.after, Ne.symm h.1, htab, Position.advance]

/-- The positions of a source run on over its line ends. -/
theorem itemsFrom_some (lines : List String) (h : ∀ line ∈ lines, '\n' ∉ line.toList) (n : Nat) :
    itemsFrom n (lines.map some) =
      charsFrom ⟨n, 1⟩ (lines.flatMap fun line => line.toList ++ ['\n']) := by
  induction lines generalizing n with
  | nil => rfl
  | cons line rest ih =>
    have hkept := line_foldl_after (h line List.mem_cons_self) ⟨n, 1⟩
    have hline : (line.toList ++ ['\n']).foldl (fun q c => Position.after c q) ⟨n, 1⟩
        = ⟨n + 1, 1⟩ := by
      rw [List.foldl_append, List.foldl_cons, List.foldl_nil, Position.after, if_pos rfl,
        Position.newline, hkept]
    rw [List.map_cons, itemsFrom, List.flatMap_cons, charsFrom_append _ (line.toList ++ ['\n']),
      hline, ih (fun l hl => h l (List.mem_cons_of_mem _ hl))]

end Source

namespace Text

variable {α : Type} [DecidableEq α]

theorem mem_of_mem_dropHead {x y : α} {line : List α} (h : y ∈ dropHead x line) : y ∈ line := by
  cases line with
  | nil => exact h
  | cons z rest =>
    by_cases hz : z = x
    · rw [dropHead, if_pos hz] at h
      exact List.mem_cons_of_mem _ h
    · rwa [dropHead, if_neg hz] at h

/-- The lines hold what was read, but no line feed. -/
theorem mem_of_mem_cutLines {feed ret x : α} {chars line l : List α}
    (hl : l ∈ cutLines feed ret line chars) (hx : x ∈ l) : x ∈ line ∨ x ∈ chars ∧ x ≠ feed := by
  induction chars generalizing line with
  | nil =>
    unfold cutLines at hl
    split at hl
    · cases hl
    · rw [List.mem_singleton] at hl
      left
      simpa [hl] using hx
  | cons c rest ih =>
    unfold cutLines at hl
    split at hl
    · rcases List.mem_cons.mp hl with rfl | hl
      · exact .inl (mem_of_mem_dropHead (List.mem_reverse.mp hx))
      · obtain ⟨h, hne⟩ := (ih hl).resolve_left List.not_mem_nil
        exact .inr ⟨List.mem_cons_of_mem _ h, hne⟩
    · next hc =>
      rcases ih hl with h | ⟨h, hne⟩
      · rcases List.mem_cons.mp h with rfl | h
        · exact .inr ⟨List.mem_cons_self, hc⟩
        · exact .inl h
      · exact .inr ⟨List.mem_cons_of_mem _ h, hne⟩

/-- The characters of a line are characters of the text, and no line feeds. -/
theorem mem_of_mem_lines {text line : String} (h : line ∈ lines text) {c : Char}
    (hc : c ∈ line.toList) : c ∈ text.toList ∧ c ≠ '\n' := by
  obtain ⟨chars, hchars, rfl⟩ := List.mem_map.mp h
  rw [String.toList_ofList] at hc
  exact (mem_of_mem_cutLines hchars hc).resolve_left List.not_mem_nil

theorem not_mem_lines {text line : String} (h : line ∈ lines text) : '\n' ∉ line.toList :=
  fun hc => (mem_of_mem_lines h hc).2 rfl

end Text

namespace Source

/-- The items of a text are the characters of its lines and line ends, from the origin on. -/
theorem items_ofText (name text : String) (reading : Nat) :
    (ofText name text reading).items =
      charsFrom .origin ((Text.lines text).flatMap fun line => line.toList ++ ['\n']) :=
  itemsFrom_some _ (fun _ h => Text.not_mem_lines h) 1

theorem characters_ofText (name text : String) (reading : Nat) :
    (ofText name text reading).characters =
      (Text.lines text).flatMap fun line => line.toList ++ ['\n'] := by
  rw [characters, items_ofText, filterMap_charsFrom]

end Source

/-! ## Cutting characters in parts -/

/-- A lexeme with the gap before it and the token that it writes. -/
structure Part where
  gap : List Char
  lexeme : List Char
  token : Token

namespace Part

/-- The characters of a part. -/
def chars (p : Part) : List Char := p.gap ++ p.lexeme

/-- From the place of the first character of the lexeme to the column after its last one,
where the part comes after the characters `before`. -/
def span (before : List Char) (p : Part) : Span :=
  ⟨.place (before ++ p.gap), (Position.place (before ++ p.gap ++ p.lexeme.dropLast)).advance⟩

/-- A part is well formed when its gap is one and its lexeme writes its token. -/
def Valid (p : Part) : Prop := Gap p.gap ∧ Spells p.lexeme p.token

/-- The tokens of parts that come after the characters `before`. -/
def locate : List Char → List Part → List (Located Token)
  | _, [] => []
  | before, p :: parts => ⟨p.token, p.span before⟩ :: locate (before ++ p.chars) parts

/-- Every lexeme is over before the character that follows it. -/
def Maximal (rest : List Char) : List Part → Prop
  | [] => True
  | p :: parts =>
    p.token.endsBefore (parts.flatMap Part.chars ++ rest).head? = true ∧ Maximal rest parts

end Part

/-- The characters `chars`, which come after `before`, are the parts and the gap `rest`, and
the tokens are those of the parts and the end of the input. -/
structure Cut (before chars : List Char) (parts : List Part) (rest : List Char)
    (tokens : List (Located Token)) : Prop where
  chars_eq : chars = parts.flatMap Part.chars ++ rest
  valid : ∀ p ∈ parts, p.Valid
  rest_gap : Gap rest
  maximal : Part.Maximal rest parts
  tokens_eq : tokens =
    Part.locate before parts ++ [⟨.eof, (Position.place (before ++ chars)).cell⟩]

/-- The characters `chars`, which come after `before`, can be cut in parts with these tokens. -/
def Cuts (before chars : List Char) (tokens : List (Located Token)) : Prop :=
  ∃ parts rest, Cut before chars parts rest tokens

namespace Cuts

variable {before chars : List Char} {tokens : List (Located Token)}

theorem nil (before : List Char) : Cuts before [] [⟨.eof, (Position.place before).cell⟩] := by
  refine ⟨[], [], rfl, ?_, .nil, trivial, ?_⟩
  · intro p hp
    cases hp
  · simp [Part.locate]

/-- A gap in front goes to the first part, or to the gap at the end. -/
theorem gap {skipped : List Char} (hgap : Gap skipped) (h : Cuts (before ++ skipped) chars tokens) :
    Cuts before (skipped ++ chars) tokens := by
  obtain ⟨parts, rest, hcut⟩ := h
  have heq := hcut.chars_eq
  have htokens := hcut.tokens_eq
  cases parts with
  | nil =>
    refine ⟨[], skipped ++ rest, ?_, hcut.valid, hgap.append hcut.rest_gap, trivial, ?_⟩
    · simpa using heq
    · simpa [Part.locate] using htokens
  | cons p parts =>
    have hp := hcut.valid p List.mem_cons_self
    refine ⟨{ p with gap := skipped ++ p.gap } :: parts, rest, ?_, ?_, hcut.rest_gap,
      hcut.maximal, ?_⟩
    · simpa [Part.chars] using heq
    · intro q hq
      rcases List.mem_cons.mp hq with rfl | hq
      · exact ⟨hgap.append hp.1, hp.2⟩
      · exact hcut.valid q (List.mem_cons_of_mem _ hq)
    · simpa [Part.locate, Part.chars, Part.span] using htokens

/-- A lexeme in front is a part of its own. -/
theorem lexeme {lexeme : List Char} {token : Token} (hspells : Spells lexeme token)
    (hends : token.endsBefore chars.head? = true) (h : Cuts (before ++ lexeme) chars tokens) :
    Cuts before (lexeme ++ chars)
      (⟨token, ⟨.place before, (Position.place (before ++ lexeme.dropLast)).advance⟩⟩ :: tokens) := by
  obtain ⟨parts, rest, hcut⟩ := h
  refine ⟨⟨[], lexeme, token⟩ :: parts, rest, ?_, ?_, hcut.rest_gap, ⟨?_, hcut.maximal⟩, ?_⟩
  · simp [Part.chars, hcut.chars_eq]
  · intro q hq
    rcases List.mem_cons.mp hq with rfl | hq
    · exact ⟨.nil, hspells⟩
    · exact hcut.valid q hq
  · rwa [← hcut.chars_eq]
  · simp [Part.locate, Part.chars, Part.span, hcut.tokens_eq]

end Cuts

/-! ## Runs of the scanner -/

@[simp] theorem Answer.errors_append (first second : List Answer) :
    Answer.errors (first ++ second) = Answer.errors first ++ Answer.errors second := by
  simp [Answer.errors]

@[simp] theorem Answer.errors_failure (error : LexicalError) (span : Span) (rest : List Answer) :
    Answer.errors (.failure error span :: rest) = ⟨error, span⟩ :: Answer.errors rest := rfl

@[simp] theorem Answer.errors_token (token : Token) (span : Span) (rest : List Answer) :
    Answer.errors (.token token span :: rest) = Answer.errors rest := rfl

@[simp] theorem Answer.tokens_token (token : Token) (span : Span) (rest : List Answer) :
    Answer.tokens (.token token span :: rest) = ⟨token, span⟩ :: Answer.tokens rest := rfl

/-- The characters, if any, end with a line feed. -/
def EndsLine (chars : List Char) : Prop := ∀ c, chars.getLast? = some c → c = '\n'

theorem EndsLine.of_append (first : List Char) {second : List Char}
    (h : EndsLine (first ++ second)) : EndsLine second := by
  intro c hc
  apply h
  simp [hc]

namespace Scanner

/-- The scanner between two lexemes after the characters `before`. -/
def atGap (before : List Char) : Scanner := ⟨.between, .place before⟩

/-- The scanner after the characters `before` and the characters `chars` of a lexeme. -/
def inLexeme (before : List Char) (lexeme : Lexeme) (chars : List Char) : Scanner :=
  ⟨.within lexeme (.place before) (.place (before ++ chars.dropLast)), .place (before ++ chars)⟩

/-- The answers of a scanner to the characters `chars`. -/
def answers (m : Scanner) (chars : List Char) : List Answer :=
  m.run (Source.charsFrom m.next chars)

/-- The scanner answers `chars` without an error, and its tokens cut `shown`. -/
def Reads (m : Scanner) (before shown chars : List Char) : Prop :=
  Answer.errors (m.answers chars) = [] → Cuts before shown (Answer.tokens (m.answers chars))

/-- The answers to the characters `c :: chars`, once the scanner has met `c` between two
lexemes. -/
def entered (m : Scanner) (c : Char) (chars : List Char) : List Answer :=
  (m.enter c (m.next.after c)).2 ++
    (m.enter c (m.next.after c)).1.run (Source.charsFrom (m.next.after c) chars)

variable {before part chars : List Char} {c : Char} {lexeme longer : Lexeme} {token : Token}
  {error : LexicalError} {m : Scanner}

theorem after_place_append (before part : List Char) (c : Char) :
    (Position.place (before ++ part)).after c = .place (before ++ (part ++ [c])) := by
  rw [← List.append_assoc, Position.place_append_singleton]

/-! What the answers are after one more character, by what the character does. -/

theorem entered_skip (hm : m.next = .place before) (h : Lexeme.start c = .ok none) :
    m.entered c chars = (atGap (before ++ [c])).answers chars := by
  simp [entered, enter, h, hm, atGap, answers, Position.place_append_singleton]

theorem entered_start (hm : m.next = .place before) (h : Lexeme.start c = .ok (some lexeme)) :
    m.entered c chars = (inLexeme before lexeme [c]).answers chars := by
  simp [entered, enter, h, hm, inLexeme, answers, Position.place_append_singleton]

theorem errors_entered_fail (h : Lexeme.start c = .error error) :
    Answer.errors (m.entered c chars) ≠ [] := by
  simp [entered, enter, h]

theorem answers_extend (h : lexeme.step c = .extend longer) :
    (inLexeme before lexeme part).answers (c :: chars) =
      (inLexeme before longer (part ++ [c])).answers chars := by
  simp [answers, Source.charsFrom, run, feed, feedChar, inLexeme, h, after_place_append]

theorem answers_close (h : lexeme.step c = .close) :
    (inLexeme before lexeme part).answers (c :: chars) =
      (atGap (before ++ (part ++ [c]))).answers chars := by
  simp [answers, Source.charsFrom, run, feed, feedChar, inLexeme, atGap, h, after_place_append]

theorem answers_emit (h : lexeme.step c = .emit token) :
    (inLexeme before lexeme part).answers (c :: chars) =
      .token token ⟨.place before, (Position.place (before ++ part.dropLast)).advance⟩ ::
        (inLexeme before lexeme part).entered c chars := by
  simp [answers, Source.charsFrom, run, feed, feedChar, inLexeme, entered, h]

theorem errors_answers_fail (h : lexeme.step c = .fail error) :
    Answer.errors ((inLexeme before lexeme part).answers (c :: chars)) ≠ [] := by
  simp [answers, Source.charsFrom, run, feed, feedChar, inLexeme, h]

/-- One character between two lexemes: it is skipped or starts a lexeme. -/
theorem cuts_entered (hm : m.next = .place before)
    (hskip : (atGap (before ++ [c])).Reads (before ++ [c]) chars chars)
    (hstart : ∀ lexeme, Progress lexeme [c] →
      (inLexeme before lexeme [c]).Reads before (c :: chars) chars)
    (herrors : Answer.errors (m.entered c chars) = []) :
    Cuts before (c :: chars) (Answer.tokens (m.entered c chars)) := by
  cases hc : Lexeme.start c with
  | error error => exact absurd herrors (errors_entered_fail hc)
  | ok started =>
    cases started with
    | none =>
      rw [entered_skip hm hc] at herrors ⊢
      have hblank : Gap [c] := .blank (Lexeme.isBlank_of_start hc) .nil
      exact .gap hblank (hskip herrors)
    | some lexeme =>
      rw [entered_start hm hc] at herrors ⊢
      exact hstart lexeme (Lexeme.start_progress hc) herrors

/-- The end of the characters inside a lexeme.  There is no open comment, since the characters
end with a line feed. -/
theorem reads_nil (h : Progress lexeme part) (hend : EndsLine part) :
    (inLexeme before lexeme part).Reads before part [] := by
  intro herrors
  have hfinish := h.finish
  simp only [answers, Source.charsFrom, run, finish, inLexeme] at herrors ⊢
  cases hlexeme : lexeme.finish with
  | none =>
    rw [hlexeme] at hfinish
    have hlast := List.getLast?_eq_some_getLast h.ne_nil
    exact absurd (hend _ hlast ▸ List.getLast_mem h.ne_nil) hfinish
  | some outcome =>
    cases outcome with
    | error error =>
      rw [hlexeme] at herrors
      simp at herrors
    | ok token =>
      rw [hlexeme] at hfinish
      have hcut : Cuts before (part ++ []) _ :=
        Cuts.lexeme hfinish.1 hfinish.2 (Cuts.nil (before ++ part))
      rwa [List.append_nil] at hcut

/-- One character inside a lexeme: it makes the lexeme longer, ends a comment, or comes after
the lexeme. -/
theorem reads_cons (h : Progress lexeme part)
    (hskip : ∀ before, (atGap before).Reads before chars chars)
    (hlexeme : ∀ before lexeme part, Progress lexeme part → EndsLine (part ++ chars) →
      (inLexeme before lexeme part).Reads before (part ++ chars) chars)
    (hend : EndsLine (part ++ c :: chars)) :
    (inLexeme before lexeme part).Reads before (part ++ c :: chars) (c :: chars) := by
  intro herrors
  have hstep := h.step c
  have hlonger : part ++ c :: chars = (part ++ [c]) ++ chars := by simp
  cases hc : lexeme.step c with
  | extend longer =>
    rw [hc] at hstep
    rw [answers_extend hc] at herrors ⊢
    rw [hlonger] at hend ⊢
    exact hlexeme before longer (part ++ [c]) hstep hend herrors
  | close =>
    rw [hc] at hstep
    rw [answers_close hc] at herrors ⊢
    rw [hlonger]
    exact .gap hstep (hskip _ herrors)
  | emit token =>
    rw [hc] at hstep
    rw [answers_emit hc] at herrors ⊢
    have hstart : ∀ lexeme, Progress lexeme [c] →
        (inLexeme (before ++ part) lexeme [c]).Reads (before ++ part) (c :: chars) chars :=
      fun lexeme hlex => hlexeme _ lexeme [c] hlex (hend.of_append part)
    exact .lexeme hstep.1 hstep.2 (cuts_entered rfl (hskip _) hstart herrors)
  | fail error => exact absurd herrors (errors_answers_fail hc)

/-- Whatever the scanner reads without an error is cut in parts, between two lexemes and
inside one. -/
theorem reads (chars : List Char) :
    (EndsLine chars → ∀ before, (atGap before).Reads before chars chars) ∧
    ∀ before lexeme part, Progress lexeme part → EndsLine (part ++ chars) →
      (inLexeme before lexeme part).Reads before (part ++ chars) chars := by
  induction chars with
  | nil =>
    constructor
    · intro _ before _
      exact .nil before
    · intro before lexeme part h hend
      rw [List.append_nil] at hend ⊢
      exact reads_nil h hend
  | cons c chars ih =>
    obtain ⟨hskip, hlexeme⟩ := ih
    constructor
    · intro hend before herrors
      have hrest : EndsLine chars := hend.of_append [c]
      have hstart : ∀ lexeme, Progress lexeme [c] →
          (inLexeme before lexeme [c]).Reads before (c :: chars) chars :=
        fun lexeme hlex => hlexeme before lexeme [c] hlex hend
      exact cuts_entered rfl (hskip hrest _) hstart herrors
    · intro before lexeme part h hend
      have hrest : EndsLine chars := (hend.of_append part).of_append [c]
      exact reads_cons h (hskip hrest) hlexeme hend

end Scanner

/-! ## Tokens of a text -/

theorem tokens_eq_ok_iff {items : List Item} {result : List (Located Token)} :
    tokens items = .ok result ↔
      Answer.errors (scan items) = [] ∧ Answer.tokens (scan items) = result := by
  unfold tokens
  cases h : Answer.errors (scan items) with
  | nil => simp [h]
  | cons error errors => simp [h]

theorem endsLine_lines (lines : List String) :
    EndsLine (lines.flatMap fun line => line.toList ++ ['\n']) := by
  intro c hc
  rcases List.eq_nil_or_concat lines with rfl | ⟨init, last, rfl⟩
  · cases hc
  · simpa using hc.symm

/-- Spans are not empty, and each comes after the ones before it. -/
def Ordered (tokens : List (Located Token)) : Prop :=
  (∀ t ∈ tokens, t.span.start < t.span.stop) ∧
    tokens.Pairwise fun t u => t.span.stop ≤ u.span.start

theorem Part.start_lt_stop (before : List Char) (p : Part) :
    (p.span before).start < (p.span before).stop :=
  Position.lt_of_le_of_lt (Position.place_le_place_append _ _) (Position.lt_advance _)

/-- The span of a part ends where the characters of the part end, or before. -/
theorem Part.stop_le (before : List Char) {p : Part} (h : p.lexeme ≠ []) :
    (p.span before).stop ≤ .place (before ++ p.chars) := by
  have hlexeme := List.dropLast_concat_getLast h
  have hplace : Position.place (before ++ p.chars) =
      (Position.place (before ++ p.gap ++ p.lexeme.dropLast)).after (p.lexeme.getLast h) := by
    rw [← Position.place_append_singleton, List.append_assoc, List.append_assoc, hlexeme]
    rfl
  rw [hplace]
  exact Position.advance_le_after _ _ (Position.one_le_column_place _)

/-- Tokens of parts are ordered, and none starts before the parts do. -/
theorem ordered_locate {parts : List Part} (h : ∀ p ∈ parts, p.Valid) (before rest : List Char) :
    let found := Part.locate before parts ++
      [⟨.eof, (Position.place (before ++ (parts.flatMap Part.chars ++ rest))).cell⟩]
    (∀ t ∈ found, Position.place before ≤ t.span.start) ∧ Ordered found := by
  induction parts generalizing before with
  | nil =>
    refine ⟨?_, ?_, List.pairwise_singleton _ _⟩
    · intro t ht
      rw [List.mem_singleton.mp ht]
      exact Position.place_le_place_append before _
    · intro t ht
      rw [List.mem_singleton.mp ht]
      exact Position.lt_advance _
  | cons p parts ih =>
    have hp := (h p List.mem_cons_self).2.ne_nil
    obtain ⟨hstart, hspan, hpairs⟩ :=
      ih (fun q hq => h q (List.mem_cons_of_mem _ hq)) (before ++ p.chars)
    have hplace : before ++ p.chars ++ (parts.flatMap Part.chars ++ rest) =
        before ++ ((p :: parts).flatMap Part.chars ++ rest) := by simp
    rw [hplace] at hstart hspan hpairs
    refine ⟨?_, ?_, List.pairwise_cons.mpr ⟨?_, hpairs⟩⟩
    · intro t ht
      rcases List.mem_cons.mp ht with rfl | ht
      · exact Position.place_le_place_append before _
      · exact Position.le_trans (Position.place_le_place_append before _) (hstart t ht)
    · intro t ht
      rcases List.mem_cons.mp ht with rfl | ht
      · exact p.start_lt_stop before
      · exact hspan t ht
    · intro t ht
      exact Position.le_trans (p.stop_le before hp) (hstart t ht)

/-- Each token is that of a part. -/
theorem Part.exists_of_mem_locate {parts : List Part} {before : List Char} {t : Located Token}
    (h : t ∈ Part.locate before parts) : ∃ p ∈ parts, p.token = t.value := by
  induction parts generalizing before with
  | nil => cases h
  | cons p parts ih =>
    rcases List.mem_cons.mp h with rfl | h
    · exact ⟨p, List.mem_cons_self, rfl⟩
    · obtain ⟨q, hq, htoken⟩ := ih h
      exact ⟨q, List.mem_cons_of_mem _ hq, htoken⟩

theorem Cut.ordered {chars rest : List Char} {parts : List Part} {tokens : List (Located Token)}
    (h : Cut [] chars parts rest tokens) : Ordered tokens := by
  rw [h.tokens_eq, h.chars_eq]
  exact (ordered_locate h.valid [] rest).2

theorem cuts_ofText {name text : String} {reading : Nat} {result : List (Located Token)}
    (h : (Source.ofText name text reading).tokens = .ok result) :
    Cuts [] (Source.ofText name text reading).characters result := by
  rw [Source.tokens, Source.items_ofText, tokens_eq_ok_iff] at h
  rw [Source.characters_ofText, ← h.2]
  exact (Scanner.reads _).1 (endsLine_lines _) [] h.1

/-- Where a text has no lexical error, its characters are cut in gaps and lexemes, its tokens are
those of the lexemes with their places, and the end of the input comes once, last. -/
theorem tokens_ofText_cut {name text : String} {reading : Nat} {result : List (Located Token)}
    (h : (Source.ofText name text reading).tokens = .ok result) :
    (∃ parts rest,
      Cut [] (Source.ofText name text reading).characters parts rest result) ∧
    (∀ t ∈ result.dropLast, t.value ≠ .eof) ∧ Ordered result := by
  obtain ⟨parts, rest, hcut⟩ := cuts_ofText h
  refine ⟨⟨parts, rest, hcut⟩, fun t ht heof => ?_, hcut.ordered⟩
  rw [hcut.tokens_eq, List.dropLast_concat] at ht
  obtain ⟨p, hp, htoken⟩ := Part.exists_of_mem_locate ht
  have hspells := (hcut.valid p hp).2
  rw [htoken, heof] at hspells
  exact hspells.ne_eof

/-- A comment, a tab, an escape, and signs that could have gone on. -/
theorem tokens_ofText_cut_mixed :
    let source := Source.ofText "mixed" "FN x9-1 // -> \n\t->'\\n'" 0
    ∃ result, source.tokens = .ok result ∧ result.map (·.value) =
        [.keyword .fn, .ident ⟨"x9"⟩, .symbol .minus, .integer 1, .symbol .arrow,
          .character '\n', .eof] ∧
      (∃ parts rest, Cut [] source.characters parts rest result) ∧
      (∀ t ∈ result.dropLast, t.value ≠ .eof) ∧ Ordered result :=
  ⟨_, rfl, by decide +kernel, tokens_ofText_cut rfl⟩

end FrontEnd
