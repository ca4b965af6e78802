import FrontEnd.Proofs.Token.Exactness
import Mathlib.Data.List.Forall2

/-!
# Scanning is line by line

A line feed ends every lexeme and every discarded rest of a line, so that after it the scanner
stands where it stood at first, but further down.  What it answers to a text is therefore what
it answers to the lines one by one, moved down.  After an error the rest of the line is
discarded: a line has at most one, behind its tokens.

## Main definitions

* `Position.down`, `Answer.down`: a position, and an answer, some lines further down.
* `Scanner.read`: the scanner after some characters, and its answers to them.
* `Answer.OfLine`: tokens, none of which is the end of the input, and at most one error.

## Main statements

* `Scanner.read_down`: a scanner further down answers the same, further down.
* `Scanner.ofLine_read`: the answers to one line.
* `Source.scan_ofText_eq`: the answers to a text, by its lines.
* `Source.isWrong_ofText_iff`: a text is wrong if one of its lines is.
-/

namespace FrontEnd

/-! ## Further down -/

/-- The position `k` lines further down. -/
def Position.down (k : Nat) (p : Position) : Position := ⟨p.line + k, p.column⟩

/-- The span `k` lines further down. -/
def Span.down (k : Nat) (s : Span) : Span := ⟨s.start.down k, s.stop.down k⟩

/-- A located value `k` lines further down. -/
def Located.down {α : Type} (k : Nat) (x : Located α) : Located α := ⟨x.value, x.span.down k⟩

/-- An answer `k` lines further down. -/
def Answer.down (k : Nat) : Answer → Answer
  | .ok token => .ok (token.down k)
  | .error error => .error (error.down k)

theorem Position.after_down (k : Nat) (c : Char) (p : Position) :
    (p.down k).after c = (p.after c).down k := by
  by_cases hfeed : c = '\n'
  · simp [after, hfeed, newline, down, Nat.add_right_comm]
  · by_cases htab : c = '\t'
    · simp [after, htab, tab, down]
    · simp [after, hfeed, htab, advance, down]

@[simp] theorem Position.cell_down (k : Nat) (p : Position) : (p.down k).cell = p.cell.down k := rfl

@[simp] theorem Position.advance_down (k : Nat) (p : Position) :
    (p.down k).advance = p.advance.down k := rfl

@[simp] theorem Answer.down_failure (k : Nat) (error : LexicalError) (span : Span) :
    (Answer.failure error span).down k = .failure error (span.down k) := rfl

@[simp] theorem Answer.down_token (k : Nat) (token : Token) (span : Span) :
    (Answer.token token span).down k = .token token (span.down k) := rfl

theorem Answer.errors_down (k : Nat) (answers : List Answer) :
    Answer.errors (answers.map (Answer.down k)) = (Answer.errors answers).map (Located.down k) := by
  induction answers with
  | nil => rfl
  | cons answer rest ih =>
    cases answer with
    | error error => exact congrArg _ ih
    | ok token => exact ih

namespace Scanner

/-- A scanner `k` lines further down. -/
def down (k : Nat) (m : Scanner) : Scanner where
  phase :=
    match m.phase with
    | .between => .between
    | .within lexeme start last => .within lexeme (start.down k) (last.down k)
    | .skipping => .skipping
  next := m.next.down k

/-! ## Characters one after the other -/

/-- The scanner after some characters that stand one after the other, and its answers. -/
def read (m : Scanner) : List Char → Scanner × List Answer
  | [] => (m, [])
  | c :: rest =>
    let (m', first) := m.feedChar c (m.next.after c)
    let (m'', later) := m'.read rest
    (m'', first ++ later)

variable {m : Scanner} {c : Char} {chars : List Char} {after : Position}

theorem next_feedChar (m : Scanner) (c : Char) (after : Position) :
    (m.feedChar c after).1.next = after := by
  have henter : (m.enter c after).1.next = after := by
    unfold enter
    split <;> rfl
  unfold feedChar
  split
  · exact henter
  · rfl
  · split
    · rfl
    · rfl
    · rfl
    · exact henter

theorem next_read (m : Scanner) (chars : List Char) :
    (m.read chars).1.next = chars.foldl (fun p c => p.after c) m.next := by
  induction chars generalizing m with
  | nil => rfl
  | cons c rest ih =>
    have hnext := next_feedChar m c (m.next.after c)
    rw [List.foldl_cons, ← hnext]
    exact ih _

theorem read_append (m : Scanner) (first second : List Char) :
    m.read (first ++ second) = (((m.read first).1.read second).1,
      (m.read first).2 ++ ((m.read first).1.read second).2) := by
  induction first generalizing m with
  | nil => rfl
  | cons c rest ih => simp [read, ih, List.append_assoc]

/-- What a scanner answers to items that start with characters is what it answers reading them, and
then what the scanner that it has become answers. -/
theorem run_charsFrom (m : Scanner) (chars : List Char) (items : List Item) :
    m.run (Source.charsFrom m.next chars ++ items) = (m.read chars).2 ++ (m.read chars).1.run items := by
  induction chars generalizing m with
  | nil => rfl
  | cons c rest ih =>
    have hrest := ih (m.feedChar c (m.next.after c)).1
    rw [next_feedChar] at hrest
    simp only [Source.charsFrom, List.cons_append, run, feed, read, List.append_assoc, hrest]

theorem answers_append (m : Scanner) (first second : List Char) :
    m.answers (first ++ second) = (m.read first).2 ++ (m.read first).1.answers second := by
  rw [answers, Source.charsFrom_append, run_charsFrom, answers, next_read]

theorem feedChar_down (k : Nat) (m : Scanner) (c : Char) (after : Position) :
    (m.down k).feedChar c (after.down k) =
      ((m.feedChar c after).1.down k, (m.feedChar c after).2.map (Answer.down k)) := by
  have hdiscard : discard c (after.down k) = (discard c after).down k := by
    by_cases hc : c = '\n' <;> simp [discard, hc, down]
  have henter : (m.down k).enter c (after.down k) =
      ((m.enter c after).1.down k, (m.enter c after).2.map (Answer.down k)) := by
    unfold enter
    cases Lexeme.start c with
    | error error => simp [hdiscard, down]
    | ok started => cases started <;> simp [down]
  obtain ⟨phase, next⟩ := m
  cases phase with
  | between => exact henter
  | skipping => simp [feedChar, down, hdiscard]
  | within lexeme start last =>
    simp only [feedChar, down] at henter ⊢
    cases lexeme.step c with
    | extend longer => simp
    | close => simp
    | fail error => simp [hdiscard, down]
    | emit token => simp [henter, Span.down]

/-- A scanner further down answers the same, further down. -/
theorem read_down (k : Nat) (m : Scanner) (chars : List Char) :
    (m.down k).read chars = ((m.read chars).1.down k, (m.read chars).2.map (Answer.down k)) := by
  induction chars generalizing m with
  | nil => rfl
  | cons c rest ih =>
    have hnext : (m.down k).next.after c = (m.next.after c).down k := Position.after_down k c m.next
    simp only [read, hnext, feedChar_down, ih, List.map_append]

/-! ## The end of a line -/

theorem step_feed_ne_extend (lexeme longer : Lexeme) :
    lexeme.step '\n' ≠ .extend longer := by
  cases lexeme <;> simp [Lexeme.step, unescape?, isWordChar]

/-- A line feed ends whatever the scanner is in. -/
theorem feedChar_feed (m : Scanner) (after : Position) :
    (m.feedChar '\n' after).1 = ⟨.between, after⟩ := by
  obtain ⟨phase, next⟩ := m
  cases phase with
  | between => rfl
  | skipping => rfl
  | within lexeme start last =>
    simp only [feedChar]
    cases hstep : lexeme.step '\n' with
    | extend longer => exact absurd hstep (step_feed_ne_extend lexeme longer)
    | close => rfl
    | fail error => rfl
    | emit token => rfl

/-- After a line the scanner stands at the start of the next one, between two lexemes. -/
theorem fst_read_line (hline : '\n' ∉ chars) (m : Scanner) :
    (m.read (chars ++ ['\n'])).1 = ⟨.between, ⟨m.next.line + 1, 1⟩⟩ := by
  have hfeed : ∀ p : Position, p.after '\n' = ⟨p.line + 1, 1⟩ := fun _ => rfl
  have hkept := Source.line_foldl_after hline m.next
  rw [read_append]
  simp only [read, feedChar_feed, next_read, hfeed, hkept]

end Scanner

/-! ## One line -/

theorem ne_eof_of_spells {token : Token} (h : ∃ part, Spells part token) : token ≠ .eof := by
  rintro rfl
  obtain ⟨part, hspells⟩ := h
  exact hspells.ne_eof

/-- Only a line that could not be read is an error of the input. -/
theorem Lexeme.ne_input_of_start {c : Char} {error : LexicalError}
    (h : Lexeme.start c = .error error) : error ≠ .input := by
  rintro rfl
  unfold Lexeme.start at h
  split at h
  · cases h
  · split_ifs at h
    cases h

theorem Lexeme.ne_input_of_step {lexeme : Lexeme} {c : Char} {error : LexicalError}
    (h : lexeme.step c = .fail error) : error ≠ .input := by
  rintro rfl
  cases lexeme with
  | complete token => cases h
  | escape =>
    simp only [Lexeme.step] at h
    cases hc : unescape? c <;> simp [hc] at h
  | _ =>
    simp only [Lexeme.step] at h
    split_ifs at h
    all_goals cases h

/-- Tokens, none of them the end of the input, and behind them an error or none. -/
def Answer.OfLine (answers : List Answer) : Prop :=
  ∃ (tokens : List (Located Token)) (error? : Option (Located LexicalError)),
    answers = tokens.map .ok ++ error?.toList.map .error ∧ ∀ t ∈ tokens, t.value ≠ .eof

namespace Scanner

variable {m : Scanner} {c : Char} {chars : List Char} {after : Position}

/-- A scanner inside a lexeme has read something of that lexeme. -/
def Proper (m : Scanner) : Prop :=
  ∀ lexeme start last, m.phase = .within lexeme start last → ∃ part, Progress lexeme part

theorem Proper.of_between {p : Position} : Proper ⟨.between, p⟩ := by
  intro lexeme start last h
  cases h

theorem Proper.discard (c : Char) (after : Position) : Proper (discard c after) := by
  intro lexeme start last h
  by_cases hc : c = '\n' <;> simp [Scanner.discard, hc] at h

theorem Proper.within {lexeme : Lexeme} {part : List Char} {start last next : Position}
    (h : Progress lexeme part) : Proper ⟨.within lexeme start last, next⟩ := by
  intro lexeme' start' last' heq
  cases heq
  exact ⟨part, h⟩

/-- How many answers are owed for what was read: one inside a lexeme. -/
def owed (m : Scanner) : Nat :=
  match m.phase with
  | .within _ _ _ => 1
  | .between | .skipping => 0

theorem owed_discard (c : Char) (after : Position) : (discard c after).owed = 0 := by
  by_cases hc : c = '\n' <;> simp [discard, hc, owed]

/-- What the scanner may do with one character, where some answers are owed before it: it answers
tokens and goes on, or it answers tokens and an error and discards. -/
structure Fed (owed : Nat) (c : Char) (after : Position) (fed : Scanner × List Answer) : Prop where
  proper : fed.1.Proper
  length : fed.2.length + fed.1.owed ≤ 1 + owed
  answers : ∃ (tokens : List (Located Token)) (error? : Option (Located LexicalError)),
    fed.2 = tokens.map .ok ++ error?.toList.map .error ∧
      (∀ t ∈ tokens, ∃ part, Spells part t.value) ∧
      ∀ error ∈ error?, error.value ≠ .input ∧ fed.1 = Scanner.discard c after

namespace Fed

variable {k : Nat}

theorem silent {m' : Scanner} (h : m'.Proper) (howed : m'.owed ≤ 1 + k) :
    Fed k c after (m', []) :=
  ⟨h, by simpa using howed, [], none, rfl, by simp, by simp⟩

theorem failure {error : LexicalError} (herror : error ≠ .input) (span : Span) :
    Fed k c after (Scanner.discard c after, [.failure error span]) :=
  ⟨.discard c after, by simp [owed_discard], [], some ⟨error, span⟩, rfl, by simp,
    by simp [herror]⟩

theorem token {m' : Scanner} {later : List Answer} {t : Located Token}
    (h : Fed k c after (m', later)) (ht : ∃ part, Spells part t.value) :
    Fed (k + 1) c after (m', .ok t :: later) := by
  obtain ⟨hproper, hlength, tokens, error?, hlater, htokens, herror⟩ := h
  refine ⟨hproper, ?_, t :: tokens, error?, ?_, List.forall_mem_cons.mpr ⟨ht, htokens⟩, herror⟩
  · simp only [List.length_cons] at hlength ⊢
    omega
  · rw [List.map_cons, List.cons_append]
    exact congrArg _ hlater

end Fed

theorem fed_enter (m : Scanner) (c : Char) (after : Position) :
    Fed 0 c after (m.enter c after) := by
  unfold enter
  cases hstart : Lexeme.start c with
  | error error => exact .failure (Lexeme.ne_input_of_start hstart) _
  | ok started =>
    cases started with
    | none => exact .silent .of_between (Nat.zero_le _)
    | some lexeme => exact .silent (.within (Lexeme.start_progress hstart)) (Nat.le_refl _)

theorem fed_feedChar (h : m.Proper) (c : Char) (after : Position) :
    Fed m.owed c after (m.feedChar c after) := by
  obtain ⟨phase, next⟩ := m
  cases phase with
  | between => exact fed_enter _ c after
  | skipping => exact .silent (.discard c after) (by simp [owed_discard])
  | within lexeme start last =>
    obtain ⟨part, hpart⟩ := h lexeme start last rfl
    have hstep := hpart.step c
    simp only [feedChar]
    cases hc : lexeme.step c with
    | extend longer =>
      rw [hc] at hstep
      exact .silent (.within hstep) (Nat.le_succ _)
    | close => exact .silent .of_between (Nat.zero_le _)
    | fail error => exact .failure (Lexeme.ne_input_of_step hc) _
    | emit token =>
      rw [hc] at hstep
      exact (fed_enter _ c after).token ⟨part, hstep.1⟩

/-- The rest of a discarded line is not answered. -/
theorem snd_read_skipping (hline : '\n' ∉ chars) (p : Position) :
    ((⟨.skipping, p⟩ : Scanner).read (chars ++ ['\n'])).2 = [] := by
  induction chars generalizing p with
  | nil => rfl
  | cons c rest ih =>
    rw [List.mem_cons, not_or] at hline
    have hc : c ≠ '\n' := Ne.symm hline.1
    simp only [List.cons_append, read, feedChar, discard, hc, if_false, List.nil_append]
    exact ih hline.2 _

/-- The answers to a line are tokens and at most one error. -/
theorem ofLine_read (h : m.Proper) (hline : '\n' ∉ chars) :
    Answer.OfLine (m.read (chars ++ ['\n'])).2 := by
  induction chars generalizing m with
  | nil =>
    obtain ⟨-, -, tokens, error?, hanswers, htokens, -⟩ := fed_feedChar h '\n' (m.next.after '\n')
    refine ⟨tokens, error?, ?_, fun t ht => ne_eof_of_spells (htokens t ht)⟩
    simpa [read] using hanswers
  | cons c rest ih =>
    rw [List.mem_cons, not_or] at hline
    have hc : c ≠ '\n' := Ne.symm hline.1
    obtain ⟨hproper, -, tokens, error?, hanswers, hspelled, hdiscard⟩ :=
      fed_feedChar h c (m.next.after c)
    have htokens : ∀ t ∈ tokens, t.value ≠ .eof := fun t ht => ne_eof_of_spells (hspelled t ht)
    simp only [List.cons_append, read]
    cases error? with
    | none =>
      obtain ⟨tokens', error?', hanswers', htokens'⟩ := ih hproper hline.2
      refine ⟨tokens ++ tokens', error?', ?_, ?_⟩
      · simp [hanswers, hanswers']
      · intro t ht
        exact (List.mem_append.mp ht).elim (htokens t) (htokens' t)
    | some error =>
      -- the character is not a line feed, so what follows it on the line is discarded
      have hskip := (hdiscard error rfl).2
      rw [discard, if_neg hc] at hskip
      refine ⟨tokens, some error, ?_, htokens⟩
      rw [hskip, snd_read_skipping hline.2, List.append_nil, hanswers]

/-! ## Line after line -/

/-- The scanner at the start of a line. -/
def atLine (n : Nat) : Scanner := ⟨.between, ⟨n, 1⟩⟩

theorem atLine_succ (k : Nat) : atLine (k + 1) = initial.down k := by
  rw [Nat.add_comm]
  rfl

/-- The answers to a line that stands first. -/
def line (chars : List Char) : List Answer := (initial.read (chars ++ ['\n'])).2

theorem ofLine_line (hline : '\n' ∉ chars) : Answer.OfLine (line chars) :=
  ofLine_read .of_between hline

/-- The answers to lines that follow each other are those to each line, moved down. -/
theorem answers_lines (lines : List (List Char)) (h : ∀ chars ∈ lines, '\n' ∉ chars) (k : Nat) :
    (atLine (k + 1)).answers (lines.flatMap (· ++ ['\n'])) =
      (lines.zipIdx k).flatMap (fun e => (line e.1).map (Answer.down e.2)) ++
        [.token .eof (Position.cell ⟨lines.length + (k + 1), 1⟩)] := by
  induction lines generalizing k with
  | nil =>
    rw [List.length_nil, Nat.zero_add]
    rfl
  | cons chars rest ih =>
    have hline := h chars List.mem_cons_self
    have hrest := ih (fun l hl => h l (List.mem_cons_of_mem _ hl)) (k + 1)
    have hnext : ((atLine (k + 1)).read (chars ++ ['\n'])).1 = atLine (k + 1 + 1) :=
      fst_read_line hline (atLine (k + 1))
    have hfirst : ((atLine (k + 1)).read (chars ++ ['\n'])).2 =
        (line chars).map (Answer.down k) := by
      rw [atLine_succ, read_down]
      rfl
    have hcount : rest.length + (k + 1 + 1) = (chars :: rest).length + (k + 1) := by
      rw [List.length_cons]
      omega
    rw [List.flatMap_cons, answers_append, hnext, hfirst, hrest, hcount, List.zipIdx_cons,
      List.flatMap_cons, List.append_assoc]

end Scanner

/-! ## The lines of a text -/

namespace Text

/-- What holds no line feed is one line, or none if it is empty. -/
theorem cutLines_of_not_mem {α : Type} [DecidableEq α] {feed ret : α} {chars : List α}
    (h : feed ∉ chars) (line : List α) :
    cutLines feed ret line chars =
      if (line.reverse ++ chars).isEmpty then [] else [line.reverse ++ chars] := by
  induction chars generalizing line with
  | nil => simp [cutLines]
  | cons x rest ih =>
    rw [List.mem_cons, not_or] at h
    rw [cutLines, if_neg (Ne.symm h.1), ih h.2]
    simp

theorem lines_of_not_mem {line : String} (h : '\n' ∉ line.toList) :
    lines line = if line.toList.isEmpty then [] else [line] := by
  rw [lines, cutLines_of_not_mem h]
  by_cases hempty : line.toList.isEmpty = true
  · simp [hempty]
  · simp [hempty]

end Text

theorem tokens_eq_error_iff {items : List Item} {errors : List (Located LexicalError)} :
    tokens items = .error errors ↔ Answer.errors (scan items) = errors ∧ errors ≠ [] := by
  rw [tokens]
  cases Answer.errors (scan items) with
  | nil =>
    simp only [reduceCtorEq, false_iff, not_and, not_not]
    exact Eq.symm
  | cons error errors' =>
    simp only [Except.error.injEq, iff_self_and]
    rintro rfl
    exact List.cons_ne_nil _ _

namespace Source

variable {name text : String} {reading : Nat}

/-- The answers to a text, by its lines. -/
theorem scan_ofText_eq (name text : String) (reading : Nat) :
    scan (ofText name text reading).items =
      (Text.lines text).zipIdx.flatMap (fun e => (Scanner.line e.1.toList).map (Answer.down e.2)) ++
        [.token .eof (Position.cell ⟨(Text.lines text).length + 1, 1⟩)] := by
  have hlines : ∀ chars ∈ (Text.lines text).map String.toList, '\n' ∉ chars := by
    intro chars hchars
    obtain ⟨line, hline, rfl⟩ := List.mem_map.mp hchars
    exact Text.not_mem_lines hline
  have hanswers := Scanner.answers_lines _ hlines 0
  rw [List.flatMap_map, List.length_map, List.zipIdx_map, List.flatMap_map] at hanswers
  rw [items_ofText]
  exact hanswers

/-- The answers to a line that is a text of its own. -/
theorem scan_ofText_line {line : String} (h : '\n' ∉ line.toList) (name : String) (reading : Nat) :
    ∃ last, scan (ofText name line reading).items =
      Scanner.line line.toList ++ [.token .eof last] := by
  have hdown : ∀ answers : List Answer, answers.map (Answer.down 0) = answers := by
    intro answers
    exact List.map_id'' (fun answer => by cases answer <;> rfl) answers
  rw [scan_ofText_eq, Text.lines_of_not_mem h]
  by_cases hempty : line.toList.isEmpty = true
  · rw [List.isEmpty_iff] at hempty
    rw [hempty]
    exact ⟨_, rfl⟩
  · simp [hempty, hdown]

/-- The source has a lexical error. -/
def isWrong (s : Source) : Bool := !s.tokens.isOk

theorem isWrong_eq (s : Source) : s.isWrong = !(Answer.errors (scan s.items)).isEmpty := by
  rw [isWrong, Source.tokens, FrontEnd.tokens]
  cases Answer.errors (scan s.items) with
  | nil => rfl
  | cons error errors => rfl

theorem errors_ofText_line {line : String} (h : '\n' ∉ line.toList) (name : String)
    (reading : Nat) :
    Answer.errors (scan (ofText name line reading).items) =
      Answer.errors (Scanner.line line.toList) := by
  obtain ⟨last, hscan⟩ := scan_ofText_line h name reading
  rw [hscan, Answer.errors_append]
  exact List.append_nil _

end Source

theorem Answer.OfLine.errors_eq {answers : List Answer} (h : OfLine answers) :
    ∃ error? : Option (Located LexicalError), Answer.errors answers = error?.toList := by
  obtain ⟨tokens, error?, rfl, -⟩ := h
  refine ⟨error?, ?_⟩
  cases error? <;> simp [Answer.errors, List.filterMap_map]

/-- The errors of lines at their places are one for each line that is wrong alone. -/
theorem forall₂_errors_lines {entries : List (String × Nat)}
    (h : ∀ e ∈ entries, '\n' ∉ e.1.toList) (name : String) (reading : Nat) :
    List.Forall₂ (fun e error => ∃ own : Located LexicalError,
        (Source.ofText name e.1 reading).tokens = .error [own] ∧ error = own.down e.2)
      (entries.filter fun e => (Source.ofText name e.1 reading).isWrong)
      (Answer.errors (entries.flatMap fun e =>
        (Scanner.line e.1.toList).map (Answer.down e.2))) := by
  induction entries with
  | nil => exact .nil
  | cons e rest ih =>
    have hline := h e List.mem_cons_self
    have hrest := ih fun e' he' => h e' (List.mem_cons_of_mem _ he')
    have halone := Source.errors_ofText_line hline name reading
    obtain ⟨error?, herror⟩ := (Scanner.ofLine_line hline).errors_eq
    rw [List.flatMap_cons, Answer.errors_append, Answer.errors_down, herror, List.filter_cons,
      Source.isWrong_eq, halone, herror]
    cases error? with
    | none => simpa using hrest
    | some error =>
      refine .cons ⟨error, ?_, rfl⟩ hrest
      rw [Source.tokens, tokens_eq_error_iff, halone, herror]
      exact ⟨rfl, List.cons_ne_nil _ _⟩

/-- The errors of a text are those of its wrong lines, each at the place of its line. -/
theorem Source.forall₂_errors_ofText (name text : String) (reading : Nat) :
    List.Forall₂ (fun e error => ∃ own : Located LexicalError,
        (ofText name e.1 reading).tokens = .error [own] ∧ error = own.down e.2)
      ((Text.lines text).zipIdx.filter fun e => (ofText name e.1 reading).isWrong)
      (Answer.errors (scan (ofText name text reading).items)) := by
  have hlines : ∀ e ∈ (Text.lines text).zipIdx, '\n' ∉ e.1.toList := by
    intro e he
    exact Text.not_mem_lines (List.fst_mem_of_mem_zipIdx he)
  have herrors := forall₂_errors_lines hlines name reading
  rw [scan_ofText_eq, Answer.errors_append]
  exact (List.append_nil _).symm ▸ herrors

/-- A text is wrong if one of its lines is. -/
theorem Source.isWrong_ofText_iff (name text : String) (reading : Nat) :
    (ofText name text reading).isWrong = true ↔
      ∃ line ∈ Text.lines text, (ofText name line reading).isWrong = true := by
  have hlength := (forall₂_errors_ofText name text reading).length_eq
  rw [isWrong_eq, Bool.not_eq_true', List.isEmpty_eq_false_iff, ne_eq,
    ← List.length_eq_zero_iff, ← hlength, List.length_eq_zero_iff, List.filter_eq_nil_iff]
  constructor
  · intro hsome
    push Not at hsome
    obtain ⟨e, he, hwrong⟩ := hsome
    exact ⟨e.1, List.fst_mem_of_mem_zipIdx he, hwrong⟩
  · rintro ⟨line, hline, hwrong⟩ hnone
    obtain ⟨i, hi⟩ := List.getElem?_of_mem hline
    exact hnone (line, i) (List.mem_zipIdx_iff_getElem?.mpr hi) hwrong

/-- The answers to a text are those to each of its lines alone, moved down to the place of the
line, and the end of the input.  A line alone has tokens and behind them at most one error.  So a
text is wrong if one of its lines is, and its errors are those of its wrong lines, in order. -/
theorem scan_ofText_lines (name text : String) (reading : Nat) :
    let source := Source.ofText name text reading
    let alone := fun line => Source.ofText name line reading
    let lines := Text.lines text
    scan source.items =
      lines.zipIdx.flatMap (fun e => (scan (alone e.1).items).dropLast.map (Answer.down e.2)) ++
        [.token .eof (Position.cell ⟨lines.length + 1, 1⟩)] ∧
    (∀ line ∈ lines, ∃ answers last, Answer.OfLine answers ∧
      scan (alone line).items = answers ++ [.token .eof last]) ∧
    (source.isWrong = true ↔ ∃ line ∈ lines, (alone line).isWrong = true) ∧
    ∀ errors, source.tokens = .error errors →
      List.Forall₂ (fun e error => ∃ own : Located LexicalError,
          (alone e.1).tokens = .error [own] ∧ error = own.down e.2)
        (lines.zipIdx.filter fun e => (alone e.1).isWrong) errors := by
  intro source alone lines
  refine ⟨?_, ?_, Source.isWrong_ofText_iff name text reading, ?_⟩
  · rw [Source.scan_ofText_eq]
    congr 1
    refine List.flatMap_congr fun e he => ?_
    have hfeed := Text.not_mem_lines (List.fst_mem_of_mem_zipIdx he)
    obtain ⟨last, hscan⟩ := Source.scan_ofText_line hfeed name reading
    rw [hscan, List.dropLast_concat]
  · intro line hline
    have hfeed := Text.not_mem_lines hline
    obtain ⟨last, hscan⟩ := Source.scan_ofText_line hfeed name reading
    exact ⟨_, last, Scanner.ofLine_line hfeed, hscan⟩
  · intro errors herror
    obtain ⟨rfl, -⟩ := tokens_eq_error_iff.mp herror
    exact Source.forall₂_errors_ofText name text reading

end FrontEnd
