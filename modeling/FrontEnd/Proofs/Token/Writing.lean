import FrontEnd.Proofs.Token.Lines

/-!
# Tokens are read back

Any tokens but the end of the input can be written: each has a lexeme, and separators keep the
lexemes apart.  However that is done, scanning the text gives the tokens again.  A lexeme leaves
the scanner inside that lexeme, and the blank with which every separator starts then closes it;
the rest of the separator is a gap.  Behind the last lexeme stands the line feed that ends the
last line of any text.

A line may end with a carriage return before its line feed.  The characters that are scanned are
those of the text without these returns, so separators are gaps once the returns are gone.

## Main definitions

* `Token.Writable`: the tokens that have a lexeme.
* `Writes token lexeme`: the lexemes of a token.
* `Separator`: blanks and comments between two lexemes.
* `Layout tokens chars`: the characters are lexemes of the tokens, parted by separators.

## Main statements

* `Spells.enters`: what the scanner does with a lexeme.
* `Source.characters_ofText_eq`: the characters of a text, without returns at line ends.
* `Scanner.read_layout`: what the scanner answers to a layout.
-/

namespace FrontEnd

/-! ## Writing -/

/-- The tokens that have a lexeme: names are words that spell no keyword, and integers are in
range. -/
def Token.Writable : Token → Prop
  | .ident name =>
    IsWord name.text.toList ∧ ∀ reserved : Keyword, name.same ⟨reserved.text⟩ = false
  | .integer value => value ≤ maxInteger
  | .eof => False
  | .keyword _ | .character _ | .symbol _ => True

instance (word : List Char) : Decidable (IsWord word) :=
  match word with
  | [] => .isFalse id
  | c :: rest =>
    decidable_of_iff (isWordStart c = true ∧ rest.all isWordChar = true) (by simp [IsWord])

/-- A character as it is written between quotes. -/
def escaped (c : Char) : List Char :=
  if c = '\n' then ['\\', 'n']
  else if c = '\t' then ['\\', 't']
  else if c = '\x00' then ['\\', '0']
  else if c = '\\' then ['\\', '\\']
  else if c = '\x27' then ['\\', '\x27']
  else [c]

/-- The lexemes of a token. -/
inductive Writes : Token → List Char → Prop
  | symbol (sign : Symbol) : Writes (.symbol sign) sign.text.toList
  /-- A keyword is written in any mix of cases. -/
  | keyword {word : List Char} (reserved : Keyword) :
      word.map Char.toLower = reserved.text.toList → Writes (.keyword reserved) word
  | ident (name : Ident) : Writes (.ident name) name.text.toList
  /-- Decimal digits, behind any number of zeros. -/
  | integer (zeros value : Nat) :
      Writes (.integer value) (List.replicate zeros '0' ++ Nat.toDigits 10 value)
  | character (c : Char) : Writes (.character c) ('\x27' :: (escaped c ++ ['\x27']))

/-- Spaces, tabs and line ends. -/
def blanks : List (List Char) := [[' '], ['\t'], ['\n'], ['\r', '\n']]

/-- A comment with the line end behind it. -/
def IsComment (chars : List Char) : Prop :=
  ∃ body, '\n' ∉ body ∧ ∃ lineEnd ∈ [['\n'], ['\r', '\n']], chars = '/' :: '/' :: (body ++ lineEnd)

/-- A run of blanks and comments that starts with a blank. -/
def Separator (chars : List Char) : Prop :=
  ∃ first ∈ blanks, ∃ rest : List (List Char),
    (∀ piece ∈ rest, piece ∈ blanks ∨ IsComment piece) ∧ chars = first ++ rest.flatten

/-- Lexemes of the tokens, with a separator between each two. -/
inductive Layout : List Token → List Char → Prop
  | nil : Layout [] []
  | last {token : Token} {lexeme : List Char} : Writes token lexeme → Layout [token] lexeme
  | cons {token next : Token} {rest : List Token} {lexeme gap chars : List Char} :
      Writes token lexeme → Separator gap → Layout (next :: rest) chars →
      Layout (token :: next :: rest) (lexeme ++ (gap ++ chars))

theorem Keyword.map_toLower_text (reserved : Keyword) :
    reserved.text.toList.map Char.toLower = reserved.text.toList := by
  have hall : ∀ k ∈ Keyword.all, k.text.toList.map Char.toLower = k.text.toList := by
    decide +kernel
  exact hall reserved reserved.mem_all

variable {token : Token} {c : Char} {lexeme chars : List Char}

/-- Every writable token has a lexeme. -/
theorem Token.Writable.exists_writes (h : token.Writable) : ∃ lexeme, Writes token lexeme := by
  cases token with
  | ident name => exact ⟨_, .ident name⟩
  | keyword reserved => exact ⟨_, .keyword reserved reserved.map_toLower_text⟩
  | integer value => exact ⟨_, .integer 0 value⟩
  | character c => exact ⟨_, .character c⟩
  | symbol sign => exact ⟨_, .symbol sign⟩
  | eof => exact h.elim

theorem separator_of_blank {blank : List Char} (h : blank ∈ blanks) : Separator blank :=
  ⟨blank, h, [], by simp, by simp⟩

theorem exists_layout {tokens : List Token} (h : ∀ t ∈ tokens, t.Writable) :
    ∃ chars, Layout tokens chars := by
  induction tokens with
  | nil => exact ⟨[], .nil⟩
  | cons token rest ih =>
    obtain ⟨htoken, hrest⟩ := List.forall_mem_cons.mp h
    obtain ⟨lexeme, hlexeme⟩ := htoken.exists_writes
    cases rest with
    | nil => exact ⟨lexeme, .last hlexeme⟩
    | cons next rest =>
      obtain ⟨chars, hchars⟩ := ih hrest
      exact ⟨_, .cons hlexeme (separator_of_blank (by decide : [' '] ∈ blanks)) hchars⟩

/-! ## Lexemes spell their tokens -/

theorem isWordChar_of_isWordStart (h : isWordStart c = true) : isWordChar c = true := by
  simp only [isWordStart, isWordChar, Char.isAlphanum, Bool.or_eq_true] at h ⊢
  tauto

theorem isUpper_or_toLower_eq (c : Char) : c.isUpper = true ∨ c.toLower = c := by
  unfold Char.toLower
  split
  next h => exact .inl (decide_eq_true h)
  next => exact .inr rfl

/-- What is a word in small letters is one in any mix of cases. -/
theorem isWord_of_map_toLower {word : List Char} (h : IsWord (word.map Char.toLower)) :
    IsWord word := by
  have hupper : ∀ c : Char, c.isUpper = true → isWordStart c = true := by
    intro c hc
    change ((c.isUpper || c.isLower) || c == '_') = true
    rw [hc, Bool.true_or, Bool.true_or]
  cases word with
  | nil => exact h
  | cons first rest =>
    constructor
    · rcases isUpper_or_toLower_eq first with hfirst | hfirst
      · exact hupper first hfirst
      · exact hfirst ▸ h.1
    · intro d hd
      rcases isUpper_or_toLower_eq d with hupper' | hlower
      · exact isWordChar_of_isWordStart (hupper d hupper')
      · exact hlower ▸ h.2 d.toLower (List.mem_map_of_mem hd)

theorem Keyword.isWord_text (reserved : Keyword) : IsWord reserved.text.toList := by
  have hall : ∀ k ∈ Keyword.all, IsWord k.text.toList := by decide +kernel
  exact hall reserved reserved.mem_all

/-- No two keywords have one spelling. -/
theorem Keyword.eq_of_same {k k' : Keyword} (h : Ident.same ⟨k.text⟩ ⟨k'.text⟩ = true) :
    k = k' := by
  have hall : ∀ k ∈ Keyword.all, ∀ k' ∈ Keyword.all,
      Ident.same ⟨k.text⟩ ⟨k'.text⟩ = true → k = k' := by decide +kernel
  exact hall k k.mem_all k' k'.mem_all h

/-- The digits of a number have its value, and zeros in front do not count. -/
theorem decimal_zeros_append_toDigits (zeros value : Nat) :
    decimal (List.replicate zeros '0' ++ Nat.toDigits 10 value) = value := by
  have hdecimal : ∀ digits, decimal digits = Nat.ofDigitChars 10 digits 0 := by
    intro digits
    simp [decimal, Nat.ofDigitChars, digitValue, Nat.mul_comm]
  have hzeros : Nat.ofDigitChars 10 (List.replicate zeros '0') 0 = 0 := by
    induction zeros with
    | zero => rfl
    | succ n ih => simpa [List.replicate_succ, Nat.ofDigitChars] using ih
  rw [hdecimal, Nat.ofDigitChars_append, hzeros, Nat.ofDigitChars_ten_toDigits]

theorem spells_escaped (c : Char) :
    Spells ('\x27' :: (escaped c ++ ['\x27'])) (.character c) := by
  unfold escaped
  split_ifs with hfeed htab hnull hback hquote
  · subst hfeed
    exact .escape rfl
  · subst htab
    exact .escape rfl
  · subst hnull
    exact .escape rfl
  · subst hback
    exact .escape rfl
  · subst hquote
    exact .escape rfl
  · exact .character hback hquote hfeed

/-- What writes a token spells it. -/
theorem Writes.spells (h : Writes token lexeme) (htoken : token.Writable) :
    Spells lexeme token := by
  cases h with
  | symbol sign => exact .symbol sign
  | keyword reserved hword =>
    refine .keyword reserved (isWord_of_map_toLower (hword ▸ reserved.isWord_text)) ?_
    rw [Ident.same_iff, Ident.key, Ident.key, String.toList_ofList, hword,
      reserved.map_toLower_text]
  | ident name =>
    have hspells := Spells.ident htoken.1 (by simpa using htoken.2)
    simpa using hspells
  | integer zeros value =>
    have hvalue := decimal_zeros_append_toDigits zeros value
    have hdigits : ∀ c ∈ List.replicate zeros '0' ++ Nat.toDigits 10 value, c.isDigit = true := by
      intro c hc
      rcases List.mem_append.mp hc with hzero | hdigit
      · rw [List.eq_of_mem_replicate hzero]
        rfl
      · exact Nat.isDigit_of_mem_toDigits (by decide) (by decide) hdigit
    have hspells := Spells.integer (by simp) hdigits (hvalue.symm ▸ htoken)
    rwa [hvalue] at hspells
  | character c => exact spells_escaped c

/-! ## Scanning a lexeme -/

/-- The first characters of signs and of character literals. -/
def marks : List Char :=
  [',', '+', '*', '%', '^', '<', '>', '@', ';', '(', '\x7b', ')', '\x7d', '=', '/', '-', '.',
    '\x27']

theorem not_mem_marks {test : Char → Bool} (h : test c = true)
    (hmarks : marks.all (fun mark => !test mark) = true) : c ∉ marks := by
  intro hc
  have hnot := List.all_eq_true.mp hmarks c hc
  rw [h] at hnot
  cases hnot

/-- What is no mark starts a word or an integer, or is skipped, or is wrong. -/
theorem Lexeme.start_of_not_mem_marks (h : c ∉ marks) : Lexeme.start c =
      if isWordStart c then .ok (some (.word (String.singleton c)))
      else if c.isDigit then .ok (some (.integer (digitValue c)))
      else if isBlank c then .ok none
      else .error (.badChar c) := by
  simp only [marks, List.mem_cons, List.not_mem_nil, or_false, not_or] at h
  simp [Lexeme.start, Symbol.ofChar?, h]

theorem Lexeme.start_of_isWordStart (h : isWordStart c = true) :
    Lexeme.start c = .ok (some (.word (String.singleton c))) := by
  rw [start_of_not_mem_marks (not_mem_marks h (by decide)), if_pos h]

theorem isWordStart_of_isDigit (h : c.isDigit = true) : isWordStart c = false := by
  have hdigit : c.val ≤ '9'.val := of_decide_eq_true (Bool.and_eq_true_iff.mp h).2
  have hupper : c.isUpper = false :=
    decide_eq_false fun hc => absurd (UInt32.le_trans hc.1 hdigit) (by decide)
  have hlower : c.isLower = false :=
    Bool.and_eq_false_iff.mpr <| .inl <|
      decide_eq_false fun hc => absurd (UInt32.le_trans hc hdigit) (by decide)
  have hline : c ≠ '_' := by
    rintro rfl
    cases h
  change ((c.isUpper || c.isLower) || c == '_') = false
  simp [hupper, hlower, hline]

theorem Lexeme.start_of_isDigit (h : c.isDigit = true) :
    Lexeme.start c = .ok (some (.integer (digitValue c))) := by
  rw [start_of_not_mem_marks (not_mem_marks h (by decide)),
    if_neg (by simp [isWordStart_of_isDigit h]), if_pos h]

theorem isBlank_iff : isBlank c = true ↔ c = ' ' ∨ c = '\t' ∨ c = '\n' ∨ c = '\x0c' ∨ c = '\r' := by
  simp [isBlank, or_assoc]

theorem Lexeme.start_of_isBlank (h : isBlank c = true) : Lexeme.start c = .ok none := by
  rcases isBlank_iff.mp h with rfl | rfl | rfl | rfl | rfl <;> rfl

/-- A lexeme after some characters that all belong to it. -/
def Lexeme.extended? (lexeme : Lexeme) : List Char → Option Lexeme
  | [] => some lexeme
  | c :: rest =>
    match lexeme.step c with
    | .extend longer => longer.extended? rest
    | _ => none

/-- A blank comes after the lexeme, which yields the token. -/
def Lexeme.EndsAs (lexeme : Lexeme) (token : Token) : Prop :=
  ∀ c, isBlank c = true → lexeme.step c = .emit token

theorem extended?_word (read : List Char) (h : ∀ c ∈ chars, isWordChar c = true) :
    (Lexeme.word (String.ofList read)).extended? chars =
      some (.word (String.ofList (read ++ chars))) := by
  induction chars generalizing read with
  | nil => simp [Lexeme.extended?]
  | cons c rest ih =>
    obtain ⟨hc, hrest⟩ := List.forall_mem_cons.mp h
    have hstep : (Lexeme.word (String.ofList read)).step c =
        .extend (.word (String.ofList (read ++ [c]))) := by
      simp [Lexeme.step, hc]
    rw [Lexeme.extended?, hstep]
    dsimp only
    rw [ih _ hrest, List.append_assoc, List.singleton_append]

theorem decimal_le_decimal_append (digits more : List Char) :
    decimal digits ≤ decimal (digits ++ more) := by
  induction more generalizing digits with
  | nil => simp
  | cons c rest ih =>
    have hrest := ih (digits ++ [c])
    rw [decimal_append_singleton, List.append_assoc, List.singleton_append] at hrest
    omega

theorem extended?_integer (read : List Char) (h : ∀ c ∈ chars, c.isDigit = true)
    (hrange : decimal (read ++ chars) ≤ maxInteger) :
    (Lexeme.integer (decimal read)).extended? chars =
      some (.integer (decimal (read ++ chars))) := by
  induction chars generalizing read with
  | nil => simp [Lexeme.extended?]
  | cons c rest ih =>
    obtain ⟨hc, hrest⟩ := List.forall_mem_cons.mp h
    rw [List.append_cons] at hrange ⊢
    have hfits := Nat.le_trans (decimal_le_decimal_append _ _) hrange
    have hstep : (Lexeme.integer (decimal read)).step c =
        .extend (.integer (decimal (read ++ [c]))) := by
      rw [decimal_append_singleton] at hfits ⊢
      simp [Lexeme.step, hc, hfits]
    rw [Lexeme.extended?, hstep]
    exact ih _ hrest hrange

theorem Token.ofWord_of_same {word : String} {reserved : Keyword}
    (h : Ident.same ⟨word⟩ ⟨reserved.text⟩ = true) : Token.ofWord word = .keyword reserved := by
  have hsome : (Keyword.ofWord? ⟨word⟩).isSome = true :=
    List.find?_isSome.mpr ⟨reserved, reserved.mem_all, h⟩
  obtain ⟨found, hfound⟩ := Option.isSome_iff_exists.mp hsome
  have hsame : Ident.same ⟨word⟩ ⟨found.text⟩ = true :=
    List.find?_some (p := fun k : Keyword => Ident.same ⟨word⟩ ⟨k.text⟩) hfound
  have heq : found = reserved :=
    Keyword.eq_of_same (Ident.same_trans (Ident.same_comm _ _ ▸ hsame) h)
  rw [Token.ofWord, hfound, heq]

theorem Token.ofWord_of_not_same {word : String}
    (h : ∀ reserved : Keyword, Ident.same ⟨word⟩ ⟨reserved.text⟩ = false) :
    Token.ofWord word = .ident ⟨word⟩ := by
  have hnone : Keyword.ofWord? ⟨word⟩ = none := by
    refine List.find?_eq_none.mpr fun reserved _ => ?_
    simp [h reserved]
  rw [Token.ofWord, hnone]

/-- A lexeme of the token is entered at its first character, its other characters belong to it,
and a blank ends it. -/
def Enters (lexeme : List Char) (token : Token) : Prop :=
  ∃ c rest first last, lexeme = c :: rest ∧ Lexeme.start c = .ok (some first) ∧
    first.extended? rest = some last ∧ last.EndsAs token

theorem IsWord.enters {word : List Char} (h : IsWord word) :
    Enters word (Token.ofWord (String.ofList word)) := by
  cases word with
  | nil => exact h.elim
  | cons c rest =>
    have hrest : (Lexeme.word (String.singleton c)).extended? rest =
        some (.word (String.ofList (c :: rest))) := extended?_word [c] h.2
    have hblank : [' ', '\t', '\n', '\x0c', '\r'].all (fun d => !isWordChar d) = true := by decide
    refine ⟨c, rest, _, _, rfl, Lexeme.start_of_isWordStart h.1, hrest, fun d hd => ?_⟩
    have hnot := List.all_eq_true.mp hblank d (by simpa using isBlank_iff.mp hd)
    rw [Bool.not_eq_true'] at hnot
    simp [Lexeme.step, hnot]

/-- What the scanner does with a lexeme. -/
theorem Spells.enters (h : Spells lexeme token) : Enters lexeme token := by
  cases h with
  | symbol sign =>
    cases sign <;>
      exact ⟨_, _, _, _, rfl, rfl, rfl, fun c hc => by
        rcases isBlank_iff.mp hc with rfl | rfl | rfl | rfl | rfl <;> rfl⟩
  | keyword reserved hword hsame =>
    rw [← Token.ofWord_of_same hsame]
    exact hword.enters
  | ident hword hnot =>
    rw [← Token.ofWord_of_not_same hnot]
    exact hword.enters
  | integer hne hdigits hrange =>
    obtain ⟨c, rest, rfl⟩ := List.exists_cons_of_ne_nil hne
    obtain ⟨hc, hrest⟩ := List.forall_mem_cons.mp hdigits
    have hextended := extended?_integer [c] hrest hrange
    rw [decimal_singleton] at hextended
    refine ⟨c, rest, _, _, rfl, Lexeme.start_of_isDigit hc, hextended, fun d hd => ?_⟩
    rcases isBlank_iff.mp hd with rfl | rfl | rfl | rfl | rfl <;> rfl
  | @character c hback hquote hfeed =>
    refine ⟨_, _, .quote, .complete (.character c), rfl, rfl, ?_, fun _ _ => rfl⟩
    simp [Lexeme.extended?, Lexeme.step, hback, hquote, hfeed]
  | @escape mark c hmark =>
    refine ⟨_, _, .quote, .complete (.character c), rfl, rfl, ?_, fun _ _ => rfl⟩
    simp [Lexeme.extended?, Lexeme.step, hmark]

namespace Scanner

theorem read_extended {lexeme longer : Lexeme} {chars : List Char}
    (h : lexeme.extended? chars = some longer) (start last next : Position) :
    ∃ last' next', (⟨.within lexeme start last, next⟩ : Scanner).read chars =
      (⟨.within longer start last', next'⟩, []) := by
  induction chars generalizing lexeme last next with
  | nil =>
    obtain rfl := Option.some.inj h
    exact ⟨last, next, rfl⟩
  | cons c rest ih =>
    rw [Lexeme.extended?] at h
    cases hstep : lexeme.step c with
    | extend longer' =>
      rw [hstep] at h
      obtain ⟨last', next', hread⟩ := ih h next (next.after c)
      refine ⟨last', next', ?_⟩
      simp [read, feedChar, hstep, hread]
    | _ => simp [hstep] at h

variable {token : Token}

/-- A lexeme is read without an answer, and the scanner stands at its end. -/
theorem read_lexeme {lexeme : List Char} (h : Spells lexeme token) (p : Position) :
    ∃ last start q next, (⟨.between, p⟩ : Scanner).read lexeme =
      (⟨.within last start q, next⟩, []) ∧ last.EndsAs token := by
  obtain ⟨c, rest, first, last, rfl, hstart, hextended, hends⟩ := h.enters
  obtain ⟨q, next, hread⟩ := read_extended hextended p p (p.after c)
  refine ⟨last, p, q, next, ?_, hends⟩
  simp [read, feedChar, enter, hstart, hread]

theorem extended?_comment {body : List Char} (h : '\n' ∉ body) :
    Lexeme.comment.extended? body = some .comment := by
  induction body with
  | nil => rfl
  | cons c rest ih =>
    rw [List.mem_cons, not_or] at h
    simp [Lexeme.extended?, Lexeme.step, Ne.symm h.1, ih h.2]

/-- A gap is read without an answer. -/
theorem read_gap {chars : List Char} (h : Gap chars) (p : Position) :
    ∃ q, (⟨.between, p⟩ : Scanner).read chars = (⟨.between, q⟩, []) := by
  induction h generalizing p with
  | nil => exact ⟨p, rfl⟩
  | @blank c rest hc _ ih =>
    obtain ⟨q, hread⟩ := ih (p.after c)
    refine ⟨q, ?_⟩
    simp [read, feedChar, enter, Lexeme.start_of_isBlank hc, hread]
  | @comment body rest hbody _ ih =>
    obtain ⟨last, next, hcomment⟩ :=
      read_extended (extended?_comment hbody) p (p.after '/') ((p.after '/').after '/')
    obtain ⟨q, hread⟩ := ih (next.after '\n')
    have hopen : (⟨.between, p⟩ : Scanner).read ['/', '/'] =
        (⟨.within .comment p (p.after '/'), (p.after '/').after '/'⟩, []) := rfl
    have hclose : (⟨.within .comment p last, next⟩ : Scanner).read ['\n'] =
        (⟨.between, next.after '\n'⟩, []) := rfl
    have hsplit : '/' :: '/' :: (body ++ '\n' :: rest) = ['/', '/'] ++ (body ++ (['\n'] ++ rest)) :=
      rfl
    refine ⟨q, ?_⟩
    simp only [hsplit, read_append, hopen, hcomment, hclose, hread, List.append_nil]

/-- A blank answers the token whose lexeme it ends. -/
theorem read_blank {lexeme : Lexeme} {c : Char} (h : lexeme.EndsAs token) (hc : isBlank c = true)
    (start last next : Position) : (⟨.within lexeme start last, next⟩ : Scanner).read [c] =
      (⟨.between, next.after c⟩, [.token token ⟨start, last.advance⟩]) := by
  simp [read, feedChar, enter, h c hc, Lexeme.start_of_isBlank hc]

/-- A lexeme with a blank and a gap behind it is answered by its token. -/
theorem read_part {lexeme gap : List Char} {c : Char} (h : Spells lexeme token)
    (hc : isBlank c = true) (hgap : Gap gap) (p : Position) :
    ∃ q span, (⟨.between, p⟩ : Scanner).read (lexeme ++ c :: gap) =
      (⟨.between, q⟩, [.token token span]) := by
  obtain ⟨last, start, r, next, hlexeme, hends⟩ := read_lexeme h p
  obtain ⟨q, hrest⟩ := read_gap hgap (next.after c)
  refine ⟨q, ⟨start, r.advance⟩, ?_⟩
  have hblank := read_blank hends hc start r next
  rw [List.append_cons, List.append_assoc, read_append, hlexeme, read_append, hblank, hrest]
  rfl

end Scanner

/-! ## The characters of a text -/

namespace Text

/-- The characters without the carriage returns that belong to line ends. -/
def unreturned : List Char → List Char
  | [] => []
  | c :: rest => if c = '\r' ∧ rest.head? = some '\n' then unreturned rest else c :: unreturned rest

/-- The characters with a line feed behind the last line, where it lacks one. -/
def closed (chars : List Char) : List Char :=
  if chars.getLast?.all (· = '\n') then chars else chars ++ ['\n']

variable {first second chars : List Char}

theorem unreturned_of_not_mem (h : '\n' ∉ chars) : unreturned chars = chars := by
  induction chars with
  | nil => rfl
  | cons c rest ih =>
    rw [List.mem_cons, not_or] at h
    have hhead : rest.head? ≠ some '\n' := fun hhead => h.2 (List.mem_of_mem_head? hhead)
    rw [unreturned, if_neg (by simp [hhead]), ih h.2]

/-- Only a line end that is cut in two makes a difference. -/
theorem unreturned_append (h : first.getLast? ≠ some '\r' ∨ second.head? ≠ some '\n') :
    unreturned (first ++ second) = unreturned first ++ unreturned second := by
  induction first with
  | nil => rfl
  | cons c rest ih =>
    cases rest with
    | nil =>
      have hnot : ¬ (c = '\r' ∧ second.head? = some '\n') := by
        rintro ⟨rfl, hhead⟩
        rcases h with h | h
        · exact h rfl
        · exact h hhead
      simp [unreturned, hnot]
    | cons d rest =>
      have hrest := ih (by simpa using h)
      have hhead : (d :: rest ++ second).head? = (d :: rest).head? := rfl
      rw [List.cons_append, unreturned, hrest, hhead]
      conv_rhs => rw [unreturned]
      split <;> rfl

theorem unreturned_eq_nil_iff : unreturned chars = [] ↔ chars = [] := by
  induction chars with
  | nil => simp [unreturned]
  | cons c rest ih =>
    rw [unreturned]
    split
    next hreturn =>
      rw [ih]
      simp only [reduceCtorEq, iff_false]
      rintro rfl
      simp at hreturn
    next => simp

/-- A line loses the return at its end. -/
theorem unreturned_line {line : List Char} (h : '\n' ∉ line) (rest : List Char) :
    unreturned (line.reverse ++ '\n' :: rest) =
      (dropHead '\r' line).reverse ++ '\n' :: unreturned rest := by
  have hfeed : unreturned ('\n' :: rest) = '\n' :: unreturned rest := by simp [unreturned]
  cases line with
  | nil => exact hfeed
  | cons c line =>
    rw [List.mem_cons, not_or] at h
    have hline : '\n' ∉ line.reverse := by simpa using h.2
    by_cases hc : c = '\r'
    · subst hc
      have hdrop : unreturned ('\r' :: '\n' :: rest) = unreturned ('\n' :: rest) := by
        rw [unreturned, if_pos (by simp)]
      rw [List.reverse_cons, List.append_assoc, List.singleton_append,
        unreturned_append (.inr (by simp)), unreturned_of_not_mem hline, hdrop, hfeed, dropHead,
        if_pos rfl]
    · have hkeep : '\n' ∉ (c :: line).reverse := by simp [h.1, h.2]
      rw [unreturned_append (.inl (by simpa using hc)), unreturned_of_not_mem hkeep, hfeed,
        dropHead, if_neg hc]

theorem closed_append (h : second ≠ []) : closed (first ++ second) = first ++ closed second := by
  rw [closed, closed, List.getLast?_append_of_ne_nil _ h]
  split <;> simp

/-- The lines of some characters, each with a line feed. -/
theorem flatMap_cutLines (line : List Char) (h : '\n' ∉ line) (chars : List Char) :
    (cutLines '\n' '\r' line chars).flatMap (· ++ ['\n']) =
      closed (unreturned (line.reverse ++ chars)) := by
  induction chars generalizing line with
  | nil =>
    have hline : '\n' ∉ line.reverse := by simpa using h
    rw [List.append_nil, unreturned_of_not_mem hline, cutLines]
    cases line with
    | nil => rfl
    | cons c line =>
      rw [List.mem_cons, not_or] at h
      simp [closed, Ne.symm h.1]
  | cons c rest ih =>
    rw [cutLines]
    split
    next hc =>
      subst hc
      have hclosed : closed ('\n' :: unreturned rest) = '\n' :: closed (unreturned rest) := by
        cases hrest : unreturned rest with
        | nil => rfl
        | cons d ds =>
          change closed (['\n'] ++ d :: ds) = ['\n'] ++ closed (d :: ds)
          exact closed_append (by simp)
      rw [unreturned_line h, closed_append (by simp), hclosed, List.flatMap_cons,
        ih [] (by simp), List.append_assoc]
      rfl
    next hc =>
      rw [ih (c :: line) (by simp [h, Ne.symm hc]), List.reverse_cons, List.append_assoc]
      rfl

end Text

/-- The characters of a text are its own, without the returns at line ends and with a line feed
behind the last line. -/
theorem Source.characters_ofText_eq (name text : String) (reading : Nat) :
    (Source.ofText name text reading).characters = Text.closed (Text.unreturned text.toList) := by
  have hlines := Text.flatMap_cutLines [] (by simp) text.toList
  rw [characters_ofText, Text.lines, List.flatMap_map]
  simpa using hlines

/-! ## Reading a layout -/

theorem isWordChar_of_isDigit (h : c.isDigit = true) : isWordChar c = true := by
  simp [isWordChar, Char.isAlphanum, h]

/-- A lexeme holds no line feed, and does not end with a carriage return. -/
theorem Spells.inLine (h : Spells lexeme token) : '\n' ∉ lexeme ∧ lexeme.getLast? ≠ some '\r' := by
  have hword : (∀ c ∈ lexeme, isWordChar c = true) →
      '\n' ∉ lexeme ∧ lexeme.getLast? ≠ some '\r' := by
    intro hchars
    constructor
    · intro hfeed
      cases hchars _ hfeed
    · intro hreturn
      cases hchars _ (List.mem_of_getLast? hreturn)
  have hIsWord : IsWord lexeme → ∀ c ∈ lexeme, isWordChar c = true := by
    intro hlexeme
    cases lexeme with
    | nil => exact hlexeme.elim
    | cons first rest =>
      exact List.forall_mem_cons.mpr ⟨isWordChar_of_isWordStart hlexeme.1, hlexeme.2⟩
  cases h with
  | symbol sign => cases sign <;> decide
  | keyword reserved hlexeme _ => exact hword (hIsWord hlexeme)
  | ident hlexeme _ => exact hword (hIsWord hlexeme)
  | integer _ hdigits _ => exact hword fun c hc => isWordChar_of_isDigit (hdigits c hc)
  | character _ _ hfeed => simp [Ne.symm hfeed]
  | escape hmark =>
    refine ⟨?_, by simp⟩
    simp only [List.mem_cons, Char.reduceEq, false_or, List.not_mem_nil, or_false]
    rintro rfl
    cases hmark

/-- Characters that are a gap without their returns, and end with none. -/
def Loose (chars : List Char) : Prop :=
  Gap (Text.unreturned chars) ∧ chars.getLast? ≠ some '\r'

theorem Loose.append {first second : List Char} (h : Loose first) (h' : Loose second) :
    Loose (first ++ second) := by
  refine ⟨?_, ?_⟩
  · rw [Text.unreturned_append (.inl h.2)]
    exact h.1.append h'.1
  · cases second with
    | nil => simpa using h.2
    | cons c rest => rw [List.getLast?_append_of_ne_nil _ (by simp)]; exact h'.2

theorem loose_of_mem_blanks (h : chars ∈ blanks) :
    ∃ c, isBlank c = true ∧ Text.unreturned chars = [c] ∧ chars.getLast? ≠ some '\r' := by
  simp only [blanks, List.mem_cons, List.not_mem_nil, or_false] at h
  rcases h with rfl | rfl | rfl | rfl
  · exact ⟨' ', rfl, rfl, by decide⟩
  · exact ⟨'\t', rfl, rfl, by decide⟩
  · exact ⟨'\n', rfl, rfl, by decide⟩
  · exact ⟨'\n', rfl, rfl, by decide⟩

theorem IsComment.loose (h : IsComment chars) : Loose chars := by
  -- a return before the line feed may be taken for the end of the body
  obtain ⟨body, hbody, hchars⟩ : ∃ body, '\n' ∉ body ∧ chars = '/' :: '/' :: (body ++ ['\n']) := by
    obtain ⟨body, hbody, lineEnd, hend, rfl⟩ := h
    simp only [List.mem_cons, List.not_mem_nil, or_false] at hend
    rcases hend with rfl | rfl
    · exact ⟨body, hbody, rfl⟩
    · exact ⟨body ++ ['\r'], by simp [hbody], by simp⟩
  subst hchars
  have hline : '\n' ∉ body.reverse := by simpa using hbody
  have hunreturned := Text.unreturned_line hline []
  rw [List.reverse_reverse] at hunreturned
  have hlast : ('/' :: '/' :: (body ++ ['\n'])).getLast? = some '\n' :=
    List.getLast?_append_of_ne_nil ('/' :: '/' :: body) (by simp)
  refine ⟨?_, by rw [hlast]; decide⟩
  have hslashes : Text.unreturned ('/' :: '/' :: (body ++ ['\n'])) =
      '/' :: '/' :: Text.unreturned (body ++ ['\n']) := by
    simp [Text.unreturned]
  rw [hslashes, hunreturned]
  refine .comment ?_ .nil
  intro hfeed
  exact hline (Text.mem_of_mem_dropHead (List.mem_reverse.mp hfeed))

/-- Without its returns a separator is a blank and a gap. -/
theorem Separator.unreturned_eq (h : Separator chars) :
    (∃ c gap, Text.unreturned chars = c :: gap ∧ isBlank c = true ∧ Gap gap) ∧
      chars.getLast? ≠ some '\r' := by
  obtain ⟨first, hfirst, rest, hrest, rfl⟩ := h
  have hloose : Loose rest.flatten := by
    induction rest with
    | nil => exact ⟨.nil, by simp⟩
    | cons piece rest ih =>
      obtain ⟨hpiece, hothers⟩ := List.forall_mem_cons.mp hrest
      refine Loose.append ?_ (ih hothers)
      rcases hpiece with hblank | hcomment
      · obtain ⟨c, hc, hunreturned, hlast⟩ := loose_of_mem_blanks hblank
        exact ⟨hunreturned ▸ .blank hc .nil, hlast⟩
      · exact hcomment.loose
  obtain ⟨c, hc, hunreturned, hlast⟩ := loose_of_mem_blanks hfirst
  refine ⟨⟨c, Text.unreturned rest.flatten, ?_, hc, hloose.1⟩, ?_⟩
  · rw [Text.unreturned_append (.inl hlast), hunreturned]
    rfl
  · have hboth : Loose (first ++ rest.flatten) :=
      Loose.append ⟨hunreturned ▸ .blank hc .nil, hlast⟩ hloose
    exact hboth.2

theorem Layout.ne_nil {rest : List Token} (h : Layout (token :: rest) chars)
    (hwritable : token.Writable) : chars ≠ [] := by
  cases h with
  | last hwrites => exact (hwrites.spells hwritable).ne_nil
  | cons hwrites _ _ => simp [(hwrites.spells hwritable).ne_nil]

/-- The scanner answers a layout with its tokens. -/
theorem Scanner.read_layout {tokens : List Token} (h : Layout tokens chars)
    (hwritable : ∀ t ∈ tokens, t.Writable) (p : Position) :
    ∃ (q : Position) (found : List (Located Token)),
      (⟨.between, p⟩ : Scanner).read (Text.closed (Text.unreturned chars)) =
        (⟨.between, q⟩, found.map .ok) ∧ found.map Located.value = tokens := by
  induction h generalizing p with
  | nil => exact ⟨p, [], rfl, rfl⟩
  | @last token lexeme hwrites =>
    have hspells := hwrites.spells (hwritable token List.mem_cons_self)
    obtain ⟨hfeed, -⟩ := hspells.inLine
    obtain ⟨q, span, hread⟩ := read_part hspells (c := '\n') rfl .nil p
    have hclosed : Text.closed lexeme = lexeme ++ ['\n'] := by
      rw [Text.closed, if_neg]
      rw [List.getLast?_eq_some_getLast hspells.ne_nil, Option.all_some, decide_eq_true_eq]
      intro hlast
      exact hfeed (hlast ▸ List.getLast_mem hspells.ne_nil)
    refine ⟨q, [⟨token, span⟩], ?_, rfl⟩
    rw [Text.unreturned_of_not_mem hfeed, hclosed]
    exact hread
  | @cons token next rest lexeme gap chars hwrites hgap hlayout ih =>
    obtain ⟨htoken, hrest⟩ := List.forall_mem_cons.mp hwritable
    have hspells := hwrites.spells htoken
    obtain ⟨hfeed, hlast⟩ := hspells.inLine
    obtain ⟨⟨c, tail, hunreturned, hc, htail⟩, hlast'⟩ := hgap.unreturned_eq
    obtain ⟨q, span, hread⟩ := read_part hspells hc htail p
    obtain ⟨q', found, hread', hfound⟩ := ih hrest q
    have hne : Text.unreturned chars ≠ [] := by
      rw [ne_eq, Text.unreturned_eq_nil_iff]
      exact hlayout.ne_nil (hrest next List.mem_cons_self)
    have hsplit : Text.closed (Text.unreturned (lexeme ++ (gap ++ chars))) =
        (lexeme ++ c :: tail) ++ Text.closed (Text.unreturned chars) := by
      rw [Text.unreturned_append (.inl hlast), Text.unreturned_append (.inl hlast'),
        Text.unreturned_of_not_mem hfeed, hunreturned, ← List.append_assoc,
        Text.closed_append hne]
    refine ⟨q', ⟨token, span⟩ :: found, ?_, by simp [hfound]⟩
    rw [hsplit, read_append, hread, hread']
    rfl

/-- All tokens but the end of the input can be written, and whatever is written for them is read
back as these tokens and the end of the input. -/
theorem tokens_ofText_layout (tokens : List Token) (h : ∀ t ∈ tokens, t.Writable) :
    (∃ text : String, Layout tokens text.toList) ∧
    ∀ text : String, Layout tokens text.toList → ∀ (name : String) (reading : Nat),
      ∃ result, (Source.ofText name text reading).tokens = .ok result ∧
        result.map Located.value = tokens ++ [.eof] := by
  constructor
  · obtain ⟨chars, hlayout⟩ := exists_layout h
    exact ⟨String.ofList chars, by rwa [String.toList_ofList]⟩
  · intro text hlayout name reading
    obtain ⟨q, found, hread, hfound⟩ := Scanner.read_layout hlayout h .origin
    have hscan : scan (Source.ofText name text reading).items =
        (found ++ [(⟨.eof, q.cell⟩ : Located Token)]).map .ok := by
      have hanswers := Scanner.answers_append Scanner.initial
        (Text.closed (Text.unreturned text.toList)) []
      rw [Scanner.initial, hread, List.append_nil, ← Source.characters_ofText_eq name text reading,
        Source.characters_ofText] at hanswers
      rw [Source.items_ofText, List.map_append]
      exact hanswers
    refine ⟨found ++ [⟨.eof, q.cell⟩], ?_, by simp [hfound]⟩
    rw [Source.tokens, tokens_eq_ok_iff, hscan]
    simp [Answer.errors, Answer.tokens, List.filterMap_map]

/-- A keyword in two cases, the greatest integer behind zeros, a raw return and an escaped quote,
and comments that would be lexemes without their separators. -/
theorem tokens_ofText_layout_mixed :
    let tokens : List Token := [.keyword .fn, .ident ⟨"_x9"⟩, .integer 9223372036854775807,
      .character '\r', .character '\x27', .symbol .slash, .symbol .ellipsis]
    let text := "Fn _x9 // -> 'a'\r\n\t009223372036854775807 '\r'\n'\\'' /\r\n//\n..."
    (∀ t ∈ tokens, t.Writable) ∧ Layout tokens text.toList ∧
      ∃ result, (Source.ofText "mixed" text 0).tokens = .ok result ∧
        result.map Located.value = tokens ++ [.eof] := by
  intro tokens text
  have hkeywords : ∀ k ∈ Keyword.all, Ident.same ⟨"_x9"⟩ ⟨k.text⟩ = false := by decide +kernel
  have hwritable : ∀ t ∈ tokens, t.Writable := by
    intro t ht
    simp only [tokens, List.mem_cons, List.not_mem_nil, or_false] at ht
    rcases ht with rfl | rfl | rfl | rfl | rfl | rfl | rfl
    · trivial
    · exact ⟨by decide +kernel, fun k => hkeywords k k.mem_all⟩
    · exact Nat.le_refl 9223372036854775807
    · trivial
    · trivial
    · trivial
    · trivial
  have hcomment : Separator (' ' :: "// -> 'a'\r\n\t".toList) := by
    refine ⟨[' '], by decide, ["// -> 'a'\r\n".toList, ['\t']], ?_, by decide +kernel⟩
    simp only [List.forall_mem_cons, List.not_mem_nil, false_implies, implies_true, and_true]
    refine ⟨.inr ⟨" -> 'a'".toList, by decide +kernel, ['\r', '\n'], by decide, by decide +kernel⟩,
      .inl (by decide)⟩
  have hempty : Separator "\r\n//\n".toList := by
    refine ⟨['\r', '\n'], by decide, ["//\n".toList], ?_, by decide +kernel⟩
    simp only [List.forall_mem_cons, List.not_mem_nil, false_implies, implies_true, and_true]
    exact .inr ⟨[], by simp, ['\n'], by decide, by decide +kernel⟩
  have hspace : Separator [' '] := separator_of_blank (by decide)
  have hfeed : Separator ['\n'] := separator_of_blank (by decide)
  have hlayout : Layout tokens ("Fn".toList ++ ([' '] ++ ("_x9".toList ++ (_ ++
      ((List.replicate 2 '0' ++ Nat.toDigits 10 9223372036854775807) ++ ([' '] ++
      (('\x27' :: (escaped '\r' ++ ['\x27'])) ++ (['\n'] ++
      (('\x27' :: (escaped '\x27' ++ ['\x27'])) ++ ([' '] ++
      (Symbol.slash.text.toList ++ (_ ++ Symbol.ellipsis.text.toList)))))))))))) :=
    .cons (.keyword .fn (by decide +kernel)) hspace <| .cons (.ident ⟨"_x9"⟩) hcomment <|
      .cons (.integer 2 _) hspace <| .cons (.character _) hfeed <|
      .cons (.character _) hspace <| .cons (.symbol _) hempty <| .last (.symbol _)
  have htext : Layout tokens text.toList := by
    convert hlayout using 1
    decide +kernel
  exact ⟨hwritable, htext, (tokens_ofText_layout tokens hwritable).2 text htext "mixed" 0⟩

end FrontEnd
