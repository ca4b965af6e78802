import FrontEnd.Token.Scanner
import Mathlib.Tactic.Common

/-!
# How tokens are written

A token is written as a lexeme, and lexemes are parted by gaps: blanks and comments.  The
relations here say which characters write which token, without reference to the scanner.
What the scanner knows inside a lexeme is then one more relation, `Progress`, between its
record and the characters that it has read, and one lemma for each thing that can come next
says what that relation turns into.

## Main definitions

* `Spells lexeme token`: the characters of `lexeme` write `token`.
* `Gap chars`: the characters hold no lexeme.
* `Token.endsBefore`: whether a lexeme of the token would not go on with the next character.

## Main statements

* `Progress.step`: what the next character does to the characters read so far.
* `Progress.finish`: what the end of the characters does to them.
-/

namespace FrontEnd

/-! ## Lexemes -/

/-- The characters of a word. -/
def IsWord : List Char → Prop
  | [] => False
  | c :: rest => isWordStart c = true ∧ ∀ d ∈ rest, isWordChar d = true

/-- The value of a run of decimal digits. -/
def decimal (digits : List Char) : Nat :=
  digits.foldl (fun value c => value * 10 + digitValue c) 0

@[simp] theorem decimal_singleton (c : Char) : decimal [c] = digitValue c := by
  simp [decimal]

@[simp] theorem decimal_append_singleton (digits : List Char) (c : Char) :
    decimal (digits ++ [c]) = decimal digits * 10 + digitValue c := by
  simp [decimal]

variable {c : Char} {lexeme : Lexeme} {chars : List Char}

theorem IsWord.push {word : List Char} (h : IsWord word) (hc : isWordChar c = true) :
    IsWord (word ++ [c]) := by
  cases word with
  | nil => exact h.elim
  | cons first rest =>
    constructor
    · exact h.1
    · intro d hd
      rcases List.mem_append.mp hd with hd | hd
      · exact h.2 d hd
      · rwa [List.mem_singleton.mp hd]

/-- The characters that write a token. -/
inductive Spells : List Char → Token → Prop
  | symbol (sign : Symbol) : Spells sign.text.toList (.symbol sign)
  /-- A keyword is a word that spells it in any mix of cases. -/
  | keyword {word : List Char} (reserved : Keyword) : IsWord word →
      Ident.same ⟨String.ofList word⟩ ⟨reserved.text⟩ = true → Spells word (.keyword reserved)
  /-- A name is a word that spells no keyword, and keeps its spelling. -/
  | ident {word : List Char} : IsWord word →
      (∀ reserved : Keyword, Ident.same ⟨String.ofList word⟩ ⟨reserved.text⟩ = false) →
      Spells word (.ident ⟨String.ofList word⟩)
  | integer {digits : List Char} : digits ≠ [] → (∀ c ∈ digits, c.isDigit = true) →
      decimal digits ≤ maxInteger → Spells digits (.integer (decimal digits))
  | character {c : Char} : c ≠ '\\' → c ≠ '\x27' → c ≠ '\n' →
      Spells ['\x27', c, '\x27'] (.character c)
  | escape {mark c : Char} : unescape? mark = some c →
      Spells ['\x27', '\\', mark, '\x27'] (.character c)

theorem Spells.ne_nil {lexeme : List Char} {token : Token} (h : Spells lexeme token) :
    lexeme ≠ [] := by
  cases h with
  | symbol sign => cases sign <;> decide
  | keyword reserved hword _ =>
    intro hnil
    rw [hnil] at hword
    exact hword
  | ident hword _ =>
    intro hnil
    rw [hnil] at hword
    exact hword
  | integer hne _ _ => exact hne
  | character _ _ _ => simp
  | escape _ => simp

theorem Spells.ne_eof {lexeme : List Char} (h : Spells lexeme .eof) : False := by
  cases h

theorem Keyword.mem_all (reserved : Keyword) : reserved ∈ Keyword.all := by
  cases reserved with
  | truth value => cases value <;> decide
  | prim type =>
    cases type with
    | int width => cases width <;> decide
    | bool | char | void => decide
  | module | fn | external | global | struct | binding | ret => decide

/-- A word writes the keyword that it spells, or else the name of its own spelling. -/
theorem IsWord.spells {word : List Char} (h : IsWord word) :
    Spells word (Token.ofWord (String.ofList word)) := by
  unfold Token.ofWord
  cases hfind : Keyword.ofWord? ⟨String.ofList word⟩ with
  | some reserved =>
    have hsame := List.find?_some (p := fun keyword : Keyword => Ident.same _ ⟨keyword.text⟩) hfind
    exact .keyword reserved h hsame
  | none =>
    apply Spells.ident h
    intro reserved
    have hnot := List.find?_eq_none.mp hfind reserved reserved.mem_all
    simpa using hnot

/-- Whether a lexeme of the token is over before the next character: that character would
not make it longer. -/
def Token.endsBefore (token : Token) (next : Option Char) : Bool :=
  match token with
  | .symbol .minus => next != some '>'
  | .symbol .slash => next != some '/'
  | .ident _ | .keyword _ => next.all fun c => !isWordChar c
  | .integer _ => next.all fun c => !c.isDigit
  | .symbol _ | .character _ | .eof => true

/-- A word is over before a character that does not continue words. -/
theorem Token.endsBefore_ofWord {word : String} {next : Option Char}
    (h : next.all (fun c => !isWordChar c) = true) :
    (Token.ofWord word).endsBefore next = true := by
  unfold Token.ofWord
  cases Keyword.ofWord? ⟨word⟩ with
  | some reserved => exact h
  | none => exact h

/-! ## Gaps -/

/-- Characters that hold no lexeme: blanks, and comments up to the end of their line. -/
inductive Gap : List Char → Prop
  | nil : Gap []
  | blank {c : Char} {rest : List Char} : isBlank c = true → Gap rest → Gap (c :: rest)
  | comment {body rest : List Char} : '\n' ∉ body → Gap rest →
      Gap ('/' :: '/' :: (body ++ '\n' :: rest))

theorem Gap.append {first second : List Char} (h : Gap first) (h' : Gap second) :
    Gap (first ++ second) := by
  induction h with
  | nil => exact h'
  | blank hc _ ih => exact .blank hc ih
  | comment hbody _ ih =>
    have hgap := Gap.comment hbody ih
    simpa using hgap

/-! ## Lexemes in progress -/

/-- What the scanner records of a lexeme, and the characters that it has read of it. -/
inductive Progress : Lexeme → List Char → Prop
  /-- Nothing that may follow would make a complete lexeme longer. -/
  | complete {token : Token} {chars : List Char} : Spells chars token →
      (∀ next, token.endsBefore next = true) → Progress (.complete token) chars
  | slash : Progress .slash ['/']
  | comment {body : List Char} : '\n' ∉ body → Progress .comment ('/' :: '/' :: body)
  | dash : Progress .dash ['-']
  | dot : Progress .dot ['.']
  | twoDots : Progress .twoDots ['.', '.']
  | integer {value : Nat} {digits : List Char} : digits ≠ [] →
      (∀ c ∈ digits, c.isDigit = true) → decimal digits = value → value ≤ maxInteger →
      Progress (.integer value) digits
  | quote : Progress .quote ['\x27']
  | escape : Progress .escape ['\x27', '\\']
  /-- The closing quote is all that lacks. -/
  | quoted {c : Char} {chars : List Char} : chars ≠ [] →
      Spells (chars ++ ['\x27']) (.character c) → Progress (.quoted c) chars
  | word {text : String} {chars : List Char} : IsWord chars → text = String.ofList chars →
      Progress (.word text) chars

theorem Progress.ne_nil (h : Progress lexeme chars) : chars ≠ [] := by
  cases h with
  | complete hspells _ => exact hspells.ne_nil
  | integer hne _ _ _ => exact hne
  | quoted hne _ => exact hne
  | word hword _ =>
    intro hnil
    rw [hnil] at hword
    exact hword
  | slash | comment _ | dash | dot | twoDots | quote | escape => simp

theorem eq_or_of_ite_eq_some {d : Char} {sign sign' : Symbol} {others : Option Symbol}
    (h : (if c = d then some sign else others) = some sign') :
    (c = d ∧ sign = sign') ∨ others = some sign' := by
  by_cases hc : c = d
  · rw [if_pos hc] at h
    exact .inl ⟨hc, Option.some.inj h⟩
  · rw [if_neg hc] at h
    exact .inr h

/-- A symbol of one character writes that character, and is never the start of another. -/
theorem Symbol.ofChar?_spec {sign : Symbol} (h : Symbol.ofChar? c = some sign) :
    sign.text.toList = [c] ∧ ∀ next, (Token.symbol sign).endsBefore next = true := by
  unfold Symbol.ofChar? at h
  iterate 14
    rcases eq_or_of_ite_eq_some h with ⟨rfl, rfl⟩ | h
    · exact ⟨rfl, fun _ => rfl⟩
  cases h

theorem digitValue_le (c : Char) (h : c.isDigit = true) : digitValue c ≤ maxInteger := by
  have hc : c.toNat ≤ '9'.toNat := by
    simp only [Char.isDigit, Bool.and_eq_true, decide_eq_true_eq] at h
    exact h.2
  have hnine : digitValue c ≤ '9'.toNat - '0'.toNat := Nat.sub_le_sub_right hc _
  exact Nat.le_trans hnine (by decide)

/-- What a character met between two lexemes is the start of. -/
theorem Lexeme.start_progress (h : Lexeme.start c = .ok (some lexeme)) : Progress lexeme [c] := by
  unfold Lexeme.start at h
  split at h
  case h_1 sign hsign =>
    cases h
    obtain ⟨htext, hends⟩ := Symbol.ofChar?_spec hsign
    exact .complete (htext ▸ .symbol sign) hends
  case h_2 =>
    split_ifs at h with hslash hdash hdot hquote hword hdigit
    all_goals cases h
    · exact hslash ▸ .slash
    · exact hdash ▸ .dash
    · exact hdot ▸ .dot
    · exact hquote ▸ .quote
    · exact .word ⟨hword, by simp⟩ rfl
    · exact .integer (by simp) (by simpa using hdigit) (by simp) (digitValue_le c hdigit)

/-- What is skipped between two lexemes is blank. -/
theorem Lexeme.isBlank_of_start (h : Lexeme.start c = .ok none) : isBlank c = true := by
  by_contra hblank
  unfold Lexeme.start at h
  split at h
  case h_1 => cases h
  case h_2 => split_ifs at h <;> cases h

/-- What one more character makes of a lexeme and of the characters read of it. -/
theorem Progress.step (h : Progress lexeme chars) (c : Char) : match lexeme.step c with
    | .extend longer => Progress longer (chars ++ [c])
    | .close => Gap (chars ++ [c])
    | .emit token => Spells chars token ∧ token.endsBefore (some c) = true
    | .fail _ => True := by
  cases h with
  | complete hspells hends => exact ⟨hspells, hends _⟩
  | slash =>
    by_cases hc : c = '/'
    · simp only [Lexeme.step, hc, if_true]
      exact .comment (List.not_mem_nil)
    · simp only [Lexeme.step, hc, if_false]
      exact ⟨.symbol .slash, by simpa [Token.endsBefore] using hc⟩
  | @comment body hbody =>
    by_cases hc : c = '\n'
    · simp only [Lexeme.step, hc, if_true]
      exact .comment hbody .nil
    · simp only [Lexeme.step, hc, if_false]
      have hlonger : '\n' ∉ body ++ [c] := by simp [hbody, Ne.symm hc]
      exact .comment hlonger
  | dash =>
    by_cases hc : c = '>'
    · simp only [Lexeme.step, hc, if_true]
      exact .complete (.symbol .arrow) fun _ => rfl
    · simp only [Lexeme.step, hc, if_false]
      exact ⟨.symbol .minus, by simpa [Token.endsBefore] using hc⟩
  | dot =>
    by_cases hc : c = '.'
    · simp only [Lexeme.step, hc, if_true]
      exact .twoDots
    · simp only [Lexeme.step, hc, if_false]
  | twoDots =>
    by_cases hc : c = '.'
    · simp only [Lexeme.step, hc, if_true]
      exact .complete (.symbol .ellipsis) fun _ => rfl
    · simp only [Lexeme.step, hc, if_false]
  | @integer value digits hne hdigits hvalue hrange =>
    by_cases hc : c.isDigit = true
    · by_cases hfits : value * 10 + digitValue c ≤ maxInteger
      · simp only [Lexeme.step, hc, hfits, if_true]
        apply Progress.integer (by simp) _ (by simp [hvalue]) hfits
        intro d hd
        rcases List.mem_append.mp hd with hd | hd
        · exact hdigits d hd
        · rwa [List.mem_singleton.mp hd]
      · simp only [Lexeme.step, hc, hfits, if_true, if_false]
    · simp only [Lexeme.step, hc]
      subst hvalue
      exact ⟨.integer hne hdigits hrange, by simpa [Token.endsBefore] using hc⟩
  | quote =>
    by_cases hback : c = '\\'
    · simp only [Lexeme.step, hback, if_true]
      exact .escape
    · by_cases hbad : c = '\x27' ∨ c = '\n'
      · simp only [Lexeme.step, hback, hbad, if_true, if_false]
      · simp only [Lexeme.step, hback, hbad, if_false]
        obtain ⟨hquote, hfeed⟩ := not_or.mp hbad
        exact .quoted (by simp) (.character hback hquote hfeed)
  | escape =>
    cases hmark : unescape? c with
    | some value =>
      simp only [Lexeme.step, hmark]
      exact .quoted (by simp) (.escape hmark)
    | none => simp only [Lexeme.step, hmark]
  | quoted hne hspells =>
    by_cases hc : c = '\x27'
    · simp only [Lexeme.step, hc, if_true]
      exact .complete hspells fun _ => rfl
    · simp only [Lexeme.step, hc, if_false]
  | @word text _ hword htext =>
    subst htext
    by_cases hc : isWordChar c = true
    · simp only [Lexeme.step, hc, if_true]
      exact .word (hword.push hc) (by simp)
    · simp only [Lexeme.step, hc]
      exact ⟨hword.spells, Token.endsBefore_ofWord (by simpa using hc)⟩

/-- What the end of the characters makes of a lexeme.  It leaves a comment without its
line feed. -/
theorem Progress.finish (h : Progress lexeme chars) : match lexeme.finish with
    | none => '\n' ∉ chars
    | some (.ok token) => Spells chars token ∧ token.endsBefore none = true
    | some (.error _) => True := by
  cases h with
  | complete hspells hends => exact ⟨hspells, hends none⟩
  | slash => exact ⟨.symbol .slash, rfl⟩
  | comment hbody => simpa [Lexeme.finish] using hbody
  | dash => exact ⟨.symbol .minus, rfl⟩
  | integer hne hdigits hvalue hrange =>
    subst hvalue
    exact ⟨.integer hne hdigits hrange, rfl⟩
  | word hword htext =>
    subst htext
    exact ⟨hword.spells, Token.endsBefore_ofWord rfl⟩
  | dot | twoDots | quote | escape | quoted _ _ => trivial

end FrontEnd
