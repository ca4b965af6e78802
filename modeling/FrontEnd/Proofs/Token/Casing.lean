import Mathlib
import FrontEnd.Proofs.Token.Writing
import FrontEnd.Proofs.Tree.Rendering

/-!
# Scanning ignores the case of letters

Two texts that differ only in the case of ASCII letters, and in none right after a quote or a
backslash, have the same lexical errors, or tokens at the same places that are the same but for the
spelling of names.

Two scanners are alike if they become equal once the words that they hold are put in small letters.
Characters that differ only in case leave alike scanners alike, unless the scanner stands inside a
character literal; and there the character before was a quote or a backslash.

## Main definitions

* `Ident.folded`, `Token.folded`: names and tokens in small letters.
* `Recased`: two texts that differ in the case of letters only.
* `Recasing`: the same for characters, one after the other.

## Main statements

* `Scanner.answers_recasing`: alike scanners give alike answers.
* `Source.tokens_recased`: the tokens of two such texts.
-/

namespace FrontEnd

/-! ## Small letters -/

/-- A name in small letters. -/
def Ident.folded (i : Ident) : Ident := ⟨String.ofList i.key⟩

@[simp] theorem Ident.key_folded (i : Ident) : i.folded.key = i.key := by
  simp [folded, key]

theorem Ident.folded_eq_iff {i j : Ident} : i.folded = j.folded ↔ i.key = j.key := by
  rw [folded, folded, Ident.mk.injEq, String.ofList_inj]

theorem Ident.same_folded (i j : Ident) : i.folded.same j.folded = i.same j := by
  simp [same]

/-- A token whose name is in small letters. -/
def Token.folded : Token → Token := Token.rename Ident.folded

/-- Tokens that are equal in small letters are the same. -/
theorem Token.same_of_folded {t t' : Token} (h : t.folded = t'.folded) : t.same t' = true := by
  cases t with
  | ident name =>
    cases t' with
    | ident name' => exact Ident.same_iff.mpr (Ident.folded_eq_iff.mp (Token.ident.inj h))
    | _ => cases h
  | _ =>
    cases t' with
    | ident name' => cases h
    | _ => exact beq_iff_eq.mpr h

/-- Lists of tokens that are the same in small letters hold the same tokens at the same places. -/
theorem Token.forall₂_same_of_folded {tokens tokens' : List (Located Token)}
    (h : tokens.map (Located.map folded) = tokens'.map (Located.map folded)) :
    List.Forall₂ (fun t t' => t.span = t'.span ∧ t.value.same t'.value = true) tokens tokens' := by
  have hpairs : List.Forall₂ (fun t t' => t.map folded = t'.map folded) tokens tokens' := by
    have hlists : List.Forall₂ (· = ·) (tokens.map (Located.map folded))
        (tokens'.map (Located.map folded)) := List.forall₂_eq_eq_eq ▸ h
    simpa only [List.forall₂_map_left_iff, List.forall₂_map_right_iff] using hlists
  refine hpairs.imp fun t t' htoken => ⟨?_, same_of_folded (congrArg Located.value htoken)⟩
  exact (Located.mk.inj htoken).2

/-- A word is a keyword or a name whatever the case of its letters. -/
theorem Token.folded_ofWord {word word' : String}
    (h : (Ident.mk word).key = (Ident.mk word').key) :
    (ofWord word).folded = (ofWord word').folded := by
  have hkeyword : Keyword.ofWord? ⟨word⟩ = Keyword.ofWord? ⟨word'⟩ := by
    simp only [Keyword.ofWord?, Ident.same, h]
  rw [ofWord, ofWord, hkeyword]
  cases Keyword.ofWord? ⟨word'⟩ with
  | some reserved => rfl
  | none => exact congrArg ident (Ident.folded_eq_iff.mpr h)

/-! ## Letters -/

section Letters

variable {c c' : Char}

/-- Characters that differ in case only are letters. -/
theorem eq_or_isAlpha_of_toLower_eq (h : c.toLower = c'.toLower) :
    c = c' ∨ c.isAlpha = true ∧ c'.isAlpha = true := by
  have halpha : c.isAlpha = c'.isAlpha := by
    rw [← Char.isAlpha_toLower_eq_isAlpha c, h, Char.isAlpha_toLower_eq_isAlpha]
  by_cases hc : c.isAlpha = true
  · exact .inr ⟨hc, halpha ▸ hc⟩
  · have hlower : ∀ d : Char, d.isAlpha ≠ true → d.toLower = d := by
      intro d hd
      rcases isUpper_or_toLower_eq d with hupper | hlower
      · exact absurd (Bool.or_eq_true_iff.mpr (.inl hupper)) hd
      · exact hlower
    exact .inl (by rw [← hlower c hc, h, hlower c' (halpha ▸ hc)])

theorem ne_of_isAlpha {x : Char} (h : c.isAlpha = true) (hx : x.isAlpha = false) : c ≠ x := by
  rintro rfl
  rw [h] at hx
  cases hx

theorem isWordStart_of_isAlpha (h : c.isAlpha = true) : isWordStart c = true := by
  rw [isWordStart, h, Bool.true_or]

theorem isDigit_of_isAlpha (h : c.isAlpha = true) : c.isDigit = false := by
  by_contra hdigit
  have hword := isWordStart_of_isDigit (Bool.not_eq_false _ ▸ hdigit)
  rw [isWordStart_of_isAlpha h] at hword
  cases hword

/-- The case of a letter does not move the position after it. -/
theorem Position.after_eq_of_toLower_eq (h : c.toLower = c'.toLower) (p : Position) :
    p.after c = p.after c' := by
  rcases eq_or_isAlpha_of_toLower_eq h with rfl | ⟨hc, hc'⟩
  · rfl
  · simp [after, ne_of_isAlpha hc, ne_of_isAlpha hc']

end Letters

/-! ## Texts -/

/-- Whether the character after this one has to keep its case. -/
def holdsCase (c : Char) : Bool := c == '\x27' || c == '\\'

/-- Two texts are the same but for the case of ASCII letters, none of which comes right after a
quote or a backslash. -/
structure Recased (text text' : String) : Prop where
  lower_eq : text.toList.map Char.toLower = text'.toList.map Char.toLower
  held : ∀ i c, text.toList[i]? = some c → holdsCase c = true →
    text.toList[i + 1]? = text'.toList[i + 1]?

instance (text text' : String) : Decidable (Recased text text') :=
  decidable_of_iff (text.toList.map Char.toLower = text'.toList.map Char.toLower ∧
      ∀ i (hi : i < text.toList.length), holdsCase text.toList[i] = true →
        text.toList[i + 1]? = text'.toList[i + 1]?)
    ⟨fun h => ⟨h.1, fun i c hc hholds => by
        obtain ⟨hi, rfl⟩ := List.getElem?_eq_some_iff.mp hc
        exact h.2 i hi hholds⟩,
      fun h => ⟨h.lower_eq, fun i hi => h.held i _ (List.getElem?_eq_getElem hi)⟩⟩

/-- A character is the same in both texts if the one before it holds its case. -/
def KeepsCase (p q : Char × Char) : Prop := holdsCase p.1 = true → q.1 = q.2

/-- The characters of two texts, in pairs, differ in case only, and not where it is held. -/
structure Recasing (pairs : List (Char × Char)) : Prop where
  lower_eq : ∀ p ∈ pairs, p.1.toLower = p.2.toLower
  held : pairs.IsChain KeepsCase

variable {text text' : String}

/-- The characters of two texts that differ in case only. -/
theorem Recased.exists_recasing (h : Recased text text') :
    ∃ pairs : List (Char × Char), pairs.map Prod.fst = text.toList ∧
      pairs.map Prod.snd = text'.toList ∧ Recasing pairs := by
  have hlength : text.toList.length = text'.toList.length := by
    simpa using congrArg List.length h.lower_eq
  refine ⟨text.toList.zip text'.toList, List.map_fst_zip hlength.le, List.map_snd_zip hlength.ge,
    ?_, List.isChain_iff_getElem.mpr ?_⟩
  · intro p hp
    obtain ⟨i, hi, rfl⟩ := List.mem_iff_getElem.mp hp
    rw [List.length_zip, Nat.lt_min] at hi
    have hlower := congrArg (·[i]?) h.lower_eq
    simpa [hi] using hlower
  · intro i hi
    rw [List.length_zip, Nat.lt_min] at hi
    have hfirst : i < text.toList.length := Nat.lt_of_succ_lt hi.1
    have hheld := h.held i _ (List.getElem?_eq_getElem hfirst)
    simpa [KeepsCase, hi] using hheld

namespace Recasing

variable {pairs line : List (Char × Char)}

theorem append_iff {first second : List (Char × Char)} : Recasing (first ++ second) ↔
    Recasing first ∧ Recasing second ∧
      ∀ p ∈ first.getLast?, ∀ q ∈ second.head?, KeepsCase p q := by
  constructor
  · intro h
    obtain ⟨hfirst, hsecond, hjoint⟩ := List.isChain_append.mp h.held
    obtain ⟨hlower, hlower'⟩ := List.forall_mem_append.mp h.lower_eq
    exact ⟨⟨hlower, hfirst⟩, ⟨hlower', hsecond⟩, hjoint⟩
  · intro ⟨h, h', hjoint⟩
    exact ⟨List.forall_mem_append.mpr ⟨h.lower_eq, h'.lower_eq⟩, h.held.append h'.held hjoint⟩

theorem singleton (c : Char) : Recasing [(c, c)] := ⟨by simp, .singleton _⟩

/-- A character that is no letter stands in both texts. -/
theorem eq_of_mark {p : Char × Char} {x : Char} (h : p.1.toLower = p.2.toLower)
    (hx : x.isAlpha = false) : p.1 = x ∨ p.2 = x → p = (x, x) := by
  rintro (hp | hp)
  all_goals
    rcases eq_or_isAlpha_of_toLower_eq h with heq | ⟨hfirst, hsecond⟩
  · exact Prod.ext hp (heq ▸ hp)
  · exact absurd hp (ne_of_isAlpha hfirst hx)
  · exact Prod.ext (heq ▸ hp) hp
  · exact absurd hp (ne_of_isAlpha hsecond hx)

end Recasing

/-! ## Lines -/

namespace Text

/-- Cutting into lines goes by the line feeds and carriage returns only. -/
theorem cutLines_map {α β : Type} [DecidableEq α] [DecidableEq β] {f : α → β} {feed ret : α}
    {line chars : List α} (hfeed : ∀ x ∈ chars, f x = f feed → x = feed)
    (hret : ∀ x ∈ line ++ chars, f x = f ret → x = ret) :
    cutLines (f feed) (f ret) (line.map f) (chars.map f) =
      (cutLines feed ret line chars).map (List.map f) := by
  have hdrop : ∀ l : List α, (∀ x ∈ l, f x = f ret → x = ret) →
      dropHead (f ret) (l.map f) = (dropHead ret l).map f := by
    intro l hl
    cases l with
    | nil => rfl
    | cons y rest =>
      have hy : f y = f ret ↔ y = ret := ⟨hl y List.mem_cons_self, congrArg f⟩
      simp only [List.map_cons, dropHead, hy]
      split <;> rfl
  induction chars generalizing line with
  | nil =>
    simp only [List.map_nil, cutLines, List.isEmpty_map]
    split <;> simp
  | cons x rest ih =>
    obtain ⟨hfirst, hrest⟩ := List.forall_mem_cons.mp hfeed
    obtain ⟨hline, htail⟩ := List.forall_mem_append.mp hret
    obtain ⟨hlast, hlater⟩ := List.forall_mem_cons.mp htail
    have hx : f x = f feed ↔ x = feed := ⟨hfirst, congrArg f⟩
    simp only [List.map_cons, cutLines, hx]
    split
    · rw [hdrop line hline, ← List.map_nil (f := f), ih hrest hlater, List.map_cons,
        List.map_reverse]
    · have hlonger := List.forall_mem_append.mpr
        ⟨List.forall_mem_cons.mpr ⟨hlast, hline⟩, hlater⟩
      rw [← List.map_cons (f := f), ih hrest hlonger]

/-- The characters that lines are read as: those of each line, and a line feed. -/
def fed {α : Type} [DecidableEq α] (feed ret : α) (line chars : List α) : List α :=
  (cutLines feed ret line chars).flatMap (· ++ [feed])

end Text

/-- Lines of texts that differ in case only differ in case only. -/
theorem Recasing.fed {line pairs : List (Char × Char)} (h : Recasing (line.reverse ++ pairs)) :
    Recasing (Text.fed ('\n', '\n') ('\r', '\r') line pairs) := by
  have hend : ∀ {first : List (Char × Char)}, Recasing first →
      Recasing (first ++ [('\n', '\n')]) := by
    intro first hfirst
    refine append_iff.mpr ⟨hfirst, singleton '\n', ?_⟩
    rintro p - q hq
    cases hq
    exact fun _ => rfl
  induction pairs generalizing line with
  | nil =>
    rw [List.append_nil] at h
    simp only [Text.fed, Text.cutLines]
    split
    · exact ⟨by simp, .nil⟩
    · simpa using hend h
  | cons p rest ih =>
    simp only [Text.fed, Text.cutLines]
    split
    · -- the line ends, and what ends it holds no case
      have hline : Recasing (Text.dropHead ('\r', '\r') line).reverse := by
        have hwhole := (append_iff.mp h).1
        cases line with
        | nil => exact hwhole
        | cons q line =>
          simp only [Text.dropHead]
          split
          · rw [List.reverse_cons] at hwhole
            exact (append_iff.mp hwhole).1
          · exact hwhole
      have hrest : Recasing ([p] ++ rest) := (append_iff.mp h).2.1
      rw [List.flatMap_cons]
      refine append_iff.mpr ⟨hend hline, ih (append_iff.mp hrest).2.1, ?_⟩
      intro q hq
      rw [List.getLast?_append_of_ne_nil _ (by simp)] at hq
      cases hq
      exact fun _ _ hheld => by cases hheld
    · refine ih ?_
      rwa [List.reverse_cons, List.append_assoc, List.singleton_append]

/-! ## Lexemes -/

/-- A lexeme whose word is in small letters. -/
def Lexeme.folded : Lexeme → Lexeme
  | .complete token => .complete token.folded
  | .word text => .word (Ident.folded ⟨text⟩).text
  | lexeme => lexeme

/-- What a character does to a lexeme, in small letters. -/
def Step.folded : Step → Step
  | .extend lexeme => .extend lexeme.folded
  | .emit token => .emit token.folded
  | step => step

/-- Steps that are alike in small letters are equal, but for lexemes and tokens. -/
theorem Step.folded_cases {step step' : Step} (h : step.folded = step'.folded) : step = step' ∨
    (∃ lexeme lexeme', step = .extend lexeme ∧ step' = .extend lexeme' ∧
      lexeme.folded = lexeme'.folded) ∨
    ∃ token token', step = .emit token ∧ step' = .emit token' ∧ token.folded = token'.folded := by
  cases step with
  | extend lexeme =>
    cases step' with
    | extend lexeme' => exact .inr (.inl ⟨lexeme, lexeme', rfl, rfl, extend.inj h⟩)
    | _ => cases h
  | emit token =>
    cases step' with
    | emit token' => exact .inr (.inr ⟨token, token', rfl, rfl, emit.inj h⟩)
    | _ => cases h
  | _ =>
    cases step' with
    | extend lexeme' => cases h
    | emit token' => cases h
    | _ => exact .inl h

/-- Whether the next character stands for itself: inside a character literal. -/
def Lexeme.isOpen : Lexeme → Bool
  | .quote | .escape => true
  | _ => false

section Lexemes

variable {c c' : Char} {lexeme lexeme' : Lexeme}

theorem Lexeme.folded_word {text text' : String} :
    (word text).folded = (word text').folded ↔ (Ident.mk text).key = (Ident.mk text').key := by
  rw [← Ident.folded_eq_iff]
  simp only [folded, word.injEq]
  exact ⟨congrArg Ident.mk, congrArg Ident.text⟩

theorem Lexeme.folded_push {text text' : String} (h : (Ident.mk text).key = (Ident.mk text').key)
    (hc : c.toLower = c'.toLower) :
    (word (text.push c)).folded = (word (text'.push c')).folded := by
  simp only [Ident.key] at h
  simp [folded_word, Ident.key, h, hc]

/-- What is alike in small letters is equal, but for words and for names. -/
theorem Lexeme.folded_cases (h : lexeme.folded = lexeme'.folded) : lexeme = lexeme' ∨
    (∃ token token', lexeme = .complete token ∧ lexeme' = .complete token' ∧
      token.folded = token'.folded) ∨
    ∃ text text', lexeme = .word text ∧ lexeme' = .word text' ∧
      (Ident.mk text).key = (Ident.mk text').key := by
  cases lexeme with
  | complete token =>
    cases lexeme' with
    | complete token' => exact .inr (.inl ⟨token, token', rfl, rfl, complete.inj h⟩)
    | _ => cases h
  | word text =>
    cases lexeme' with
    | word text' => exact .inr (.inr ⟨text, text', rfl, rfl, folded_word.mp h⟩)
    | _ => cases h
  | _ =>
    cases lexeme' with
    | complete token' => cases h
    | word text' => cases h
    | _ => exact .inl h

/-- The case of a letter does not matter to a lexeme, except inside a character literal. -/
theorem Lexeme.folded_step_of_toLower_eq (hc : c.toLower = c'.toLower)
    (hopen : lexeme.isOpen = true → c = c') :
    (lexeme.step c).folded = (lexeme.step c').folded := by
  rcases eq_or_isAlpha_of_toLower_eq hc with rfl | ⟨halpha, halpha'⟩
  · rfl
  have hword : ∀ {d : Char}, d.isAlpha = true → isWordChar d = true :=
    fun h => isWordChar_of_isWordStart (isWordStart_of_isAlpha h)
  cases lexeme with
  | quote => rw [hopen rfl]
  | escape => rw [hopen rfl]
  | integer value => simp [step, isDigit_of_isAlpha halpha, isDigit_of_isAlpha halpha']
  | word text =>
    simp only [step, hword halpha, hword halpha', if_true]
    exact congrArg Step.extend (folded_push rfl hc)
  | _ => simp [step, ne_of_isAlpha halpha, ne_of_isAlpha halpha']

theorem Lexeme.folded_step (h : lexeme.folded = lexeme'.folded) (hc : c.toLower = c'.toLower)
    (hopen : lexeme.isOpen = true → c = c') :
    (lexeme.step c).folded = (lexeme'.step c').folded := by
  rw [folded_step_of_toLower_eq hc hopen]
  rcases folded_cases h with rfl | ⟨token, token', rfl, rfl, htoken⟩ | ⟨text, text', rfl, rfl, hkey⟩
  · rfl
  · exact congrArg Step.emit htoken
  · simp only [step]
    split
    · exact congrArg Step.extend (folded_push hkey rfl)
    · exact congrArg Step.emit (Token.folded_ofWord hkey)

theorem Lexeme.folded_finish (h : lexeme.folded = lexeme'.folded) :
    lexeme.finish.map (Except.map Token.folded) = lexeme'.finish.map (Except.map Token.folded) := by
  rcases folded_cases h with rfl | ⟨token, token', rfl, rfl, htoken⟩ | ⟨text, text', rfl, rfl, hkey⟩
  · rfl
  · exact congrArg (some <| Except.ok ·) htoken
  · exact congrArg (some <| Except.ok ·) (Token.folded_ofWord hkey)

/-- A character literal is open only after a quote or a backslash. -/
theorem Lexeme.holdsCase_of_start (h : Lexeme.start c = .ok (some lexeme))
    (hopen : lexeme.isOpen = true) : holdsCase c = true := by
  cases Lexeme.start_progress h with
  | quote => rfl
  | _ => cases hopen

theorem Lexeme.holdsCase_of_step {longer : Lexeme} (h : lexeme.step c = .extend longer)
    (hopen : longer.isOpen = true) : holdsCase c = true := by
  cases lexeme with
  | complete token => cases h
  | quote =>
    simp only [step] at h
    split_ifs at h with hback
    · exact hback ▸ rfl
    · cases h
      cases hopen
  | escape =>
    simp only [step] at h
    split at h
    all_goals cases h
    cases hopen
  | _ =>
    simp only [step] at h
    split_ifs at h
    all_goals cases h
    all_goals cases hopen

end Lexemes

/-! ## Scanners -/

/-- An answer whose token is in small letters. -/
def Answer.folded : Answer → Answer := Except.map (Located.map Token.folded)

namespace Scanner

/-- A scanner whose lexeme is in small letters. -/
def folded (m : Scanner) : Scanner where
  phase := match m.phase with
    | .within lexeme start last => .within lexeme.folded start last
    | phase => phase
  next := m.next

/-- Whether a scanner stands inside a character literal. -/
def isOpen (m : Scanner) : Bool :=
  match m.phase with
  | .within lexeme _ _ => lexeme.isOpen
  | _ => false

/-- A scanner and its answers, in small letters. -/
def reply (r : Scanner × List Answer) : Scanner × List Answer :=
  (r.1.folded, r.2.map Answer.folded)

variable {m m' : Scanner} {c c' : Char} {after : Position}

theorem discard_eq (hc : c.toLower = c'.toLower) : discard c after = discard c' after := by
  rcases eq_or_isAlpha_of_toLower_eq hc with rfl | ⟨halpha, halpha'⟩
  · rfl
  · simp [discard, ne_of_isAlpha halpha, ne_of_isAlpha halpha']

theorem reply_enter (hnext : m.next = m'.next) (hc : c.toLower = c'.toLower) :
    reply (m.enter c after) = reply (m'.enter c' after) := by
  rcases eq_or_isAlpha_of_toLower_eq hc with rfl | ⟨halpha, halpha'⟩
  · rw [enter, enter, hnext]
  · have hword : (Lexeme.word (String.singleton c)).folded =
        (Lexeme.word (String.singleton c')).folded := by
      simp [Lexeme.folded_word, Ident.key, hc]
    rw [enter, enter, Lexeme.start_of_isWordStart (isWordStart_of_isAlpha halpha),
      Lexeme.start_of_isWordStart (isWordStart_of_isAlpha halpha'), hnext]
    simp [reply, folded, hword]

theorem reply_emit {r r' : Scanner × List Answer} {token token' : Token} {span : Span}
    (htoken : token.folded = token'.folded) (h : reply r = reply r') :
    reply (r.1, .token token span :: r.2) = reply (r'.1, .token token' span :: r'.2) := by
  have hfirst : Answer.folded (.token token span) = Answer.folded (.token token' span) :=
    congrArg (fun t => Answer.token t span) htoken
  simp only [reply, List.map_cons, hfirst]
  exact congrArg (fun p => (p.1, _ :: p.2)) h

/-- **One step.**  Scanners that are alike stay alike after characters that differ in case only,
which inside a character literal have to be equal. -/
theorem reply_feedChar (h : m.folded = m'.folded) (hc : c.toLower = c'.toLower)
    (hopen : m.isOpen = true → c = c') :
    reply (m.feedChar c after) = reply (m'.feedChar c' after) := by
  obtain ⟨phase, next⟩ := m
  obtain ⟨phase', next'⟩ := m'
  simp only [folded, mk.injEq] at h
  obtain ⟨hphase, rfl⟩ := h
  cases phase with
  | between =>
    cases phase' with
    | between => exact reply_enter rfl hc
    | _ => cases hphase
  | skipping =>
    cases phase' with
    | skipping => simp only [feedChar, discard_eq hc]
    | _ => cases hphase
  | within lexeme start last =>
    cases phase' with
    | within lexeme' start' last' =>
      simp only [Phase.within.injEq] at hphase
      obtain ⟨hlexeme, rfl, rfl⟩ := hphase
      simp only [feedChar]
      rcases Step.folded_cases (Lexeme.folded_step hlexeme hc hopen) with
        hstep | ⟨longer, longer', hstep, hstep', hlonger⟩ | ⟨token, token', hstep, hstep', htoken⟩
      · rw [hstep]
        cases hstep' : lexeme'.step c' with
        | extend longer => rfl
        | close => rfl
        | fail error => simp only [discard_eq hc]
        | emit token => exact reply_emit rfl (reply_enter rfl hc)
      · rw [hstep, hstep']
        simp only [reply, folded, hlonger, List.map_nil]
      · rw [hstep, hstep']
        exact reply_emit htoken (reply_enter rfl hc)
    | _ => cases hphase

theorem holdsCase_of_isOpen_enter (h : (m.enter c after).1.isOpen = true) :
    holdsCase c = true := by
  rw [enter] at h
  split at h
  · cases h
  · next lexeme hstart => exact Lexeme.holdsCase_of_start hstart h
  · rw [discard] at h
    split at h <;> cases h

theorem holdsCase_of_isOpen (h : (m.feedChar c after).1.isOpen = true) : holdsCase c = true := by
  rw [feedChar] at h
  split at h
  · exact holdsCase_of_isOpen_enter h
  · rw [discard] at h
    split at h <;> cases h
  · split at h
    · next longer hstep => exact Lexeme.holdsCase_of_step hstep h
    · cases h
    · rw [discard] at h
      split at h <;> cases h
    · exact holdsCase_of_isOpen_enter h

theorem folded_finish (h : m.folded = m'.folded) :
    m.finish.map Answer.folded = m'.finish.map Answer.folded := by
  obtain ⟨phase, next⟩ := m
  obtain ⟨phase', next'⟩ := m'
  simp only [folded, mk.injEq] at h
  obtain ⟨hphase, rfl⟩ := h
  cases phase with
  | within lexeme start last =>
    cases phase' with
    | within lexeme' start' last' =>
      simp only [Phase.within.injEq] at hphase
      obtain ⟨hlexeme, rfl, rfl⟩ := hphase
      have hfinish := Lexeme.folded_finish hlexeme
      simp only [finish]
      cases hf : lexeme.finish with
      | none =>
        cases hf' : lexeme'.finish with
        | none => rfl
        | some ending => simp [hf, hf'] at hfinish
      | some ending =>
        cases hf' : lexeme'.finish with
        | none => simp [hf, hf'] at hfinish
        | some ending' =>
          cases ending <;> cases ending' <;>
            simp_all [Except.map, Answer.folded, Answer.token, Answer.failure, Located.map]
    | _ => cases hphase
  | _ => cases phase' <;> simp_all [finish]

/-- **All steps.**  Scanners that are alike give alike answers to characters that differ in case
only. -/
theorem answers_recasing {pairs : List (Char × Char)} (hpairs : Recasing pairs)
    (h : m.folded = m'.folded)
    (hopen : m.isOpen = true → ∀ p ∈ pairs.head?, p.1 = p.2) :
    (m.answers (pairs.map Prod.fst)).map Answer.folded =
      (m'.answers (pairs.map Prod.snd)).map Answer.folded := by
  induction pairs generalizing m m' with
  | nil => exact folded_finish h
  | cons p rest ih =>
    obtain ⟨c, c'⟩ := p
    have hnext : m.next = m'.next := (Scanner.mk.inj h).2
    have hc : c.toLower = c'.toLower := hpairs.lower_eq (c, c') (by simp)
    have hafter := Position.after_eq_of_toLower_eq hc m.next
    have hstep := @reply_feedChar m m' c c' (m.next.after c) h hc fun hm => hopen hm (c, c') rfl
    simp only [reply, Prod.mk.injEq] at hstep
    have hrest := ih ⟨fun p hp => hpairs.lower_eq p (by simp [hp]), hpairs.held.tail⟩ hstep.1
      fun hm p hp => (List.isChain_cons.mp hpairs.held).1 p hp (holdsCase_of_isOpen hm)
    simp only [answers, next_feedChar] at hrest
    simp only [answers, List.map_cons, Source.charsFrom, run, feed, List.map_append, ← hnext,
      ← hafter]
    rw [hstep.2, hrest]

end Scanner

/-! ## Tokens -/

theorem Answer.errors_folded (answers : List Answer) :
    errors (answers.map folded) = errors answers := by
  rw [errors, errors, List.filterMap_map]
  congr 1
  funext answer
  cases answer <;> rfl

theorem Answer.tokens_folded (answers : List Answer) :
    tokens (answers.map folded) = (tokens answers).map (Located.map Token.folded) := by
  rw [tokens, tokens, List.filterMap_map, List.map_filterMap]
  congr 1
  funext answer
  cases answer <;> rfl

/-- One of two texts whose characters are paired is read as one side of the paired lines. -/
theorem Source.items_ofText_of_pairs {pairs : List (Char × Char)} {f : Char × Char → Char}
    (htext : pairs.map f = text.toList) (hf : ∀ x, f (x, x) = x)
    (hmarks : ∀ p ∈ pairs, ∀ x : Char, x.isAlpha = false → f p = x → p = (x, x)) (name : String)
    (reading : Nat) : (ofText name text reading).items =
      charsFrom .origin ((Text.fed ('\n', '\n') ('\r', '\r') [] pairs).map f) := by
  have hcut := @Text.cutLines_map _ _ _ _ f ('\n', '\n') ('\r', '\r') [] pairs
    (fun p hp heq => hmarks p hp '\n' rfl (heq.trans (hf _)))
    (fun p hp heq => hmarks p hp '\r' rfl (heq.trans (hf _)))
  rw [hf, hf, htext, List.map_nil] at hcut
  rw [items_ofText, Text.lines, hcut, Text.fed, List.map_flatMap, List.flatMap_map,
    List.flatMap_map]
  simp [hf]

/-- The answers to two texts that differ in case only are the same, in small letters. -/
theorem Source.scan_recased (h : Recased text text') (name : String) (reading : Nat) :
    (scan (ofText name text reading).items).map Answer.folded =
      (scan (ofText name text' reading).items).map Answer.folded := by
  obtain ⟨pairs, hfirst, hsecond, hpairs⟩ := h.exists_recasing
  have hmarks : ∀ p ∈ pairs, ∀ x : Char, x.isAlpha = false → p.1 = x ∨ p.2 = x → p = (x, x) :=
    fun p hp x hx => Recasing.eq_of_mark (hpairs.lower_eq p hp) hx
  rw [items_ofText_of_pairs hfirst (fun _ => rfl) fun p hp x hx heq => hmarks p hp x hx (.inl heq),
    items_ofText_of_pairs hsecond (fun _ => rfl) fun p hp x hx heq => hmarks p hp x hx (.inr heq)]
  have hlines : Recasing (Text.fed ('\n', '\n') ('\r', '\r') [] pairs) := .fed hpairs
  exact Scanner.answers_recasing hlines rfl fun hopen => by cases hopen

/-- **Scanning ignores case.**  Two texts that differ in case only have the same lexical errors, or
tokens that are the same in small letters, at the same places. -/
theorem Source.tokens_recased (h : Recased text text') (name : String) (reading : Nat) :
    (ofText name text reading).tokens.map (List.map (Located.map Token.folded)) =
      (ofText name text' reading).tokens.map (List.map (Located.map Token.folded)) := by
  have hscan := scan_recased h name reading
  have herrors := congrArg Answer.errors hscan
  have htokens := congrArg Answer.tokens hscan
  rw [Answer.errors_folded, Answer.errors_folded] at herrors
  rw [Answer.tokens_folded, Answer.tokens_folded] at htokens
  rw [Source.tokens, Source.tokens, FrontEnd.tokens, FrontEnd.tokens, herrors]
  split
  · exact congrArg Except.ok htokens
  · rfl

end FrontEnd
