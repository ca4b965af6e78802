import FrontEnd.Proofs.Lowering.Casing
import FrontEnd.Proofs.Lowering.Modules

/-!
# The language ignores the case of letters

Two texts that differ only in the case of ASCII letters, and in none right after a quote or a
backslash, fare alike.  Both are scanned or neither is; their trees and notices differ only in how
names are spelled; and both are lowered or refused, with the same error at the same place, to
programs that differ only in how names are spelled.

Each stage does in small letters what it does without, so what two texts come to is the same in
small letters.

## Main statements

* `lowerModule_recased`: what two such texts come to.
-/

namespace FrontEnd

open Grammar Lowering

/-- Two results that are the same once changed are the same errors, or both are values. -/
theorem eq_error_or_ok_of_map_eq {ε α β : Type} {f : α → β} {x y : Except ε α}
    (h : x.map f = y.map f) :
    (∃ error, x = .error error ∧ y = .error error) ∨
      ∃ a b, x = .ok a ∧ y = .ok b ∧ f a = f b := by
  cases x with
  | error error =>
    cases y with
    | error error' => exact .inl ⟨error, rfl, congrArg Except.error (Except.error.inj h).symm⟩
    | ok b => cases h
  | ok a =>
    cases y with
    | error error => cases h
    | ok b => exact .inr ⟨a, b, rfl, rfl, Except.ok.inj h⟩

/-! ## What parsing leaves -/

/-- What parsing leaves behind, in small letters. -/
def Grammar.Parsed.folded (p : Parsed) : Parsed where
  result := p.result
  store := p.store.folded
  notices := p.notices.map (Notice.rename Ident.folded)
  events := p.events.map Event.folded

theorem Rendering.parsed_folding : folding.parsed = Parsed.folded := by
  funext p
  obtain ⟨result, store, notices, events⟩ := p
  cases result <;> rfl

variable {tokens : List (Located Token)}

/-- Tokens that are the same in small letters are parsed to the same, in small letters. -/
theorem Grammar.parseModule_folded {tokens' : List (Located Token)}
    (h : tokens.map (Located.map Token.folded) = tokens'.map (Located.map Token.folded))
    (store : Store) (notices : Notices) : (parseModule tokens store notices).map Parsed.folded =
      (parseModule tokens' store notices).map Parsed.folded := by
  rw [← Rendering.parsed_folding, ← parseModule_rendering, ← parseModule_rendering]
  exact congrArg (parseModule · _ _) h

/-- The tokens of a text end with the end of the input. -/
theorem Source.getLast?_tokens {name text : String} {reading : Nat}
    (h : (ofText name text reading).tokens = .ok tokens) :
    (tokens.map Located.value).getLast? = some .eof := by
  rw [Source.tokens, FrontEnd.tokens, scan_ofText_eq] at h
  split at h
  · cases h
    simp [Answer.tokens, Answer.token]
  · cases h

/-- A text whose tokens are known is parsed. -/
theorem Source.exists_parsed {name text : String} {reading : Nat}
    (h : (ofText name text reading).tokens = .ok tokens) (store : Store) (notices : Notices) :
    ∃ parsed, parseModule tokens store notices = .ok parsed := by
  obtain ⟨cursor, hcursor⟩ := exists_ofTokens (getLast?_tokens h)
  exact ⟨_, parseModule_eq hcursor⟩

/-! ## What lowering leaves -/

namespace Lowering

/-- A module that was parsed is lowered or refused, whatever it is lowered into. -/
theorem lowered_or_refused {tokens : List (Located Token)} {store : Store} {notices : Notices}
    {parsed : Parsed} {root : NodeId} (hparse : parseModule tokens store notices = .ok parsed)
    (hroot : parsed.result = .ok root) (program : Code.Program) :
    let lowered := (lowerModule root).runOn ⟨parsed.store, true⟩ program
    lowered.result = .ok () ∨ ∃ error, lowered.result = .error (.refused error) := by
  intro lowered
  obtain ⟨m, ids, hm, hnamed, -⟩ := parseModule_sound hparse hroot
  rcases (ends_lowering hm hnamed False (P := program) False.elim).run_cases with
    ⟨_, _, hok, -⟩ | ⟨error, _, herror, -⟩
  · exact .inl hok
  · exact .inr ⟨error, herror⟩

/-- Two runs that are the same in small letters both have a result, or are refused alike. -/
theorem result_cases {lowered lowered' : Lowered Unit} (h : lowered.folded = lowered'.folded)
    (hends : lowered.result = .ok () ∨ ∃ error, lowered.result = .error (.refused error)) :
    lowered.result = .ok () ∧ lowered'.result = .ok () ∨
      ∃ error error', lowered.result = .error (.refused error) ∧
        lowered'.result = .error (.refused error') ∧ error.span = error'.span ∧
        error.value.folded = error'.value.folded := by
  obtain ⟨result, program, events⟩ := lowered
  obtain ⟨result', program', events'⟩ := lowered'
  have hresult := congrArg Lowered.result h
  rcases hends with rfl | ⟨error, rfl⟩
  · rcases result' with halt | _
    · cases hresult
    · exact .inl ⟨rfl, rfl⟩
  · rcases result' with (fault | error') | _
    · cases hresult
    · have herror : error.map LoweringError.folded = error'.map LoweringError.folded :=
        Halt.refused.inj (Except.error.inj hresult)
      have hspan : (error.map LoweringError.folded).span = (error'.map LoweringError.folded).span :=
        congrArg Located.span herror
      exact .inr ⟨error, error', rfl, rfl, hspan, congrArg Located.value herror⟩
    · cases hresult

/-! ## From a text to a program -/

/-- **The language ignores case.**  Two texts that differ in the case of letters only have the same
lexical errors, or tokens that are the same at the same places.  These are parsed to the same trees
and notices, up to the spelling of names; and a module is lowered or refused alike, with the same
error at the same place, and to the same program up to the spelling of names. -/
theorem lowerModule_recased {text text' : String} (h : Recased text text') (name : String)
    (reading : Nat) (store : Store) (notices : Notices) :
    (∃ errors, (Source.ofText name text reading).tokens = .error errors ∧
      (Source.ofText name text' reading).tokens = .error errors) ∨
    ∃ tokens tokens', (Source.ofText name text reading).tokens = .ok tokens ∧
      (Source.ofText name text' reading).tokens = .ok tokens' ∧
      List.Forall₂ (fun t t' => t.span = t'.span ∧ t.value.same t'.value = true) tokens tokens' ∧
      ∃ parsed parsed', parseModule tokens store notices = .ok parsed ∧
        parseModule tokens' store notices = .ok parsed' ∧ parsed.folded = parsed'.folded ∧
        ∀ root, parsed.result = .ok root → ∀ program,
          let lowered := (lowerModule root).runOn ⟨parsed.store, true⟩ program
          let lowered' := (lowerModule root).runOn ⟨parsed'.store, true⟩ program
          lowered.program.folded = lowered'.program.folded ∧
          (lowered.result = .ok () ∧ lowered'.result = .ok () ∨
            ∃ error error', lowered.result = .error (.refused error) ∧
              lowered'.result = .error (.refused error') ∧ error.span = error'.span ∧
              error.value.folded = error'.value.folded) := by
  rcases eq_error_or_ok_of_map_eq (Source.tokens_recased h name reading) with
    herrors | ⟨tokens, tokens', htokens, htokens', hfolded⟩
  · exact .inl herrors
  right
  -- Tokens have an end, so parsing has an outcome.
  obtain ⟨parsed, hparse⟩ := Source.exists_parsed htokens store notices
  obtain ⟨parsed', hparse'⟩ := Source.exists_parsed htokens' store notices
  have hparsed : parsed.folded = parsed'.folded := by
    have hboth := parseModule_folded hfolded store notices
    rw [hparse, hparse'] at hboth
    exact Except.ok.inj hboth
  refine ⟨tokens, tokens', htokens, htokens', Token.forall₂_same_of_folded hfolded, parsed, parsed',
    hparse, hparse', hparsed, ?_⟩
  intro root hroot program lowered lowered'
  have hlowered : lowered.folded = lowered'.folded := by
    rw [← lowerModule_folded, ← lowerModule_folded]
    exact congrArg (fun store => (lowerModule root).runOn ⟨store, true⟩ program.folded)
      (congrArg Parsed.store hparsed)
  exact ⟨congrArg Lowered.program hlowered,
    result_cases hlowered (lowered_or_refused hparse hroot program)⟩

/-- A module in small letters, and with other letters in all places but in its character. -/
theorem lowerModule_recased_character :
    let text := "module m \x7b fn f() \x7b let q = 'a'; show(q); \x7d extern fn show(char c); \x7d"
    let text' := "MODULE M \x7b Fn F() \x7b LET q = 'a'; SHOW(Q); \x7d extern fn Show(Char C); \x7d"
    Recased text text' ∧
    ∃ tokens tokens', (Source.ofText "" text 0).tokens = .ok tokens ∧
      (Source.ofText "" text' 0).tokens = .ok tokens' ∧
      ∃ parsed parsed' root, parseModule tokens .empty #[] = .ok parsed ∧
        parseModule tokens' .empty #[] = .ok parsed' ∧ parsed.folded = parsed'.folded ∧
        parsed.result = .ok root ∧
        ((lowerModule root).runOn ⟨parsed.store, true⟩ (.empty "")).result = .ok () ∧
        ((lowerModule root).runOn ⟨parsed'.store, true⟩ (.empty "")).result = .ok () := by
  intro text text'
  have hrecased : Recased text text' := by decide +kernel
  have hlowers : (Source.ofText "" text 0).tokens.toOption.map (lowers · "") = some true := by
    decide +kernel
  rcases lowerModule_recased hrecased "" 0 .empty #[] with
    ⟨errors, herrors, -⟩ | ⟨tokens, tokens', htokens, htokens', -, parsed, parsed', hparse, hparse',
      hparsed, hlower⟩
  · rw [herrors] at hlowers
    cases hlowers
  rw [htokens] at hlowers
  obtain ⟨first, root, hfirst, hroot, hok⟩ := exists_of_lowers (Option.some.inj hlowers)
  cases hparse.symm.trans hfirst
  refine ⟨hrecased, tokens, tokens', htokens, htokens', parsed, parsed', root, hparse, hparse',
    hparsed, hroot, hok, ?_⟩
  rcases (hlower root hroot (.empty "")).2 with ⟨-, hok'⟩ | ⟨_, _, herror, -⟩
  · exact hok'
  · rw [hok] at herror
    cases herror

end Lowering

end FrontEnd
