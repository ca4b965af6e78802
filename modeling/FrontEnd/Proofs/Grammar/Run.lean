import FrontEnd.Proofs.Grammar.Tokens
import FrontEnd.Proofs.Phrase.Planting

/-!
# Runs of productions

What a run does to the tokens, and how a run of a production is made of runs of its
parts.

`Passes s ts s'` says that a state comes from another by passing the tokens `ts`; the
store apart, nothing else has changed.  A run that succeeds passes tokens.  A run that
fails may stop anywhere, but it records exactly one notice and leaves the nodes alone
that the store held before (`Spoilt`).  `Ends p around s good bad` speaks about both: if
the run succeeds, then well, and if it fails, then as told.

## Main definitions

* `Passes`, `Reached`, `Spoilt`.
* `Ends`, with one lemma for each primitive production.
-/

namespace FrontEnd

/-- The diagnostic is one of a production that fails. -/
def Diagnostic.isSyntax : Diagnostic → Bool
  | .duplicateDefinition _ | .emptyModule _ => false
  | _ => true

namespace Token

variable {t : Token}

theorem kind_eq_symbol {sign : Symbol} : t.kind = .symbol sign ↔ t = .symbol sign := by
  cases t <;> simp [kind]

theorem kind_eq_keyword {word : Keyword} : t.kind = .keyword word ↔ t = .keyword word := by
  cases t <;> simp [kind]

theorem kind_eq_ident : t.kind = .ident ↔ ∃ name, t = .ident name := by
  cases t <;> simp [kind]

theorem kind_eq_integer : t.kind = .integer ↔ ∃ value, t = .integer value := by
  cases t <;> simp [kind]

theorem kind_eq_eof : t.kind = .eof ↔ t = .eof := by
  cases t <;> simp [kind]

end Token

namespace Grammar

open Store (Grown)

variable {α β : Type} {s s' s₁ s₂ s₃ : State} {t u : Token} {ts us vs : List Token}
  {around : Option Position} {tokens read : List (Located Token)} {kind : TokenKind}
  {f : Unit → Parser β} {rule : Parser Construct} {c : Construct} {At : Store.Placing α}
  {Written : List Token → α → Prop}

/-! ## The tokens of a state -/

namespace State

/-- The tokens from the current one on. -/
def upcoming (s : State) : List (Located Token) := s.cursor.current :: s.cursor.ahead

/-- The tokens from the current one on, without their spans. -/
def values (s : State) : List Token := s.upcoming.map Located.value

/-- The last token is the end of the input. -/
def Ended (s : State) : Prop := s.values.getLast? = some .eof

@[simp] theorem values_withStore (s : State) (store : Store) :
    (s.withStore store).values = s.values := rfl

@[simp] theorem store_advance (s : State) : s.advance.store = s.store := rfl

@[simp] theorem notices_advance (s : State) : s.advance.notices = s.notices := rfl

/-- The current token of a state. -/
theorem values_eq (s : State) :
    s.values = s.cursor.current.value :: s.cursor.ahead.map Located.value := rfl

theorem values_ne_nil (s : State) : s.values ≠ [] := by simp [values, upcoming]

theorem ahead_length (s : State) : s.cursor.ahead.length + 1 = s.values.length := by
  simp [values, upcoming]

theorem current_of_values (h : s.values = t :: us) : s.cursor.current.value = t := by
  simp only [values, upcoming, List.map_cons, List.cons.injEq] at h
  exact h.1

theorem kind_of_values (h : s.values = t :: us) : s.cursor.kind = t.kind :=
  congrArg Token.kind (current_of_values h)

theorem peek_of_values (h : s.values = t :: u :: us) : s.cursor.peek.value = u := by
  simp only [values, upcoming, List.map_cons, List.cons.injEq] at h
  obtain ⟨v, vs, hv, hu, -⟩ := List.map_eq_cons_iff.mp h.2
  simp [Cursor.peek, hv, hu]

/-- Before the end of the input there is a next token. -/
theorem Ended.tail_ne_nil (h : s.Ended) (hs : s.values = t :: us) (ht : t ≠ .eof) : us ≠ [] := by
  rintro rfl
  rw [Ended, hs] at h
  exact ht (by simpa using h)

end State

/-- A cursor stands on tokens if the last of them is the end of the input. -/
theorem exists_ofTokens (heof : (tokens.map Located.value).getLast? = some .eof) :
    ∃ cursor, Cursor.ofTokens tokens = .ok cursor := by
  cases tokens with
  | nil => simp at heof
  | cons first rest =>
    rw [List.getLast?_map, List.getLast?_eq_some_getLast (List.cons_ne_nil _ _)] at heof
    exact ⟨_, if_pos (by simpa using heof)⟩

/-- All tokens lie ahead of the state before the first. -/
theorem start_of_ofTokens {cursor : Cursor} (store : Store) (notices : Notices)
    (h : Cursor.ofTokens tokens = .ok cursor) :
    (State.start cursor store notices).upcoming = tokens ∧
      (State.start cursor store notices).cursor.position = 0 ∧
      (State.start cursor store notices).Ended := by
  cases tokens with
  | nil => cases h
  | cons first rest =>
    rw [Cursor.ofTokens] at h
    split at h
    next heof =>
      cases h
      refine ⟨rfl, rfl, ?_⟩
      have hlast := List.getLast?_eq_some_getLast (List.cons_ne_nil first rest)
      change ((first :: rest).map Located.value).getLast? = _
      rw [List.getLast?_map, hlast, Option.map_some, heof]
    next => cases h

/-! ## Passing tokens -/

/-- A cursor comes from another by moving past tokens. -/
structure Moved (s : State) (read : List (Located Token)) (s' : State) : Prop where
  upcoming : s.upcoming = read ++ s'.upcoming
  passed : s'.cursor.passed = read.reverse ++ s.cursor.passed

/-- A state comes from another by passing tokens; the store apart, nothing else differs. -/
structure Passes (s : State) (ts : List Token) (s' : State) : Prop where
  moved : ∃ read, read.map Located.value = ts ∧ Moved s read s'
  depth : s'.depth = ts.foldl (fun depth t => depthAfter t depth) s.depth
  notices : s'.notices = s.notices
  events : s'.events = s.events

theorem Moved.refl (h : s'.cursor = s.cursor) : Moved s [] s' :=
  ⟨by simp [State.upcoming, h], by simp [h]⟩

theorem Moved.trans {read' : List (Located Token)} (h : Moved s read s₁) (h' : Moved s₁ read' s₂) :
    Moved s (read ++ read') s₂ :=
  ⟨by rw [h.upcoming, h'.upcoming, List.append_assoc],
    by rw [h'.passed, h.passed, List.reverse_append, List.append_assoc]⟩

theorem Moved.of_cursor_eq (h : Moved s read s₁) (hcursor : s₂.cursor = s₁.cursor) :
    Moved s read s₂ :=
  ⟨by rw [h.upcoming, State.upcoming, State.upcoming, hcursor], by rw [hcursor, h.passed]⟩

namespace Passes

theorem refl (s : State) : Passes s [] s := ⟨⟨[], rfl, .refl rfl⟩, rfl, rfl, rfl⟩

theorem trans (h : Passes s ts s₁) (h' : Passes s₁ us s₂) : Passes s (ts ++ us) s₂ := by
  obtain ⟨read, hread, hmoved⟩ := h.moved
  obtain ⟨read', hread', hmoved'⟩ := h'.moved
  refine ⟨⟨read ++ read', by simp [hread, hread'], hmoved.trans hmoved'⟩, ?_,
    h'.notices.trans h.notices, h'.events.trans h.events⟩
  rw [h'.depth, h.depth, List.foldl_append]

theorem values (h : Passes s ts s') : s.values = ts ++ s'.values := by
  obtain ⟨read, hread, hmoved⟩ := h.moved
  rw [State.values, hmoved.upcoming, List.map_append, hread]
  rfl

/-- What stays to be read is known from what was passed. -/
theorem values_right (h : Passes s ts s') (hs : s.values = ts ++ us) : s'.values = us :=
  List.append_cancel_left (h.values.symm.trans hs)

/-- The store does not matter. -/
theorem withStore (h : Passes s ts s') (store : Store) : Passes s ts (s'.withStore store) := by
  obtain ⟨read, hread, hmoved⟩ := h.moved
  exact ⟨⟨read, hread, hmoved.upcoming, hmoved.passed⟩, h.depth, h.notices, h.events⟩

theorem ended (h : Passes s ts s') (hs : s.Ended) : s'.Ended := by
  rw [State.Ended, h.values, List.getLast?_append_of_ne_nil _ s'.values_ne_nil] at hs
  exact hs

theorem length_le (h : Passes s ts s') : ts.length + s'.values.length = s.values.length := by
  rw [h.values, List.length_append]

end Passes

/-- Passing the current token. -/
theorem passes_advance (h : s.values = t :: us) (ht : t ≠ .eof := by simp)
    (hus : us ≠ [] := by simp) : Passes s [t] s.advance := by
  have hcurrent := State.current_of_values h
  have hahead : s.cursor.ahead ≠ [] := by
    intro hnil
    simp only [State.values, State.upcoming, hnil, List.map_cons, List.map_nil,
      List.cons.injEq] at h
    exact hus h.2.symm
  obtain ⟨next, rest, hcons⟩ := List.exists_cons_of_ne_nil hahead
  have hnext : s.cursor.hasNext = true := by
    simp [Cursor.hasNext, Cursor.kind, hcurrent, Token.kind_eq_eof, ht]
  have hmove : s.advance.cursor = ⟨s.cursor.current :: s.cursor.passed, next, rest⟩ := by
    simp [State.advance, Cursor.advance, hnext, hcons]
  refine ⟨⟨[s.cursor.current], by simp [hcurrent], ?_, ?_⟩, ?_, rfl, rfl⟩
  · simp [State.upcoming, hmove, hcons]
  · simp [hmove]
  · simp [State.advance, hcurrent]

theorem values_advance (h : s.values = t :: us) (ht : t ≠ .eof := by simp)
    (hus : us ≠ [] := by simp) : s.advance.values = us :=
  (passes_advance h ht hus).values_right h

/-- Which tokens were passed is known if they are the ones that lie ahead. -/
theorem Passes.moved_of_upcoming {rest : List (Located Token)}
    (h : Passes s (tokens.map Located.value) s') (hs : s.upcoming = tokens ++ rest) :
    Moved s tokens s' := by
  obtain ⟨read, hread, hmoved⟩ := h.moved
  have hlength : read.length = tokens.length := by simpa using congrArg List.length hread
  have heq : read = tokens := (List.append_inj (hmoved.upcoming.symm.trans hs) hlength).1
  exact heq ▸ hmoved

/-- A token that is not the last is passed. -/
theorem moved_advance_of_hasNext (hs : s.Ended) (hnext : s.cursor.hasNext = true) :
    Moved s [s.cursor.current] s.advance := by
  have heof : s.cursor.current.value ≠ .eof := by
    simpa [Cursor.hasNext, Cursor.kind, Token.kind_eq_eof] using hnext
  have hpass := passes_advance s.values_eq heof (hs.tail_ne_nil s.values_eq heof)
  exact Passes.moved_of_upcoming hpass rfl

/-- Passing the current token moves forward, or stays at the end of the input. -/
theorem moved_advance (hs : s.Ended) :
    ∃ read, Moved s read s.advance ∧ (s.cursor.hasNext = true → read ≠ []) := by
  by_cases hnext : s.cursor.hasNext = true
  · exact ⟨_, moved_advance_of_hasNext hs hnext, by simp⟩
  · exact ⟨[], .refl (by simp [State.advance, Cursor.advance, hnext]), fun h => absurd h hnext⟩

theorem Moved.ended (h : Moved s read s') (hs : s.Ended) : s'.Ended := by
  have hvalues : s.values = read.map Located.value ++ s'.values := by
    rw [State.values, h.upcoming, List.map_append]
    rfl
  rw [State.Ended, hvalues, List.getLast?_append_of_ne_nil _ s'.values_ne_nil] at hs
  exact hs

theorem Moved.position_eq (h : Moved s read s') :
    s'.cursor.position = s.cursor.position + read.length := by
  simp only [Cursor.position, h.passed, List.length_append, List.length_reverse]
  omega

theorem Moved.length_values (h : Moved s read s') :
    s.values.length = read.length + s'.values.length := by
  simp [State.values, h.upcoming]

/-- A cursor that has not moved is where it was. -/
theorem Moved.cursor_of_position_eq (h : Moved s read s')
    (hposition : s'.cursor.position = s.cursor.position) : s'.cursor = s.cursor := by
  rw [h.position_eq] at hposition
  obtain rfl := List.eq_nil_of_length_eq_zero (l := read) (by omega)
  obtain ⟨hcurrent, hahead⟩ := List.cons.inj h.upcoming
  have hpassed := h.passed
  cases hc : s.cursor with
  | mk passed current ahead =>
  cases hc' : s'.cursor with
  | mk passed' current' ahead' =>
  simp_all

/-- The token passed last is the last of those passed. -/
theorem Moved.lastSpan_eq {last : Located Token} (h : Moved s (read ++ [last]) s') :
    s'.cursor.lastSpan = last.span := by
  simp [Cursor.lastSpan, Cursor.previous?, h.passed]

/-! ## Running the parts of a production -/

/-- The outcome of a production that is run from a state. -/
def outcome (p : Parser α) (around : Option Position) (s : State) :
    EStateM.Result Marker State α :=
  (p.run around).run s

section Bind

variable {f : α → Parser β} {x : Parser α} {a : α}

theorem bind_of_ok (h : outcome x around s = .ok a s₁) :
    outcome (x >>= f) around s = outcome (f a) around s₁ := by
  change EStateM.bind (x.run around) (fun a => (f a).run around) s = _
  simp only [outcome, EStateM.run] at h
  simp only [EStateM.bind, h]
  rfl

theorem bind_of_error {marker : Marker} (h : outcome x around s = .error marker s₁) :
    outcome (x >>= f) around s = .error marker s₁ := by
  change EStateM.bind (x.run around) (fun a => (f a).run around) s = _
  simp only [outcome, EStateM.run] at h
  simp only [EStateM.bind, h]

theorem outcome_pure (a : α) : outcome (pure a : Parser α) around s = .ok a s := rfl

theorem get_bind {f : State → Parser β} : outcome (get >>= f) around s = outcome (f s) around s :=
  rfl

theorem current_bind {f : Located Token → Parser β} :
    outcome (current >>= f) around s = outcome (f s.cursor.current) around s := rfl

theorem currentKind_bind {f : TokenKind → Parser β} :
    outcome (currentKind >>= f) around s = outcome (f s.cursor.kind) around s := rfl

section

variable {f : Bool → Parser β}

theorem isKind_bind (kind : TokenKind) :
    outcome (isKind kind >>= f) around s = outcome (f (decide (s.cursor.kind = kind))) around s :=
  rfl

theorem isKind_bind_true (h : s.cursor.kind = kind) :
    outcome (isKind kind >>= f) around s = outcome (f true) around s := by
  rw [isKind_bind, decide_eq_true h]

theorem isKind_bind_false (h : s.cursor.kind ≠ kind) :
    outcome (isKind kind >>= f) around s = outcome (f false) around s := by
  rw [isKind_bind, decide_eq_false h]

theorem isSymbol_bind (sign : Symbol) :
    outcome (isSymbol sign >>= f) around s =
      outcome (f (decide (s.cursor.kind = .symbol sign))) around s := rfl

theorem isSymbol_bind_true {sign : Symbol} (h : s.values = .symbol sign :: us) :
    outcome (isSymbol sign >>= f) around s = outcome (f true) around s :=
  isKind_bind_true (State.kind_of_values h)

theorem isSymbol_bind_false {sign : Symbol} (h : s.values = t :: us)
    (ht : t ≠ .symbol sign) :
    outcome (isSymbol sign >>= f) around s = outcome (f false) around s :=
  isKind_bind_false (State.kind_of_values h ▸ mt Token.kind_eq_symbol.mp ht)

theorem nextIsKind_bind (kind : TokenKind) :
    outcome (nextIsKind kind >>= f) around s =
      outcome (f (decide (s.cursor.peek.value.kind = kind))) around s := rfl

end

theorem tokensAhead_bind {f : Nat → Parser β} :
    outcome (tokensAhead >>= f) around s = outcome (f s.cursor.ahead.length) around s := rfl

theorem lastSpan_bind {f : Span → Parser β} :
    outcome (lastSpan >>= f) around s = outcome (f s.cursor.lastSpan) around s := rfl

theorem advance_bind {f : PUnit → Parser β} :
    outcome (advance >>= f) around s = outcome (f ⟨⟩) around s.advance := rfl

theorem build_bind {f : NodeId → Parser β} (c : Construct) (span : Option Span) :
    outcome (build c span >>= f) around s =
      outcome (f s.store.fresh) around (s.withStore (s.store.build c span).2) := rfl

end Bind

/-! ## Productions that demand a token -/

theorem expect_eq (h : s.cursor.kind = kind) : outcome (expect kind) around s = .ok () s := by
  rw [expect, currentKind_bind, if_pos h]
  rfl

theorem outcome_fail (d : Diagnostic) (around : Option Position) (s : State) :
    ∃ span, outcome (fail d : Parser α) around s = .error ⟨s.notices.size⟩ (s.record d span) := by
  cases around <;> exact ⟨_, rfl⟩

theorem outcome_expect (around : Option Position) (h : s.cursor.kind ≠ kind) :
    ∃ span, outcome (expect kind) around s =
      .error ⟨s.notices.size⟩ (s.record (.unexpectedToken kind s.cursor.kind) span) := by
  rw [expect, currentKind_bind, if_neg h]
  exact outcome_fail _ around s

theorem skipOver_eq (h : s.cursor.kind = kind) :
    outcome (skipOver kind) around s = .ok () s.advance := by
  rw [skipOver, bind_of_ok (expect_eq h)]
  rfl

theorem symbol_bind {sign : Symbol} (h : s.values = .symbol sign :: us) :
    outcome (symbol sign >>= f) around s = outcome (f ()) around s.advance :=
  bind_of_ok (skipOver_eq (State.kind_of_values h))

theorem keyword_bind {word : Keyword} (h : s.values = .keyword word :: us) :
    outcome (keyword word >>= f) around s = outcome (f ()) around s.advance :=
  bind_of_ok (skipOver_eq (State.kind_of_values h))

theorem ident_bind {name : Ident} {f : Located Ident → Parser β}
    (h : s.values = .ident name :: us) :
    outcome (ident >>= f) around s =
      outcome (f ⟨name, s.cursor.current.span⟩) around s.advance := by
  have hcurrent := State.current_of_values h
  have hident : outcome ident around s = .ok ⟨name, s.cursor.current.span⟩ s.advance := by
    rw [ident, current_bind]
    simp only [hcurrent]
    rfl
  exact bind_of_ok hident

/-- A production with its span, where the production succeeds. -/
theorem mapped_of_ok {rule : Parser α} {a : α}
    (h : outcome rule (some s.cursor.current.span.start) s = .ok a s₁) :
    outcome (mapped rule) around s =
      .ok ⟨a, ⟨s.cursor.current.span.start, s₁.cursor.lastSpan.stop⟩⟩ s₁ := by
  have hinner : outcome (withReader (fun _ => some s.cursor.current.span.start) rule) around s =
      .ok a s₁ := h
  rw [mapped, current_bind, bind_of_ok hinner, lastSpan_bind]
  rfl

/-! ## Runs that succeed -/

/-- A run succeeds, passes the tokens `ts`, and ends as told. -/
def Reads (p : Parser α) (around : Option Position) (s : State) (ts : List Token)
    (good : α → State → Prop) : Prop :=
  ∃ a s', outcome p around s = .ok a s' ∧ Passes s ts s' ∧ good a s'

namespace Reads

variable {p q x : Parser α} {f : α → Parser β} {a : α} {good mid : α → State → Prop}
  {fine : β → State → Prop}

theorem of_eq (h : outcome p around s = outcome q around s) (hq : Reads q around s ts good) :
    Reads p around s ts good := by
  rwa [Reads, h]

/-- Adding nodes passes no token. -/
theorem of_store {store : Store} (h : outcome p around s = outcome q around (s.withStore store))
    (hq : Reads q around (s.withStore store) ts good) : Reads p around s ts good := by
  obtain ⟨a, s', hrun, hpass, ha⟩ := hq
  exact ⟨a, s', h.trans hrun, ((Passes.refl s).withStore store).trans hpass, ha⟩

theorem pure (h : good a s) : Reads (pure a) around s [] good := ⟨a, s, rfl, .refl s, h⟩

theorem imp {good' : α → State → Prop} (h : Reads p around s ts good)
    (hgood : ∀ a s', good a s' → good' a s') : Reads p around s ts good' := by
  obtain ⟨a, s', hrun, hpass, ha⟩ := h
  exact ⟨a, s', hrun, hpass, hgood a s' ha⟩

/-- The tokens that were passed are part of what is known at the end. -/
theorem with_passes (h : Reads p around s ts good) :
    Reads p around s ts fun a s' => Passes s ts s' ∧ good a s' := by
  obtain ⟨a, s', hrun, hpass, ha⟩ := h
  exact ⟨a, s', hrun, hpass, hpass, ha⟩

theorem pure_bind (h : Reads (f a) around s ts fine) : Reads (Pure.pure a >>= f) around s ts fine :=
  h

/-- One production after another. -/
theorem bind (h : Reads x around s ts mid) (hs : s.values = ts ++ us)
    (hf : ∀ a s₁, mid a s₁ → s₁.values = us → Reads (f a) around s₁ vs fine) :
    Reads (x >>= f) around s (ts ++ vs) fine := by
  obtain ⟨a, s₁, hrun, hpass, hmid⟩ := h
  obtain ⟨b, s', hrest, hpass', hb⟩ := hf a s₁ hmid (hpass.values_right hs)
  exact ⟨b, s', (bind_of_ok hrun).trans hrest, hpass.trans hpass', hb⟩

/-- After the last production no token is passed. -/
theorem last (h : Reads x around s ts mid) (hs : s.values = ts ++ us)
    (hf : ∀ a s₁, mid a s₁ → s₁.values = us → Reads (f a) around s₁ [] fine) :
    Reads (x >>= f) around s ts fine := by
  simpa using h.bind hs hf

section Tokens

variable {f : Unit → Parser β} {sign : Symbol} {p q : Parser β}

/-- A production that passes the current token goes on with the next one. -/
theorem pass {p q : Parser β} (hs : s.values = t :: us) (ht : t ≠ .eof) (hus : us ≠ [])
    (heq : outcome p around s = outcome q around s.advance)
    (hq : s.advance.values = us → Reads q around s.advance ts fine) :
    Reads p around s (t :: ts) fine := by
  obtain ⟨b, s', hrun, hpass, hb⟩ := hq (values_advance hs ht hus)
  exact ⟨b, s', heq.trans hrun, (passes_advance hs ht hus).trans hpass, hb⟩

theorem advance (hs : s.values = t :: us)
    (hf : s.advance.values = us → Reads (f ⟨⟩) around s.advance ts fine)
    (ht : t ≠ .eof := by simp) (hus : us ≠ [] := by simp) :
    Reads (Grammar.advance >>= f) around s (t :: ts) fine :=
  pass hs ht hus advance_bind hf

theorem symbol (hs : s.values = .symbol sign :: us)
    (hf : s.advance.values = us → Reads (f ()) around s.advance ts fine)
    (hus : us ≠ [] := by simp) :
    Reads (Grammar.symbol sign >>= f) around s (.symbol sign :: ts) fine :=
  pass hs (by simp) hus (symbol_bind hs) hf

theorem keyword {word : Keyword} (hs : s.values = .keyword word :: us)
    (hf : s.advance.values = us → Reads (f ()) around s.advance ts fine)
    (hus : us ≠ [] := by simp) :
    Reads (Grammar.keyword word >>= f) around s (.keyword word :: ts) fine :=
  pass hs (by simp) hus (keyword_bind hs) hf

theorem ident {name : Ident} {f : Located Ident → Parser β} (hs : s.values = .ident name :: us)
    (hf : s.advance.values = us → ∀ span, Reads (f ⟨name, span⟩) around s.advance ts fine)
    (hus : us ≠ [] := by simp) :
    Reads (Grammar.ident >>= f) around s (.ident name :: ts) fine :=
  pass hs (by simp) hus (ident_bind hs) fun hs' => hf hs' _

/-- The symbol that a production looks for is there. -/
theorem ifSymbol (hs : s.values = .symbol sign :: us) (h : Reads p around s ts fine) :
    Reads (isSymbol sign >>= fun found => if found = true then p else q) around s ts fine :=
  of_eq (isSymbol_bind_true hs) h

/-- The symbol that a production looks for is missing. -/
theorem unlessSymbol (hs : s.values = t :: us) (ht : t ≠ .symbol sign)
    (h : Reads q around s ts fine) :
    Reads (isSymbol sign >>= fun found => if found = true then p else q) around s ts fine :=
  of_eq (isSymbol_bind_false hs ht) h

end Tokens

end Reads

/-! ## Productions that may go either way -/

/-- Give the outcome of a run another value. -/
def mapOk {α β : Type} (f : α → β) :
    EStateM.Result Marker State α → EStateM.Result Marker State β
  | .ok a s => .ok (f a) s
  | .error marker s => .error marker s

theorem attempt_bind {α β : Type} {p : Parser α} {f : Except Marker α → Parser β} :
    outcome (attempt p >>= f) around s =
      match outcome p around s with
      | .ok a s₁ => outcome (f (.ok a)) around s₁
      | .error marker s₁ => outcome (f (.error marker)) around s₁ := by
  cases h : outcome p around s with
  | ok a s₁ =>
    refine bind_of_ok ?_
    simp only [outcome, ReaderT.run, EStateM.run] at h
    change EStateM.tryCatch (EStateM.map _ _) _ s = _
    simp [EStateM.tryCatch, EStateM.map, h]
  | error marker s₁ =>
    refine bind_of_ok ?_
    simp only [outcome, ReaderT.run, EStateM.run] at h
    change EStateM.tryCatch (EStateM.map _ _) _ s = _
    simp [EStateM.tryCatch, EStateM.map, h]
    rfl

theorem expectMore_bind {β : Type} {f : Unit → Parser β} (h : s.cursor.hasNext = true) :
    outcome (expectMore kind >>= f) around s = outcome (f ()) around s := by
  refine bind_of_ok ?_
  rw [expectMore, get_bind, if_pos h]
  rfl

theorem bind_pure_eq {α β : Type} {p : Parser α} (f : α → β) :
    outcome (p >>= fun a => pure (f a)) around s = mapOk f (outcome p around s) := by
  cases h : outcome p around s with
  | ok a s₁ => rw [bind_of_ok h]; rfl
  | error marker s₁ => rw [bind_of_error h]; rfl

section Mapped

variable {α β γ δ : Type} {f : γ → α} {h : δ → β} {x : Parser α}

/-- Two productions that go on alike from values that correspond. -/
theorem bind_mapOk {y : Parser γ} {g : α → Parser β} {k : γ → Parser δ}
    (hx : outcome x around s = mapOk f (outcome y around s))
    (hg : ∀ c s₁, outcome (g (f c)) around s₁ = mapOk h (outcome (k c) around s₁)) :
    outcome (x >>= g) around s = mapOk h (outcome (y >>= k) around s) := by
  cases hy : outcome y around s with
  | ok c s₁ =>
    rw [hy, mapOk] at hx
    rw [bind_of_ok hx, bind_of_ok hy, hg]
  | error marker s₁ =>
    rw [hy, mapOk] at hx
    rw [bind_of_error hx, bind_of_error hy, mapOk]

/-- Two productions that start with the same part. -/
theorem bind_congr_mapOk {g : α → Parser β} {k : α → Parser δ}
    (hg : ∀ a s₁, outcome (g a) around s₁ = mapOk h (outcome (k a) around s₁)) :
    outcome (x >>= g) around s = mapOk h (outcome (x >>= k) around s) := by
  refine bind_mapOk (f := id) ?_ hg
  cases outcome x around s <;> rfl

theorem mapped_mapOk {y : Parser γ}
    (hx : outcome x (some s.cursor.current.span.start) s =
      mapOk f (outcome y (some s.cursor.current.span.start) s)) :
    outcome (mapped x) around s =
      mapOk (fun r => ⟨f r.value, r.span⟩) (outcome (mapped y) around s) := by
  rw [mapped, mapped, current_bind, current_bind]
  refine bind_mapOk (f := f) hx fun c s₁ => ?_
  rw [lastSpan_bind, lastSpan_bind]
  rfl

end Mapped

/-! ## Every run -/

/-- A state comes from another by passing tokens and adding nodes; more tokens follow. -/
structure Reached (s : State) (ts : List Token) (s' : State) : Prop where
  passes : Passes s ts s'
  grown : Grown s.store s'.store
  ended : s'.Ended

/-- What a failed production leaves behind: one notice, and the old nodes as they were. -/
structure Spoilt (s s' : State) : Prop where
  grown : Grown s.store s'.store
  moved : ∃ read, Moved s read s'
  notice : ∃ diagnostic span, diagnostic.isSyntax = true ∧
    s'.notices = s.notices.push (.of diagnostic span)

theorem Reached.refl (h : s.Ended) : Reached s [] s := ⟨.refl s, .refl _, h⟩

theorem Reached.trans (h : Reached s ts s₁) (h' : Reached s₁ us s₂) : Reached s (ts ++ us) s₂ :=
  ⟨h.passes.trans h'.passes, h.grown.trans h'.grown, h'.ended⟩

theorem Reached.spoilt (h : Reached s ts s₁) (h' : Spoilt s₁ s₂) : Spoilt s s₂ := by
  obtain ⟨read, -, hmoved⟩ := h.passes.moved
  obtain ⟨read', hmoved'⟩ := h'.moved
  refine ⟨h.grown.trans h'.grown, ⟨_, hmoved.trans hmoved'⟩, ?_⟩
  rw [← h.passes.notices]
  exact h'.notice

/-- If a run succeeds, then as `good` tells, and if it fails, then as `bad` tells. -/
def Ends (p : Parser α) (around : Option Position) (s : State) (good : α → State → Prop)
    (bad : State → Prop) : Prop :=
  match outcome p around s with
  | .ok a s' => good a s'
  | .error _ s' => bad s'

section Ends

variable {p x : Parser α} {f : α → Parser β} {a : α} {good good' : α → State → Prop}
  {fine : β → State → Prop} {bad : State → Prop}

theorem ends_of_ok (h : outcome p around s = .ok a s₁) : Ends p around s good bad ↔ good a s₁ := by
  simp [Ends, h]

theorem ends_of_error {marker : Marker} (h : outcome p around s = .error marker s₁) :
    Ends p around s good bad ↔ bad s₁ := by
  simp [Ends, h]

theorem Ends.of_ok (h : Ends p around s good bad) (hok : outcome p around s = .ok a s₁) :
    good a s₁ :=
  (ends_of_ok hok).mp h

theorem Ends.of_error {marker : Marker} (h : Ends p around s good bad)
    (herror : outcome p around s = .error marker s₁) : bad s₁ :=
  (ends_of_error herror).mp h

theorem ends_bind : Ends (x >>= f) around s fine bad ↔
    Ends x around s (fun a s₁ => Ends (f a) around s₁ fine bad) bad := by
  cases h : outcome x around s with
  | ok a s₁ => rw [ends_of_ok h, Ends, bind_of_ok h, Ends]
  | error marker s₁ =>
    rw [ends_of_error h, Ends, bind_of_error h]

/-- Looking at the state changes no run. -/
theorem ends_of_eq {around₁ : Option Position} {q : Parser α}
    (h : outcome p around s = outcome q around₁ s₁) :
    Ends p around s good bad ↔ Ends q around₁ s₁ good bad := by
  rw [Ends, h, Ends]

theorem Ends.imp {bad' : State → Prop} (h : Ends p around s good bad)
    (hgood : ∀ a s', good a s' → good' a s') (hbad : ∀ s', bad s' → bad' s') :
    Ends p around s good' bad' := by
  unfold Ends at h ⊢
  split at h
  · exact hgood _ _ h
  · exact hbad _ h

/-- One production after what was read before it. -/
theorem Reached.bind {P : α → List Token → State → Prop} (h : Reached s ts s₁)
    (hx : Ends x around s₁ (fun a s₂ => ∃ us, Reached s₁ us s₂ ∧ P a us s₂) (Spoilt s₁))
    (hf : ∀ a us s₂, P a us s₂ → Reached s₁ us s₂ → Reached s (ts ++ us) s₂ →
      Ends (f a) around s₂ fine (Spoilt s)) :
    Ends (x >>= f) around s₁ fine (Spoilt s) := by
  refine ends_bind.mpr (hx.imp ?_ fun _ => h.spoilt)
  rintro a s₂ ⟨us, hreached, hP⟩
  exact hf a us s₂ hP hreached (h.trans hreached)

theorem ends_mapped {rule : Parser α} {good : Located α → State → Prop} :
    Ends (mapped rule) around s good bad ↔
      Ends rule (some s.cursor.current.span.start) s
        (fun a s₁ => good ⟨a, ⟨s.cursor.current.span.start, s₁.cursor.lastSpan.stop⟩⟩ s₁) bad := by
  cases h : outcome rule (some s.cursor.current.span.start) s with
  | ok a s₁ => rw [ends_of_ok (mapped_of_ok h), ends_of_ok h]
  | error marker s₁ =>
    have hmapped : outcome (mapped rule) around s = .error marker s₁ := by
      have hinner : outcome (withReader (fun _ => some s.cursor.current.span.start) rule) around s =
          .error marker s₁ := h
      rw [mapped, current_bind, bind_of_error hinner]
    rw [ends_of_error hmapped, ends_of_error h]

end Ends

section Inversion

variable {α β : Type} {x : Parser α} {b : β}

/-- A run that succeeds is made of runs that succeed. -/
theorem bind_eq_ok {f : α → Parser β} (h : outcome (x >>= f) around s = .ok b s') :
    ∃ a s₁, outcome x around s = .ok a s₁ ∧ outcome (f a) around s₁ = .ok b s' := by
  cases hx : outcome x around s with
  | ok a s₁ => exact ⟨a, s₁, rfl, (bind_of_ok hx).symm.trans h⟩
  | error marker s₁ =>
    rw [bind_of_error hx] at h
    cases h

theorem expect_eq_ok (h : outcome (expect kind) around s = .ok () s') :
    s.cursor.kind = kind ∧ s' = s := by
  by_cases hk : s.cursor.kind = kind
  · rw [expect_eq hk] at h
    cases h
    exact ⟨hk, rfl⟩
  · rw [expect, currentKind_bind, if_neg hk] at h
    cases around <;> cases h

theorem skipOver_bind_eq_ok {f : Unit → Parser β}
    (h : outcome (skipOver kind >>= f) around s = .ok b s') :
    s.cursor.kind = kind ∧ outcome (f ()) around s.advance = .ok b s' := by
  obtain ⟨_, s₁, hskip, -⟩ := bind_eq_ok h
  rw [skipOver] at hskip
  obtain ⟨_, s₂, hexpect, -⟩ := bind_eq_ok hskip
  have hk := (expect_eq_ok hexpect).1
  exact ⟨hk, (bind_of_ok (skipOver_eq hk)).symm.trans h⟩

theorem mapped_eq_ok {r : Located α} (h : outcome (mapped x) around s = .ok r s') :
    ∃ a, outcome x (some s.cursor.current.span.start) s = .ok a s' := by
  have hends : Ends (mapped x) around s
      (fun _ s' => ∃ a, outcome x (some s.cursor.current.span.start) s = .ok a s')
      (fun _ => True) := by
    rw [ends_mapped, Ends]
    cases outcome x (some s.cursor.current.span.start) s with
    | ok a s₁ => exact ⟨a, rfl⟩
    | error _ _ => trivial
  exact hends.of_ok h

end Inversion

theorem spoilt_record (h : Reached s ts s₁) {d : Diagnostic} (hd : d.isSyntax = true)
    (span : Span) : Spoilt s (s₁.record d span) := by
  refine h.spoilt ⟨.refl _, ⟨[], .refl rfl⟩, d, span, hd, rfl⟩

/-- A failure after what was read before it. -/
theorem Reached.fail {good : α → State → Prop} (h : Reached s ts s₁) {d : Diagnostic}
    (hd : d.isSyntax = true) : Ends (Grammar.fail d : Parser α) around s₁ good (Spoilt s) := by
  cases around <;> exact spoilt_record h hd _

/-- Passing a token that is not the last. -/
theorem Reached.advance (h : Reached s ts s₁) (hs : s₁.values = t :: us) (ht : t ≠ .eof) :
    Reached s (ts ++ [t]) s₁.advance := by
  have hpass := passes_advance hs ht (h.ended.tail_ne_nil hs ht)
  exact ⟨h.passes.trans hpass, h.grown, hpass.ended h.ended⟩

section Demand

variable {fine : β → State → Prop} {f : Unit → Parser β}

/-- A look at the current token splits a run in two. -/
theorem ends_isSymbol {sign : Symbol} {f : Bool → Parser β} {bad : State → Prop}
    (htrue : s.cursor.current.value = .symbol sign → Ends (f true) around s fine bad)
    (hfalse : Ends (f false) around s fine bad) :
    Ends (isSymbol sign >>= f) around s fine bad := by
  rw [ends_of_eq (isSymbol_bind sign)]
  by_cases h : s.cursor.kind = .symbol sign
  · rw [decide_eq_true h]
    exact htrue (Token.kind_eq_symbol.mp h)
  · rw [decide_eq_false h]
    exact hfalse

/-- A symbol is passed if it is there. -/
theorem Reached.ifSymbol {sign : Symbol} {q : Parser β} (h : Reached s ts s₁)
    (htrue : Reached s (ts ++ [.symbol sign]) s₁.advance →
      s₁.advance.values.length < s₁.values.length →
      Ends (f ()) around s₁.advance fine (Spoilt s))
    (hfalse : Ends q around s₁ fine (Spoilt s)) :
    Ends (isSymbol sign >>= fun found => if found = true then Grammar.advance >>= f else q) around
      s₁ fine (Spoilt s) := by
  refine ends_isSymbol (fun hcurrent => ?_) hfalse
  have hvalues := s₁.values_eq
  rw [hcurrent] at hvalues
  have hpass := passes_advance hvalues (by simp) (h.ended.tail_ne_nil hvalues (by simp))
  have hlength := hpass.length_le
  rw [if_pos rfl, ends_of_eq advance_bind]
  exact htrue (h.advance hvalues (by simp)) (by simp at hlength; omega)

theorem Reached.expect (h : Reached s ts s₁)
    (hf : s₁.cursor.kind = kind → Ends (f ()) around s₁ fine (Spoilt s)) :
    Ends (Grammar.expect kind >>= f) around s₁ fine (Spoilt s) := by
  by_cases hk : s₁.cursor.kind = kind
  · rw [ends_of_eq (bind_of_ok (expect_eq hk))]
    exact hf hk
  · rw [Grammar.expect, ends_bind, ends_of_eq currentKind_bind, if_neg hk]
    exact h.fail rfl

theorem Reached.skipOver (h : Reached s ts s₁) (hkind : kind ≠ .eof)
    (hf : s₁.cursor.kind = kind → Reached s (ts ++ [s₁.cursor.current.value]) s₁.advance →
      Ends (f ()) around s₁.advance fine (Spoilt s)) :
    Ends (Grammar.skipOver kind >>= f) around s₁ fine (Spoilt s) := by
  rw [Grammar.skipOver, ends_bind]
  refine h.expect fun hk => ?_
  refine hf hk (h.advance s₁.values_eq fun heof => hkind ?_)
  rw [← hk, Cursor.kind, heof]
  rfl

theorem Reached.symbol {sign : Symbol} (h : Reached s ts s₁)
    (hf : s₁.values.head? = some (.symbol sign) → Reached s (ts ++ [.symbol sign]) s₁.advance →
      Ends (f ()) around s₁.advance fine (Spoilt s)) :
    Ends (Grammar.symbol sign >>= f) around s₁ fine (Spoilt s) := by
  refine h.skipOver (by simp) fun hk hr => ?_
  have hcurrent := Token.kind_eq_symbol.mp hk
  exact hf (by simp [s₁.values_eq, hcurrent]) (hcurrent ▸ hr)

theorem Reached.keyword {word : Keyword} (h : Reached s ts s₁)
    (hf : Reached s (ts ++ [.keyword word]) s₁.advance →
      Ends (f ()) around s₁.advance fine (Spoilt s)) :
    Ends (Grammar.keyword word >>= f) around s₁ fine (Spoilt s) := by
  refine h.skipOver (by simp) fun hk hr => ?_
  exact hf (Token.kind_eq_keyword.mp hk ▸ hr)

theorem Reached.ident {f : Located Ident → Parser β} (h : Reached s ts s₁)
    (hf : ∀ name, s₁.cursor.current.value = .ident name →
      Reached s (ts ++ [.ident name]) s₁.advance →
      Ends (f ⟨name, s₁.cursor.current.span⟩) around s₁.advance fine (Spoilt s)) :
    Ends (Grammar.ident >>= f) around s₁ fine (Spoilt s) := by
  cases hcurrent : s₁.cursor.current.value with
  | ident name =>
    have hvalues := s₁.values_eq
    rw [hcurrent] at hvalues
    rw [Ends, ident_bind hvalues]
    exact hf name hcurrent (h.advance hvalues (by simp))
  | _ =>
    rw [ends_bind, Grammar.ident, ends_of_eq current_bind]
    simp only [hcurrent]
    exact h.fail rfl

end Demand

/-! ## What a production reads -/

open Store (Framed Placing Planted)

/-- Whatever is written as the grammar says is read, and planted in the store, if a token
follows that may. -/
def Complete (p : Parser NodeId) (Written : List Token → α → Prop) (At : Placing α)
    (Follow : Token → Prop) : Prop :=
  ∀ (around : Option Position) {s ts next rest a}, Written ts a → s.values = ts ++ next :: rest →
    Follow next → Reads p around s ts fun id s' => Planted At s.store s'.store a id

/-- A production that adds one node plants what the node and its parts are. -/
theorem Reads.node {a : α} (h : Reads rule (some s.cursor.current.span.start) s ts fun c s₁ =>
      ∀ span, Planted At s.store (s₁.store.build c (some span)).2 a s₁.store.fresh) :
    Reads (node rule) around s ts fun id s' => Planted At s.store s'.store a id := by
  obtain ⟨c, s₁, hrun, hpass, hplant⟩ := h
  rw [Reads, Grammar.node, bind_of_ok (mapped_of_ok hrun)]
  exact ⟨_, _, rfl, hpass.withStore _, hplant _⟩

/-- Whatever is read is written as the grammar says and planted in the store; a failure is as
failures are. -/
def Plants (p : Parser NodeId) (Written : List Token → α → Prop) (At : Placing α) : Prop :=
  ∀ (around : Option Position) {s}, s.Ended → Ends p around s
    (fun id s' => ∃ ts, Reached s ts s' ∧ ∃ a, Written ts a ∧ Planted At s.store s'.store a id)
    (Spoilt s)

/-- After what was read from `s` on, a production gives the construct of a node that may be
planted. -/
def Furnishes (rule : Parser Construct) (around : Option Position) (s s₁ : State)
    (Written : List Token → α → Prop) (At : Placing α) : Prop :=
  Ends rule around s₁ (fun c s' => ∃ ts, Reached s ts s' ∧ ∃ a, Written ts a ∧
    ∀ span, Planted At s.store (s'.store.build c (some span)).2 a s'.store.fresh) (Spoilt s)

theorem plants_node (h : ∀ around {s}, s.Ended → Furnishes rule around s s Written At) :
    Plants (node rule) Written At := by
  intro around s hs
  rw [node, ends_bind, ends_mapped]
  refine (h _ hs).imp ?_ fun _ hbad => hbad
  rintro c s₁ ⟨ts, hreached, a, ha, hplant⟩
  exact ⟨ts, ⟨hreached.passes.withStore _, (hplant _).grown, hreached.ended⟩, a, ha, hplant _⟩

end Grammar

end FrontEnd
