import FrontEnd.Proofs.Grammar.Attempts

/-!
# Braces and failures

Productions pass braces in pairs.  A run that succeeds has closed every brace that it opened, and
no other; a run that fails may leave braces open, but has closed none that was open before it.
Wherever it fails, the failure names the notice that was recorded last.

`Sinks s k s'` counts the braces that are open at `s'` and were not at `s`, and `Nests i j p` says
what a run of `p` does to that number, with one rule for each way to put productions together.

## Main definitions

* `openAfter`, `closing?`: braces in a list of tokens, without reference to a run.
* `Sinks`, `Nests`, `Balanced`.
-/

namespace FrontEnd

/-! ## Braces in a list of tokens -/

/-- How many braces are open after a token where `k` were open before it; none if the token closes
a brace and none is open. -/
def Token.bracesAfter? (k : Nat) : Token → Option Nat
  | .symbol .openCurly => some (k + 1)
  | .symbol .closeCurly => if k = 0 then none else some (k - 1)
  | _ => some k

/-- How many braces are open after some tokens where `k` were open before them; none if some token
closes a brace and none is open. -/
def openAfter (k : Nat) (tokens : List Token) : Option Nat :=
  tokens.foldlM Token.bracesAfter? k

/-- The place of the first brace that closes more than was opened, where `k` braces are open
already.  For the tokens behind a brace and `k = 0` it is the brace that closes that one. -/
def closing? : Nat → List Token → Option Nat
  | _, [] => none
  | k, t :: rest =>
    match t.bracesAfter? k with
    | none => some 0
    | some k' => (closing? k' rest).map (· + 1)

/-- The token kinds that are braces. -/
def TokenKind.isBrace : TokenKind → Bool
  | .symbol .openCurly | .symbol .closeCurly => true
  | _ => false

theorem Token.bracesAfter?_of_not_isBrace {t : Token} (h : t.kind.isBrace = false) (k : Nat) :
    t.bracesAfter? k = some k := by
  cases t with
  | symbol sign =>
    cases sign with
    | openCurly | closeCurly => cases h
    | _ => rfl
  | _ => rfl

/-- Only a closing brace can close more than was opened. -/
theorem Token.exists_bracesAfter? {t : Token} {k : Nat}
    (h : t.kind = .symbol .closeCurly → k ≠ 0) : ∃ j, t.bracesAfter? k = some j := by
  cases t with
  | symbol sign =>
    cases sign with
    | closeCurly => exact ⟨k - 1, if_neg (h rfl)⟩
    | _ => exact ⟨_, rfl⟩
  | _ => exact ⟨_, rfl⟩

/-- A token opens a brace, closes one that is open, or has nothing to do with braces. -/
theorem Token.bracesAfter?_cases {t : Token} {j k : Nat} (h : t.bracesAfter? j = some k) :
    t = .symbol .openCurly ∧ k = j + 1 ∨ t = .symbol .closeCurly ∧ j = k + 1 ∨
      ((∀ i, t.bracesAfter? i = some i) ∧ ∀ depth, Grammar.depthAfter t depth = depth) ∧ k = j := by
  cases t with
  | symbol sign =>
    cases sign with
    | openCurly => exact .inl ⟨rfl, (Option.some.inj h).symm⟩
    | closeCurly =>
      by_cases hj : j = 0
      · simp [bracesAfter?, hj] at h
      · rw [bracesAfter?, if_neg hj] at h
        obtain rfl := Option.some.inj h
        exact .inr (.inl ⟨rfl, (Nat.succ_pred hj).symm⟩)
    | _ => exact .inr (.inr ⟨⟨fun _ => rfl, fun _ => rfl⟩, (Option.some.inj h).symm⟩)
  | _ => exact .inr (.inr ⟨⟨fun _ => rfl, fun _ => rfl⟩, (Option.some.inj h).symm⟩)

/-- Braces, counted from another start. -/
theorem Token.bracesAfter?_add {t : Token} {j k : Nat} (h : t.bracesAfter? j = some k) (i : Nat) :
    t.bracesAfter? (i + j) = some (i + k) := by
  rcases t.bracesAfter?_cases h with ⟨rfl, rfl⟩ | ⟨rfl, rfl⟩ | ⟨⟨hsame, -⟩, rfl⟩
  · rfl
  · rw [bracesAfter?, if_neg (by omega)]
    rfl
  · exact hsame _

theorem openAfter_cons (k : Nat) (t : Token) (rest : List Token) :
    openAfter k (t :: rest) = (t.bracesAfter? k).bind fun k' => openAfter k' rest := rfl

theorem openAfter_append (k : Nat) (first second : List Token) :
    openAfter k (first ++ second) = (openAfter k first).bind fun k' => openAfter k' second := by
  simp [openAfter]

theorem openAfter_add {ts : List Token} {j k : Nat} (h : openAfter j ts = some k) (i : Nat) :
    openAfter (i + j) ts = some (i + k) := by
  induction ts generalizing j with
  | nil =>
    obtain rfl := Option.some.inj h
    rfl
  | cons t ts ih =>
    rw [openAfter_cons, Option.bind_eq_some_iff] at h
    obtain ⟨j', hj', hrest⟩ := h
    rw [openAfter_cons, Token.bracesAfter?_add hj', Option.bind_some, ih hrest]

/-- The brace that closes stands behind tokens that close none. -/
theorem closing?_append {k j : Nat} {first : List Token} (h : openAfter k first = some j)
    (second : List Token) :
    closing? k (first ++ second) = (closing? j second).map (· + first.length) := by
  induction first generalizing k with
  | nil =>
    obtain rfl := Option.some.inj h
    simp
  | cons t rest ih =>
    rw [openAfter_cons] at h
    cases ht : t.bracesAfter? k with
    | none => simp [ht] at h
    | some k' =>
      rw [ht, Option.bind_some] at h
      rw [List.cons_append, closing?, ht]
      simp [ih h, Function.comp_def, Nat.add_assoc]

namespace Grammar

variable {α β : Type} {s s' s₁ s₂ : State} {i j k : Nat} {t : Token} {rule : Parser NodeId}

/-! ## Braces passed by a run -/

/-- The depth goes with the number of open braces as long as none is closed that was open before. -/
theorem depthAfter_add (h : t.bracesAfter? j = some k) (base : Nat) :
    depthAfter t (base + j) = base + k := by
  rcases t.bracesAfter?_cases h with ⟨rfl, rfl⟩ | ⟨rfl, rfl⟩ | ⟨⟨-, hdepth⟩, rfl⟩
  · rfl
  · rfl
  · exact hdepth _

/-- A state comes from another by passing tokens after which `k` more braces are open, and that
close none of those open before.  The end of the input is not passed. -/
structure Sinks (s : State) (k : Nat) (s' : State) : Prop where
  moved : ∃ read, Moved s read s' ∧ openAfter 0 (read.map Located.value) = some k ∧
    .eof ∉ read.map Located.value
  depth : s'.depth = s.depth + k
  ended : s'.Ended

namespace Sinks

theorem refl (h : s.Ended) : Sinks s 0 s := ⟨⟨[], .refl rfl, rfl, by simp⟩, rfl, h⟩

/-- Only the cursor and the depth matter. -/
theorem of_eq (h : Sinks s k s₁) (hcursor : s₂.cursor = s₁.cursor) (hdepth : s₂.depth = s₁.depth) :
    Sinks s k s₂ := by
  obtain ⟨read, hmoved, hopen⟩ := h.moved
  refine ⟨⟨read, hmoved.of_cursor_eq hcursor, hopen⟩, hdepth.trans h.depth, ?_⟩
  rw [State.Ended, State.values, State.upcoming, hcursor]
  exact h.ended

/-- Passing the current token, which does not close a brace that was open before. -/
theorem advance (h : Sinks s j s₁) (hk : s₁.cursor.current.value.bracesAfter? j = some k) :
    Sinks s k s₁.advance := by
  obtain ⟨read, hmoved, hopen, hpassed⟩ := h.moved
  by_cases heof : s₁.cursor.current.value = .eof
  · have hstay : s₁.advance.cursor = s₁.cursor := by
      simp [State.advance, Cursor.advance, Cursor.hasNext, Cursor.kind, heof, Token.kind]
    rw [heof] at hk
    obtain rfl := Option.some.inj hk
    refine h.of_eq hstay ?_
    simp [State.advance, heof, depthAfter]
  · have hpass := passes_advance s₁.values_eq heof (h.ended.tail_ne_nil s₁.values_eq heof)
    obtain ⟨read', hread', hmoved'⟩ := hpass.moved
    refine ⟨⟨read ++ read', hmoved.trans hmoved', ?_, ?_⟩, ?_, hpass.ended h.ended⟩
    · rw [List.map_append, hread', openAfter_append, hopen, Option.bind_some, openAfter_cons, hk]
      rfl
    · simpa [hread', Ne.symm heof] using hpassed
    · rw [hpass.depth, List.foldl_cons, List.foldl_nil, h.depth]
      exact depthAfter_add hk s.depth

theorem trans (h : Sinks s i s₁) (h' : Sinks s₁ k s₂) : Sinks s (i + k) s₂ := by
  obtain ⟨read, hmoved, hopen, hpassed⟩ := h.moved
  obtain ⟨read', hmoved', hopen', hpassed'⟩ := h'.moved
  refine ⟨⟨read ++ read', hmoved.trans hmoved', ?_, ?_⟩, ?_, h'.ended⟩
  · rw [List.map_append, openAfter_append, hopen, Option.bind_some]
    exact openAfter_add hopen' i
  · rw [List.map_append, List.mem_append]
    exact not_or.mpr ⟨hpassed, hpassed'⟩
  · rw [h'.depth, h.depth, Nat.add_assoc]

end Sinks

/-! ## Rules -/

/-- What the outcome of a run is that starts with some braces opened since the state `s₀`: after a
success `j` are open, and a failure names the notice recorded last. -/
def Fares (s₀ : State) (j : Nat) : EStateM.Result Marker State α → Prop
  | .ok _ s' => Sinks s₀ j s'
  | .error marker s' => (∃ k, Sinks s₀ k s') ∧ marker.notice + 1 = s'.notices.size

/-- A run that starts on a token of the kind, with `i` braces opened since some state, ends with
`j` of them if it succeeds. -/
def NestsAt (kind : TokenKind) (i j : Nat) (p : Parser α) : Prop :=
  ∀ around s₀ s, s.cursor.kind = kind → Sinks s₀ i s → Fares s₀ j (outcome p around s)

/-- A run that starts with `i` braces opened since some state ends with `j` of them if it
succeeds. -/
def Nests (i j : Nat) (p : Parser α) : Prop :=
  ∀ around s₀ s, Sinks s₀ i s → Fares s₀ j (outcome p around s)

/-- A run that succeeds leaves as many braces open as there were. -/
def Balanced (p : Parser α) : Prop := ∀ i, Nests i i p

theorem Balanced.sinks {p : Parser α} {a : α} {s' : State} {around : Option Position}
    (h : Balanced p) (hs : s.Ended) (hrun : outcome p around s = .ok a s') : Sinks s 0 s' := by
  have hfares := h 0 around s s (.refl hs)
  rwa [hrun] at hfares

theorem length_values_advance (hs : s.Ended) (hnext : s.cursor.hasNext = true) :
    s.values.length = s.advance.values.length + 1 :=
  (moved_advance_of_hasNext hs hnext).length_values.trans (Nat.add_comm _ _)

/-- What a production that succeeds leaves to be read. -/
theorem Balanced.shrinks {p : Parser α} {a : α} (h : Balanced p) (hs : s.Ended)
    (hrun : outcome p around s = .ok a s') : s'.Ended ∧ s'.values.length ≤ s.values.length := by
  have hsinks := h 0 around s s (.refl hs)
  rw [hrun] at hsinks
  obtain ⟨read, hmoved, -⟩ := hsinks.moved
  exact ⟨hsinks.ended, by rw [hmoved.length_values]; omega⟩

section Rules

variable {x : Parser α} {f : α → Parser β} {kind : TokenKind}

theorem Nests.at (h : Nests i j x) : NestsAt kind i j x :=
  fun around s₀ s _ hs => h around s₀ s hs

theorem Nests.bind (hx : Nests i j x) (hf : ∀ a, Nests j k (f a)) : Nests i k (x >>= f) := by
  intro around s₀ s hs
  have hfares := hx around s₀ s hs
  cases hrun : outcome x around s with
  | ok a s₁ =>
    rw [hrun] at hfares
    rw [bind_of_ok hrun]
    exact hf a around s₀ s₁ hfares
  | error marker s₁ =>
    rw [hrun] at hfares
    rw [bind_of_error hrun]
    exact hfares

theorem Balanced.bind (hx : Balanced x) (hf : ∀ a, Balanced (f a)) : Balanced (x >>= f) :=
  fun i => (hx i).bind fun a => hf a i

theorem balanced_pure (a : α) : Balanced (pure a : Parser α) := fun _ _ _ _ hs => hs

/-- A look at the current token. -/
theorem nests_current {f : Located Token → Parser β}
    (h : ∀ token, NestsAt token.value.kind i j (f token)) : Nests i j (current >>= f) :=
  fun around s₀ s hs => h s.cursor.current around s₀ s rfl hs

theorem nests_currentKind {f : TokenKind → Parser β} (h : ∀ kind, NestsAt kind i j (f kind)) :
    Nests i j (currentKind >>= f) :=
  fun around s₀ s hs => h s.cursor.kind around s₀ s rfl hs

theorem nests_isKind {f : Bool → Parser β} (htrue : NestsAt kind i j (f true))
    (hfalse : Nests i j (f false)) : Nests i j (isKind kind >>= f) := by
  intro around s₀ s hs
  by_cases h : s.cursor.kind = kind
  · rw [isKind_bind_true h]
    exact htrue around s₀ s h hs
  · rw [isKind_bind_false h]
    exact hfalse around s₀ s hs

theorem nestsAt_nextIsKind {f : Bool → Parser β} {next : TokenKind}
    (h : ∀ b, NestsAt kind i j (f b)) : NestsAt kind i j (nextIsKind next >>= f) :=
  fun around s₀ s hk hs => h _ around s₀ s hk hs

/-- Passing a token that is known not to be a brace. -/
theorem nestsAt_advance {f : PUnit → Parser β} (hkind : kind.isBrace = false)
    (h : Nests i j (f ⟨⟩)) : NestsAt kind i j (advance >>= f) := by
  intro around s₀ s hk hs
  subst hk
  exact h around s₀ s.advance (hs.advance (Token.bracesAfter?_of_not_isBrace hkind i))

theorem balanced_tokensAhead : Balanced tokensAhead := fun _ _ _ _ hs => hs

theorem balanced_lastSpan : Balanced lastSpan := fun _ _ _ _ hs => hs

theorem balanced_build (c : Construct) (span : Option Span) : Balanced (build c span) :=
  fun _ _ _ _ hs => hs.of_eq rfl rfl

theorem balanced_setSpan (id : NodeId) (span : Span) : Balanced (setSpan id span) :=
  fun _ _ _ _ hs => hs.of_eq rfl rfl

theorem fares_record {s₀ : State} {d : Diagnostic} {span : Span} (hs : Sinks s₀ i s) :
    Fares s₀ j (.error ⟨s.notices.size⟩ (s.record d span) : EStateM.Result Marker State α) :=
  ⟨⟨i, hs.of_eq rfl rfl⟩, by simp [State.record]⟩

theorem nests_failAt (d : Diagnostic) (span : Span) : Nests i j (failAt d span : Parser α) :=
  fun _ _ _ hs => fares_record hs

theorem nests_fail (d : Diagnostic) : Nests i j (fail d : Parser α) := by
  intro around s₀ s hs
  obtain ⟨span, hfail⟩ := outcome_fail (α := α) d around s
  rw [hfail]
  exact fares_record hs

/-- What comes after a token was demanded knows that token. -/
theorem nests_expect {f : Unit → Parser β} (h : NestsAt kind i j (f ())) :
    Nests i j (expect kind >>= f) := by
  intro around s₀ s hs
  by_cases hk : s.cursor.kind = kind
  · rw [bind_of_ok (expect_eq hk)]
    exact h around s₀ s hk hs
  · obtain ⟨span, hfail⟩ := outcome_expect around hk
    rw [bind_of_error hfail]
    exact fares_record hs

theorem balanced_skipOver (hkind : kind.isBrace = false) : Balanced (skipOver kind) :=
  fun i => nests_expect fun around s₀ s hk hs => by
    subst hk
    exact hs.advance (Token.bracesAfter?_of_not_isBrace hkind i)

theorem balanced_symbol {sign : Symbol} (h : (TokenKind.symbol sign).isBrace = false) :
    Balanced (symbol sign) :=
  balanced_skipOver h

theorem balanced_keyword (word : Keyword) : Balanced (keyword word) := balanced_skipOver rfl

/-- An opening brace makes one more. -/
theorem nests_openCurly : Nests i (i + 1) (symbol .openCurly) :=
  nests_expect fun around s₀ s hk hs => hs.advance (by rw [Token.kind_eq_symbol.mp hk]; rfl)

/-- A closing brace makes one less. -/
theorem nests_closeCurly : Nests (i + 1) i (symbol .closeCurly) :=
  nests_expect fun around s₀ s hk hs => hs.advance (by rw [Token.kind_eq_symbol.mp hk]; rfl)

theorem nests_mapped {rule : Parser α} (h : Nests i j rule) : Nests i j (mapped rule) := by
  refine nests_current fun token => Nests.at ?_
  have hrule : Nests i j (withReader (fun _ => some token.span.start) rule) :=
    fun _ s₀ s hs => h _ s₀ s hs
  exact hrule.bind fun _ => (balanced_lastSpan j).bind fun _ => balanced_pure _ j

theorem balanced_node {rule : Parser Construct} (h : Balanced rule) : Balanced (node rule) :=
  fun i => (nests_mapped (h i)).bind fun _ => balanced_build _ _ i

theorem balanced_declaring {rule : Parser (Ident × Construct)} (h : Balanced rule) :
    Balanced (declaring rule) :=
  fun i => (nests_mapped (h i)).bind fun _ => (balanced_build _ _ i).bind fun _ =>
    balanced_pure _ i

/-- A production that passes a sign only after looking at it. -/
theorem balanced_isSymbol {f : Bool → Parser β} {sign : Symbol}
    (htrue : ∀ i, NestsAt (.symbol sign) i i (f true)) (hfalse : Balanced (f false)) :
    Balanced (isSymbol sign >>= f) :=
  fun i => nests_isKind (htrue i) (hfalse i)

end Rules

/-! ## Expressions -/

theorem balanced_ident : Balanced ident := by
  refine fun i => nests_current fun token => ?_
  split
  next name hname =>
    rw [hname]
    exact nestsAt_advance rfl (balanced_pure _ i)
  next => exact (nests_fail _).at

theorem literalOf?_isBrace {negative : Bool} {value : Literal}
    (h : literalOf? negative t = some value) : t.kind.isBrace = false := by
  cases t with
  | symbol sign => cases h
  | _ => rfl

theorem balanced_literal : Balanced literal := by
  refine balanced_node (balanced_isSymbol
    (fun i => nestsAt_advance rfl (nests_expect (Nests.at ?_))) fun i => ?_)
  -- With a sign in front or without one, the literal is a single token.
  all_goals
    refine nests_current fun token => ?_
    dsimp only
    split
    next value hvalue => exact nestsAt_advance (literalOf?_isBrace hvalue) (balanced_pure _ i)
    next => exact (nests_fail _).at

theorem operatorOf?_isBrace {kind : TokenKind} {op : Operator} (h : operatorOf? kind = some op) :
    kind.isBrace = false := by
  cases kind with
  | symbol sign =>
    cases sign with
    | openCurly | closeCurly => cases h
    | _ => rfl
  | _ => rfl

/-! ## Statements -/

theorem typeOf?_isBrace {type : TypeRef} (h : typeOf? t = some type) : t.kind.isBrace = false := by
  cases t with
  | symbol sign => cases h
  | _ => rfl

theorem balanced_typeRef : Balanced typeRef := by
  refine balanced_node fun i => nests_current fun token => ?_
  dsimp only
  split
  next type htype => exact nestsAt_advance (typeOf?_isBrace htype) (balanced_pure _ i)
  next => exact (nests_fail _).at

theorem balanced_append (block statement : NodeId) : Balanced (append block statement) := by
  intro i around s₀ s hs
  rw [append, get_bind]
  dsimp only
  split
  · split
    · exact fares_record hs
    · cases around <;> exact fares_record hs
  · exact hs.of_eq rfl rfl

end Grammar

end FrontEnd
