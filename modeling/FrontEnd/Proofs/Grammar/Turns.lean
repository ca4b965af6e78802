import FrontEnd.Proofs.Grammar.Bounds
import FrontEnd.Proofs.Grammar.Modules

/-!
# Turns of the loop over declarations

Between turns of the loop over the declarations of a module as many braces are open as at the start
of the loop, unless the input is at its end: neither a declaration that fails nor the recovery from
it takes the brace that closes the module.

## Main definitions

* `Between`: what holds between turns.
* `LoopsSettle`: no bound on a loop of the grammar is ever felt.

## Main statements

* `moduleDecl_at_closing_brace`: a module ends with the brace that closes it.
-/

namespace FrontEnd.Grammar

variable {s s' s₀ s₁ s₂ : State} {around : Option Position} {k n : Nat} {name : Ident}

/-! ## Recovery and braces -/

/-- A state between two declarations: no brace opened since `s₀` is open, or no tokens are left. -/
def Between (s₀ s : State) : Prop := ∃ k, Sinks s₀ k s ∧ (k = 0 ∨ s.cursor.kind = .eof)

namespace Between

theorem refl (h : s.Ended) : Between s s := ⟨0, .refl h, .inl rfl⟩

theorem of_eq (h : Between s₀ s₁) (hcursor : s₂.cursor = s₁.cursor) (hdepth : s₂.depth = s₁.depth) :
    Between s₀ s₂ := by
  obtain ⟨k, hsinks, hk⟩ := h
  exact ⟨k, hsinks.of_eq hcursor hdepth, by rwa [hcursor]⟩

theorem ended (h : Between s₀ s) : s.Ended := by
  obtain ⟨k, hsinks, -⟩ := h
  exact hsinks.ended

/-- As long as tokens are left, all braces are closed. -/
theorem sinks (h : Between s₀ s) (hnext : s.cursor.hasNext = true) : Sinks s₀ 0 s := by
  obtain ⟨k, hsinks, rfl | heof⟩ := h
  · exact hsinks
  · simp [Cursor.hasNext, heof] at hnext

theorem depth_eq (h : Between s₀ s) : s.depth = s₀.depth ∨ s.cursor.kind = .eof := by
  obtain ⟨k, hsinks, rfl | heof⟩ := h
  · exact .inl hsinks.depth
  · exact .inr heof

end Between

/-- Skipping stops between two declarations. -/
theorem skipToBoundary_between (around : Option Position) (hs : Sinks s₀ k s)
    (hn : s.values.length ≤ n) (skipped : Nat) :
    ∃ m s', outcome (skipToBoundary s₀.depth n skipped) around s = .ok m s' ∧ Between s₀ s' := by
  induction n generalizing s k skipped with
  | zero => exact absurd (List.length_eq_zero_iff.mp (Nat.le_zero.mp hn)) s.values_ne_nil
  | succ n ih =>
    rw [skipToBoundary, get_bind]
    dsimp only
    split
    next hgo =>
      -- A brace that is skipped was opened since, or else this would be a boundary.
      have hopen : s.cursor.kind = .symbol .closeCurly → k ≠ 0 := by
        rintro hclose rfl
        exact hgo.2.2 ⟨hs.depth, .inl hclose⟩
      obtain ⟨j, hj⟩ := Token.exists_bracesAfter? hopen
      have hshorter := length_values_advance hs.ended hgo.1
      exact ih (hs.advance hj) (by omega) (skipped + 1)
    next hgo =>
      refine ⟨skipped, s, rfl, k, hs, ?_⟩
      have hdepth := hs.depth
      by_cases hnext : s.cursor.hasNext = true
      · left
        by_contra hk
        exact hgo ⟨hnext, by omega, fun h => hk (by omega)⟩
      · right
        simpa [Cursor.hasNext] using hnext

/-- Recovery from a failure stops between two declarations. -/
theorem synchronize_between {start : Nat} (hs : Sinks s₀ k s)
    (hclose : s.cursor.position = start → s.cursor.kind ≠ .symbol .closeCurly)
    (hrun : outcome (synchronize start s₀.depth) around s = .ok () s') : Between s₀ s' := by
  obtain ⟨j, hj⟩ : ∃ j, Sinks s₀ j (if s.cursor.position = start then s.advance else s) := by
    split
    next h =>
      obtain ⟨j, hj⟩ := Token.exists_bracesAfter? (k := k) fun hkind => absurd hkind (hclose h)
      exact ⟨j, hs.advance hj⟩
    next => exact ⟨k, hs⟩
  obtain ⟨m, s₂, hskip, hbetween⟩ :=
    skipToBoundary_between around hj (Nat.le_of_eq (State.ahead_length _).symm) 0
  rw [synchronize_bind, tokensAhead_bind, bind_of_ok hskip] at hrun
  cases hrun
  exact hbetween.of_eq rfl rfl

/-! ## Turns -/

namespace Loop

variable {l : Loop} {turn : Turn} {turns : List Turn}

/-- A turn leads from one place between two declarations to another. -/
theorem Takes.between (h : l.Takes turn) (hdepth : l.depth = s₀.depth)
    (hbetween : Between s₀ turn.head) : Between s₀ turn.next := by
  cases h with
  | @read head s₁ next item hclose hnext hd hregister =>
    have hsinks := balanced_declaration l.room 0 l.around s₀ head (hbetween.sinks hnext)
    rw [hd] at hsinks
    obtain ⟨hcursor, hdepth', -⟩ := register_frame hregister
    exact ⟨0, hsinks.of_eq hcursor hdepth', .inl rfl⟩
  | @failed head s₁ next marker hclose hnext hd hsync =>
    have hfares := balanced_declaration l.room 0 l.around s₀ head (hbetween.sinks hnext)
    rw [hd] at hfares
    obtain ⟨⟨k, hsinks⟩, -⟩ := hfares
    obtain ⟨read, hmoved⟩ := ((plants_declaration l.room l.around hbetween.ended).of_error hd).moved
    rw [hdepth] at hsync
    exact synchronize_between hsinks
      (fun hstart => by rwa [hmoved.cursor_of_position_eq hstart]) hsync

namespace Turns

theorem between (h : l.Turns s turns s') (hdepth : l.depth = s₀.depth) (hbetween : Between s₀ s) :
    Between s₀ s' ∧ ∀ turn ∈ turns, Between s₀ turn.head := by
  induction h with
  | nil s => exact ⟨hbetween, by simp⟩
  | cons hturn _ ih =>
    obtain ⟨hlast, hheads⟩ := ih (hturn.between hdepth hbetween)
    exact ⟨hlast, List.forall_mem_cons.mpr ⟨hbetween, hheads⟩⟩

theorem takes (h : l.Turns s turns s') : ∀ turn ∈ turns, l.Takes turn := by
  induction h with
  | nil s => simp
  | cons hturn _ ih => exact List.forall_mem_cons.mpr ⟨hturn, ih⟩

end Turns

end Loop

theorem settles_declarations (room : Nat) (root : NodeId) (depth : Nat) (attempted : Bool) :
    Settles fun n => declarations room root depth n attempted := by
  intro around s hs n m hn hm
  obtain ⟨turns, s', hrun⟩ := Loop.exists_run ⟨room, root, depth, around⟩ hs
  rw [declarations_eq_attempts, declarations_eq_attempts]
  exact congrArg (mapOk _) ((hrun.record_eq hs hn).trans (hrun.record_eq hs hm).symm)

/-! ## Modules -/

section Outcomes

variable {room : Nat} {body : List Token} {marker : Marker} {attempted : Bool}

/-- A module without its header is refused. -/
theorem moduleDecl_refused (room : Nat) (around : Option Position) (hs : s.Ended)
    (h : ¬ ∃ name body, s.values = headerTokens name ++ body) :
    Refused s (outcome (moduleDecl room) around s) :=
  ((header_cases _ hs).resolve_left h).mapped.bind

/-- What a module with its header comes to, by where its loop stops. -/
theorem Loop.Run.moduleDecl_eq {turns : List Turn} (around : Option Position) (hended : s.Ended)
    (hs : s.values = headerTokens name ++ body)
    (hrun : (Loop.ofModule room s name).Run (loopStart s name) turns s₁) :
    (s₁.cursor.kind = .symbol .closeCurly ∧ ∃ span, outcome (moduleDecl room) around s =
      .ok s.store.fresh (finish s.store.fresh name span turns.isEmpty s₁.advance)) ∨
    (s₁.cursor.kind = .eof ∧ ∃ span, outcome (moduleDecl room) around s =
      .error ⟨s₁.notices.size⟩
        (s₁.record (.unexpectedToken (.symbol .closeCurly) .eof) span)) := by
  rcases hrun.moduleRecord_eq around hended hs with ⟨hclose, span, hrecord⟩ | ⟨heof, span, hrecord⟩
  · exact .inl ⟨hclose, span, by rw [moduleDecl_eq_moduleRecord, hrecord, mapOk]⟩
  · exact .inr ⟨heof, span, by rw [moduleDecl_eq_moduleRecord, hrecord, mapOk]⟩

end Outcomes

/-- Every loop of the grammar ends by itself. -/
structure LoopsSettle : Prop where
  commaList : ∀ room items, Settles fun n => commaList (expression room) n items
  operations : ∀ room least start lhs,
    Settles fun n => operations (primary (expression room)) n least start lhs
  statements : ∀ room id,
    Settles fun n => statements (statement (block room) (expression room)) id n
  argumentList : ∀ function scope, Settles fun n => argumentList function n scope
  fields : ∀ owner scope, Settles fun n => fields owner n scope
  attributes : ∀ read, Settles fun n => attributes n read
  skipToBoundary : ∀ depth skipped, Settles fun n => skipToBoundary depth n skipped
  declarations : ∀ room root depth attempted,
    Settles fun n => declarations room root depth n attempted

theorem loopsSettle : LoopsSettle where
  commaList room := settles_commaList (balanced_expression room)
  operations room := settles_operations (balanced_primary (balanced_expression room))
  statements room :=
    settles_statements (balanced_statement (balanced_expression room) (balanced_block room))
      ((plants_statement (plants_block room) (plants_expression room)).consumes fun hts => by
        obtain ⟨t, us, rfl, -⟩ := StatementTokens.exists_cons hts
        simp)
  argumentList := settles_argumentList
  fields := settles_fields
  attributes := settles_attributes
  skipToBoundary := settles_skipToBoundary
  declarations := settles_declarations

/-- Tokens whose only end of input is the last, cut at an end of input. -/
theorem eq_nil_of_eof_not_mem {read rest ts : List Token} (heof : .eof ∉ ts)
    (h : read ++ .eof :: rest = ts ++ [.eof]) : rest = [] := by
  rcases rest.eq_nil_or_concat with rfl | ⟨front, last, rfl⟩
  · rfl
  · have hcut : (read ++ .eof :: front) ++ [last] = ts ++ [.eof] := by simpa using h
    obtain ⟨rfl, -⟩ := List.append_inj' hcut rfl
    simp at heof

/-- The loop of a module stops at the brace that closes the module, or else at the end of the
input. -/
theorem Loop.Run.closing?_eq {turns : List Turn} {room : Nat} {ts : List Token}
    (hended : (loopStart s name).Ended) (hts : (loopStart s name).values = ts ++ [.eof])
    (heof : .eof ∉ ts) (hrun : (Loop.ofModule room s name).Run (loopStart s name) turns s₁) :
    (s₁.cursor.kind = .symbol .closeCurly → ∃ read, Moved (loopStart s name) read s₁ ∧
      closing? 0 (loopStart s name).values = some read.length) ∧
    (s₁.cursor.kind = .eof → closing? 0 (loopStart s name).values = none) := by
  have hbetween : Between (loopStart s name) s₁ := (hrun.turns.between rfl (.refl hended)).1
  have hvalues : ∀ {read}, Moved (loopStart s name) read s₁ →
      (loopStart s name).values = read.map Located.value ++ s₁.values := by
    intro read hmoved
    rw [State.values, hmoved.upcoming, List.map_append]
    rfl
  constructor
  · intro hclose
    obtain ⟨read, hmoved, hopen, -⟩ := (hbetween.sinks (by simp [Cursor.hasNext, hclose])).moved
    refine ⟨read, hmoved, ?_⟩
    rw [hvalues hmoved, closing?_append hopen, s₁.values_eq, Token.kind_eq_symbol.mp hclose]
    simp [closing?, Token.bracesAfter?]
  · intro hkind
    obtain ⟨k, hsinks, -⟩ := hbetween
    obtain ⟨read, hmoved, hopen, -⟩ := hsinks.moved
    have hcut := (hvalues hmoved).symm.trans hts
    rw [s₁.values_eq, Token.kind_eq_eof.mp hkind] at hcut
    rw [hvalues hmoved, closing?_append hopen, s₁.values_eq, Token.kind_eq_eof.mp hkind,
      eq_nil_of_eof_not_mem heof hcut]
    simp [closing?, Token.bracesAfter?]

theorem Moved.take_of_length {read : List (Located Token)} (h : Moved s read s') {n : Nat}
    (hn : read.length = n) : Moved s (s.upcoming.take n) s' := by
  rw [h.upcoming, ← hn, List.take_left]
  exact h

/-- The body of a module is what its loop starts with. -/
theorem values_loopStart {header : List (Located Token)} {body : List Token}
    (hs : s.values = headerTokens name ++ body)
    (hheader : header.map Located.value = headerTokens name)
    (hmoved : Moved s header (loopStart s name)) : (loopStart s name).values = body := by
  rw [State.values, hmoved.upcoming, List.map_append, hheader] at hs
  exact List.append_cancel_left hs

/-- **A module ends at the brace that closes it.**  Its loop, and each loop in it, ends by itself.
Each turn of its loop moves forward, and starts where as many braces are open as behind the opening
brace of the module, unless no tokens are left.  Whatever fails inside, the module is read up to the
brace that closes it; if there is none, the failure says that this brace was expected and the end of
the input was found. -/
theorem moduleDecl_at_closing_brace (room : Nat) (around : Option Position) (s : State)
    (ts : List Token) (hs : s.values = ts ++ [.eof]) (heof : .eof ∉ ts) :
    LoopsSettle ∧
    ((¬ ∃ name body, s.values = headerTokens name ++ body) →
      ∃ marker s', outcome (moduleDecl room) around s = .error marker s') ∧
    ∀ name body, s.values = headerTokens name ++ body →
      ∃ turns s₁, (Loop.ofModule room s name).Run (loopStart s name) turns s₁ ∧
        (∀ turn ∈ turns, turn.head.cursor.position < turn.next.cursor.position) ∧
        (∀ head ∈ turns.map Turn.head ++ [s₁],
          head.depth = (loopStart s name).depth ∨ head.cursor.kind = .eof) ∧
        match closing? 0 body with
        | some i => ∃ root s', outcome (moduleDecl room) around s = .ok root s' ∧
            Moved s (s.upcoming.take (3 + i + 1)) s'
        | none => ∃ marker s' span, outcome (moduleDecl room) around s = .error marker s' ∧
            s'.notices[marker.notice]? =
              some (.of (.unexpectedToken (.symbol .closeCurly) .eof) span) := by
  have hended : s.Ended := by rw [State.Ended, hs]; simp
  refine ⟨loopsSettle, fun hheader => ?_, fun name body hheader => ?_⟩
  · obtain ⟨s₁, d, span, -, -, hrun⟩ := moduleDecl_refused room around hended hheader
    exact ⟨_, _, hrun⟩
  obtain ⟨header, hheader', hmoved⟩ := moved_loopStart hended hheader
  have hloop := hmoved.ended hended
  obtain rfl := values_loopStart hheader hheader' hmoved
  obtain ⟨us, hus, heof'⟩ : ∃ us, (loopStart s name).values = us ++ [.eof] ∧ .eof ∉ us := by
    obtain ⟨us, hus⟩ := List.getLast?_eq_some_iff.mp hloop
    rw [hus, ← List.append_assoc, hs] at hheader
    obtain ⟨rfl, -⟩ := List.append_inj' hheader rfl
    exact ⟨us, hus, fun hmem => heof (by simp [hmem])⟩
  obtain ⟨turns, s₁, hrun⟩ := Loop.exists_run (Loop.ofModule room s name) hloop
  obtain ⟨hlast, hheads⟩ : Between (loopStart s name) s₁ ∧
      ∀ turn ∈ turns, Between (loopStart s name) turn.head := hrun.turns.between rfl (.refl hloop)
  have hends := hrun.turns.ended hloop
  refine ⟨turns, s₁, hrun, fun turn hturn => ?_, fun head hhead => ?_, ?_⟩
  · obtain ⟨read, hread, hne⟩ := (hrun.turns.takes turn hturn).moved (hends.2 turn hturn)
    have hpos := List.length_pos_iff.mpr hne
    rw [hread.position_eq]
    omega
  · rcases List.mem_append.mp hhead with hmem | hmem
    · obtain ⟨turn, hturn, rfl⟩ := List.mem_map.mp hmem
      exact (hheads turn hturn).depth_eq
    · obtain rfl := List.mem_singleton.mp hmem
      exact hlast.depth_eq
  · have hclosing := hrun.closing?_eq hloop hus heof'
    rcases hrun.moduleDecl_eq around hended hheader with ⟨hclose, span, hok⟩ | ⟨hend, span, hfail⟩
    · obtain ⟨read, hread, hsome⟩ := hclosing.1 hclose
      have hbrace := moved_advance_of_hasNext hends.1 (by simp [Cursor.hasNext, hclose])
      have hlength : header.length = 3 := by simpa using congrArg List.length hheader'
      rw [hsome]
      exact ⟨_, _, hok, (((hmoved.trans hread).trans hbrace).of_cursor_eq
        (finish_cursor _ _ _ _ _)).take_of_length (by simp [hlength, Nat.add_assoc])⟩
    · rw [hclosing.2 hend]
      exact ⟨_, _, span, hfail, by simp [State.record]⟩

/-- A module whose only declaration fails inside its own braces, with and without the brace that
closes the module. -/
theorem moduleDecl_at_closing_brace_of_failure :
    let start (ts : List Token) : State :=
      .start ⟨[], ⟨.keyword .module, default⟩, ts.tail.map fun t => ⟨t, default⟩⟩ ⟨#[]⟩ #[]
    let unclosed : List Token := [.keyword .module, .ident ⟨"m"⟩, .symbol .openCurly,
      .keyword .struct, .ident ⟨"s"⟩, .symbol .openCurly, .keyword .fn, .symbol .openCurly,
      .symbol .closeCurly, .symbol .closeCurly]
    let closed := unclosed ++ [.symbol .closeCurly, .symbol .semicolon]
    (.eof ∉ closed ∧ ∃ root s', outcome (moduleDecl 1) none (start (closed ++ [.eof])) =
      .ok root s' ∧ s'.values = [.symbol .semicolon, .eof]) ∧
    .eof ∉ unclosed ∧ ∃ marker s' span, outcome (moduleDecl 1) none (start (unclosed ++ [.eof])) =
      .error marker s' ∧ s'.notices[marker.notice]? =
        some (.of (.unexpectedToken (.symbol .closeCurly) .eof) span) := by
  intro start unclosed closed
  refine ⟨⟨by decide, ?_⟩, by decide, ?_⟩
  · obtain ⟨-, -, hmodule⟩ :=
      moduleDecl_at_closing_brace 1 none (start (closed ++ [.eof])) closed rfl (by decide)
    obtain ⟨turns, s₁, -, -, -, root, s', hrun, hmoved⟩ := hmodule ⟨"m"⟩ _ rfl
    have hvalues : unclosed ++ .symbol .closeCurly :: [.symbol .semicolon, .eof] =
        unclosed ++ .symbol .closeCurly :: s'.values :=
      congrArg (List.map Located.value) hmoved.upcoming
    exact ⟨root, s', hrun, (List.cons.inj (List.append_cancel_left hvalues)).2.symm⟩
  · obtain ⟨-, -, hmodule⟩ :=
      moduleDecl_at_closing_brace 1 none (start (unclosed ++ [.eof])) unclosed rfl (by decide)
    obtain ⟨turns, s₁, -, -, -, marker, s', span, hrun, hnotice⟩ := hmodule ⟨"m"⟩ _ rfl
    exact ⟨marker, s', span, hrun, hnotice⟩

end FrontEnd.Grammar
