import FrontEnd.Proofs.Grammar.Likeness

/-!
# Reading modules

A module is a header, the pieces that the loop over declarations takes, and a brace.
`moduleRecord` reads a module as `moduleDecl` does and also tells which attempts were
made.

## Main definitions

* `ModuleRead`: what a run over a module has read and made.

## Main statements

* `Loop.Run.moduleRecord_eq`: what comes of a module with a header.
* `moduleRecord_run`: what every run that succeeds has read and made.
* `LoopTakes.moduleRecord`: tokens that make a module are read as that module.
-/

namespace FrontEnd.Grammar

open Phrase Store

variable {s s' s₁ s₂ : State} {t next : Token} {ts us rest : List Token} {around : Option Position}
  {store : Store} {room depth : Nat} {root : NodeId} {name : Ident} {pieces : List Piece}

/-- The tokens before the body of a module. -/
def headerTokens (name : Ident) : List Token :=
  [.keyword .module, .ident name, .symbol .openCurly]

/-- What a run over a whole module has read and made. -/
structure ModuleRead (room : Nat) (name : Ident) (header : List (Located Token))
    (pieces : List Piece) (close : Located Token) (root : NodeId) (s s' : State) : Prop where
  header_eq : header.map Located.value = [.keyword .module, .ident name, .symbol .openCurly]
  close_eq : close.value = .symbol .closeCurly
  valid : ∀ p ∈ pieces, p.Valid room
  moved : Moved s (header ++ (pieces.flatMap Piece.tokens ++ [close])) s'
  placed : ∃ ids, ModuleAt s'.store
    ⟨name, (pieces.foldl Tally.add ⟨[], s.notices.toList⟩).decls⟩ root ids
  notices : ∃ span, (s'.store.get? root).bind Node.span = some span ∧
    s'.notices.toList = (pieces.foldl Tally.add ⟨[], s.notices.toList⟩).notices ++
      if pieces.isEmpty then [.of (.emptyModule name) span] else []

/-- The state in which the loop of a module starts, behind the opening brace. -/
def loopStart (s : State) (name : Ident) : State :=
  s.advance.advance.advance.withStore (s.store.build (.emptyModule name) none).2

/-- The loop of a module that is read from a state. -/
def Loop.ofModule (room : Nat) (s : State) (name : Ident) : Loop :=
  ⟨room, s.store.fresh, (loopStart s name).depth, some s.cursor.current.span.start⟩

/-- The loop starts with nothing in the tally. -/
theorem stands_loopStart (s : State) (name : Ident) :
    Stands s.store s.store.fresh name ⟨[], s.notices.toList⟩ (loopStart s name) :=
  ⟨⟨[], .empty s.store name⟩, rfl⟩

/-- The state behind a module: a module without attempts is warned about, and the root
gets its span. -/
def finish (root : NodeId) (name : Ident) (span : Span) (isEmpty : Bool) (s : State) : State :=
  let s := if isEmpty then s.record (.emptyModule name) span else s
  s.withStore (s.store.setSpan root span)

section Finish

variable (root : NodeId) (name : Ident) (span : Span) (isEmpty : Bool) (s : State)

theorem finish_cursor : (finish root name span isEmpty s).cursor = s.cursor := by
  cases isEmpty <;> rfl

theorem finish_store : (finish root name span isEmpty s).store = s.store.setSpan root span := by
  cases isEmpty <;> rfl

theorem finish_notices : (finish root name span isEmpty s).notices.toList =
    s.notices.toList ++ if isEmpty then [.of (.emptyModule name) span] else [] := by
  cases isEmpty <;> simp [finish, State.withStore, State.record]

end Finish

/-- A module, with the attempts at its declarations as a further result. -/
def moduleRecord (room : Nat) : Parser (NodeId × List Attempt) := do
  let ⟨(module, name, log), span⟩ ← mapped do
    keyword .module
    let name ← ident
    symbol .openCurly
    let module ← build (.emptyModule name.value) none
    let log ← attempts room module (← get).depth ((← tokensAhead) + 1)
    symbol .closeCurly
    return (module, name.value, log)
  if log.isEmpty then record (.emptyModule name) span
  setSpan module span
  return (module, log)

/-- The record is all that sets the two productions apart. -/
theorem moduleDecl_eq_moduleRecord : outcome (moduleDecl room) around s =
    mapOk Prod.fst (outcome (moduleRecord room) around s) := by
  let forget : NodeId × Ident × List Attempt → NodeId × Ident × Bool :=
    fun r => (r.1, r.2.1, !r.2.2.isEmpty)
  refine bind_mapOk (f := fun r : Located _ => ⟨forget r.value, r.span⟩) ?_ ?_
  · refine mapped_mapOk ?_
    refine bind_congr_mapOk fun _ s₁ => bind_congr_mapOk fun name s₂ =>
      bind_congr_mapOk fun _ s₃ => bind_congr_mapOk fun module s₄ => ?_
    rw [get_bind, get_bind, tokensAhead_bind, tokensAhead_bind]
    refine bind_mapOk (f := fun log => !log.isEmpty) ?_ fun log s₅ =>
      bind_congr_mapOk fun _ s₆ => rfl
    rw [declarations_eq_attempts]
    simp
  · intro r s₁
    obtain ⟨⟨module, name, log⟩, span⟩ := r
    dsimp only [forget]
    cases log.isEmpty <;> rfl

theorem exists_moduleRecord (h : outcome (moduleDecl room) around s = .ok root s') :
    ∃ log, outcome (moduleRecord room) around s = .ok (root, log) s' := by
  rw [moduleDecl_eq_moduleRecord] at h
  cases hrecord : outcome (moduleRecord room) around s with
  | error marker s₁ => simp [hrecord, mapOk] at h
  | ok result s₁ =>
    obtain ⟨rfl, rfl⟩ : result.1 = root ∧ s₁ = s' := by simpa [hrecord, mapOk] using h
    exact ⟨result.2, rfl⟩

theorem mapped_of_error {α : Type} {rule : Parser α} {marker : Marker}
    (h : outcome rule (some s.cursor.current.span.start) s = .error marker s₁) :
    outcome (mapped rule) around s = .error marker s₁ :=
  bind_of_error (x := withReader (fun _ => some s.cursor.current.span.start) rule) h

/-- A run that was refused: it has passed tokens at most, and reports why it fails. -/
def Refused {α : Type} (s : State) (result : EStateM.Result Marker State α) : Prop :=
  ∃ (s₁ : State) (d : Diagnostic) (span : Span), d.isSyntax = true ∧ s₁.notices = s.notices ∧
    result = .error ⟨s.notices.size⟩ (s₁.record d span)

section Refused

variable {α β : Type} {x : Parser α} {f : α → Parser β}

theorem Refused.bind (h : Refused s (outcome x around s₁)) :
    Refused s (outcome (x >>= f) around s₁) := by
  obtain ⟨s₂, d, span, hd, hnotices, hrun⟩ := h
  exact ⟨s₂, d, span, hd, hnotices, bind_of_error hrun⟩

theorem Refused.mapped (h : Refused s (outcome x (some s₁.cursor.current.span.start) s₁)) :
    Refused s (outcome (mapped x) around s₁) := by
  obtain ⟨s₂, d, span, hd, hnotices, hrun⟩ := h
  exact ⟨s₂, d, span, hd, hnotices, mapped_of_error hrun⟩

theorem refused_fail {d : Diagnostic} (hd : d.isSyntax = true) (hnotices : s₁.notices = s.notices) :
    Refused s (outcome (fail d : Parser α) around s₁) := by
  obtain ⟨span, hfail⟩ := outcome_fail (α := α) d around s₁
  rw [hnotices] at hfail
  exact ⟨s₁, d, span, hd, hnotices, hfail⟩

theorem refused_skipOver {kind : TokenKind} (hkind : s₁.cursor.kind ≠ kind)
    (hnotices : s₁.notices = s.notices) : Refused s (outcome (skipOver kind) around s₁) := by
  refine Refused.bind ?_
  rw [expect, currentKind_bind, if_neg hkind]
  exact refused_fail rfl hnotices

theorem refused_ident (hident : ∀ name, s₁.cursor.current.value ≠ .ident name)
    (hnotices : s₁.notices = s.notices) : Refused s (outcome ident around s₁) := by
  rw [ident, current_bind]
  split
  next name hname => exact absurd hname (hident name)
  next => exact refused_fail rfl hnotices

/-- A header is there, or reading it is refused. -/
theorem header_cases {f : Located Ident → Parser β} (around : Option Position) (hs : s.Ended) :
    (∃ name body, s.values = headerTokens name ++ body) ∨ Refused s (outcome (do
      keyword .module
      let name ← ident
      symbol .openCurly
      f name) around s) := by
  by_cases hmodule : s.cursor.kind = .keyword .module
  swap
  · exact .inr (refused_skipOver hmodule rfl).bind
  have hs₀ := s.values_eq
  rw [Token.kind_eq_keyword.mp hmodule] at hs₀
  have hpass₀ := passes_advance hs₀ (by simp) (hs.tail_ne_nil hs₀ (by simp))
  rw [keyword_bind hs₀]
  by_cases hident : ∀ name, s.advance.cursor.current.value ≠ .ident name
  · exact .inr (refused_ident hident rfl).bind
  obtain ⟨name, hname⟩ : ∃ name, s.advance.cursor.current.value = .ident name := by
    simpa using hident
  have hs₁ := s.advance.values_eq
  rw [hname] at hs₁
  have hpass₁ := passes_advance hs₁ (by simp) ((hpass₀.ended hs).tail_ne_nil hs₁ (by simp))
  rw [ident_bind hs₁]
  by_cases hopen : s.advance.advance.cursor.kind = .symbol .openCurly
  swap
  · exact .inr (refused_skipOver hopen rfl).bind
  have hvalues := (hpass₀.trans hpass₁).values
  rw [State.values_eq s.advance.advance, Token.kind_eq_symbol.mp hopen] at hvalues
  exact .inl ⟨name, _, hvalues⟩

end Refused

/-- The header of a module is passed before its loop starts. -/
theorem moved_loopStart {us : List Token} (hs : s.Ended)
    (hvalues : s.values = .keyword .module :: .ident name :: .symbol .openCurly :: us) :
    ∃ header, header.map Located.value = [.keyword .module, .ident name, .symbol .openCurly] ∧
      Moved s header (loopStart s name) := by
  have hpass₀ := passes_advance hvalues
  have hs₁ := hpass₀.values_right hvalues
  have hpass₁ := passes_advance hs₁
  have hs₂ := hpass₁.values_right hs₁
  have hended := (hpass₀.trans hpass₁).ended hs
  have hpass := (hpass₀.trans hpass₁).trans
    (passes_advance hs₂ (by simp) (hended.tail_ne_nil hs₂ (by simp)))
  obtain ⟨header, hheader, hmoved⟩ := hpass.moved
  exact ⟨header, hheader, hmoved.of_cursor_eq rfl⟩

/-- What a module with its header comes to, by where its loop stops. -/
theorem Loop.Run.moduleRecord_eq {turns : List Turn} (around : Option Position) (hended : s.Ended)
    (hs : s.values = headerTokens name ++ us)
    (hrun : (Loop.ofModule room s name).Run (loopStart s name) turns s₁) :
    (s₁.cursor.kind = .symbol .closeCurly ∧ ∃ span, outcome (moduleRecord room) around s =
      .ok (s.store.fresh, turns.map Turn.attempt)
        (finish s.store.fresh name span turns.isEmpty s₁.advance)) ∨
    (s₁.cursor.kind = .eof ∧ ∃ span, outcome (moduleRecord room) around s =
      .error ⟨s₁.notices.size⟩
        (s₁.record (.unexpectedToken (.symbol .closeCurly) .eof) span)) := by
  have hs₁ := values_advance hs
  have hs₂ := values_advance hs₁
  obtain ⟨header, -, hmoved⟩ := moved_loopStart hended hs
  have hloop := hrun.record_eq (hmoved.ended hended) (Nat.le_of_eq (State.ahead_length _).symm)
  have hinner : outcome (do
      keyword .module
      let name ← ident
      symbol .openCurly
      let module ← build (.emptyModule name.value) none
      let log ← attempts room module (← get).depth ((← tokensAhead) + 1)
      symbol .closeCurly
      return (module, name.value, log)) (some s.cursor.current.span.start) s = outcome (do
      let log ← (Loop.ofModule room s name).record ((loopStart s name).cursor.ahead.length + 1)
      symbol .closeCurly
      return (s.store.fresh, name, log)) (some s.cursor.current.span.start) (loopStart s name) := by
    rw [keyword_bind hs, ident_bind hs₁, symbol_bind hs₂, build_bind, get_bind, tokensAhead_bind]
    rfl
  rcases hrun.stops with hclose | heof
  · rw [Loop.record_of_closeCurly _ hclose 0] at hloop
    have hvalues := s₁.values_eq
    rw [Token.kind_eq_symbol.mp hclose] at hvalues
    have hok := hinner.trans ((bind_of_ok hloop).trans (symbol_bind hvalues))
    refine .inl ⟨hclose, ⟨s.cursor.current.span.start, s₁.advance.cursor.lastSpan.stop⟩, ?_⟩
    rw [moduleRecord, bind_of_ok (mapped_of_ok hok)]
    cases turns <;> simp <;> rfl
  · obtain ⟨span, hfail⟩ := Loop.record_of_eof (Loop.ofModule room s name) heof
    rw [hfail 0] at hloop
    exact .inr ⟨heof, span,
      bind_of_error (mapped_of_error (hinner.trans (bind_of_error hloop)))⟩

/-- What a module is once the loop over its declarations is done. -/
theorem moduleRead_finish {header : List (Located Token)}
    {vs : List Token} (hs : s.Ended) (span : Span)
    (hheader : header.map Located.value = [.keyword .module, .ident name, .symbol .openCurly])
    (hvalid : ∀ p ∈ pieces, p.Valid room) (hmoved : Moved s header (loopStart s name))
    (hmoved₁ : Moved (loopStart s name) (pieces.flatMap Piece.tokens) s₁)
    (hstands : Stands s.store s.store.fresh name
      (pieces.foldl Tally.add ⟨[], s.notices.toList⟩) s₁)
    (hclose : s₁.values = .symbol .closeCurly :: vs) :
    ModuleRead room name header pieces s₁.cursor.current s.store.fresh s
      (finish s.store.fresh name span pieces.isEmpty s₁.advance) := by
  have hended := (hmoved.trans hmoved₁).ended hs
  have hpass := passes_advance hclose (by simp) (hended.tail_ne_nil hclose (by simp))
  have hmoved₂ : Moved s₁ [s₁.cursor.current] s₁.advance := by
    have hupcoming : s₁.upcoming = [s₁.cursor.current] ++ s₁.cursor.ahead := rfl
    rw [← State.current_of_values hclose] at hpass
    exact Passes.moved_of_upcoming hpass hupcoming
  have hall := (hmoved.trans hmoved₁).trans hmoved₂
  obtain ⟨ids, hopen⟩ := hstands.opened
  have hplaced := hopen.close span
  refine ⟨hheader, State.current_of_values hclose, hvalid, ?_,
    ⟨ids, by rwa [finish_store, State.store_advance]⟩, span, ?_, ?_⟩
  · rw [← List.append_assoc]
    exact hall.of_cursor_eq (by rw [finish_cursor])
  · rw [finish_store, State.store_advance, get?_setSpan, if_pos rfl, hopen.node]
    rfl
  · rw [finish_notices, State.notices_advance, hstands.notices]

/-- There are as many attempts as pieces. -/
theorem isEmpty_of_record {turns : List Turn} {start : Nat}
    (h : turns.map Turn.attempt = recordOf start pieces) : turns.isEmpty = pieces.isEmpty := by
  cases turns <;> cases pieces <;> first | rfl | cases h

/-- What a run over a module has read and made. -/
theorem moduleRecord_run {log : List Attempt} (hs : s.Ended)
    (hrun : outcome (moduleRecord room) around s = .ok (root, log) s') :
    ∃ name header pieces close, ModuleRead room name header pieces close root s s' ∧
      log = recordOf (s.cursor.position + header.length) pieces := by
  rcases header_cases (some s.cursor.current.span.start) hs with ⟨name, us, hvalues⟩ | hrefused
  swap
  · obtain ⟨s₁, d, span, -, -, hfail⟩ := hrefused.mapped.bind
    cases hrun.symm.trans hfail
  obtain ⟨header, hheader, hmoved⟩ := moved_loopStart hs hvalues
  obtain ⟨turns, s₁, hturns⟩ :=
    Loop.exists_run (Loop.ofModule room s name) (hmoved.ended hs)
  rcases hturns.moduleRecord_eq around hs hvalues with ⟨hclose, span, hok⟩ | ⟨-, span, hfail⟩
  · cases hrun.symm.trans hok
    obtain ⟨pieces, hvalid, hmoved₁, hstands, hlog⟩ :=
      hturns.turns.exists_pieces (hmoved.ended hs) (stands_loopStart s name)
    refine ⟨name, header, pieces, s₁.cursor.current, ?_, by rw [hlog, hmoved.position_eq]⟩
    have hclosing := s₁.values_eq
    rw [Token.kind_eq_symbol.mp hclose] at hclosing
    rw [isEmpty_of_record hlog]
    exact moduleRead_finish hs span hheader hvalid hmoved hmoved₁ hstands hclosing
  · cases hrun.symm.trans hfail

/-! ## What the loop takes -/

/-- Where tokens lie ahead that start as a declaration does, and the next declaration or the end of
the module behind them, a turn of the loop takes them as a piece with a property. -/
structure TurnTakes (room : Nat) (tokens : List (Located Token)) (Good : Piece → Prop) : Prop where
  starts : ∃ first rest, tokens = first :: rest ∧ startsDeclaration first.value.kind = true
  takes : ∀ ⦃s : State⦄ ⦃store : Store⦄ ⦃root : NodeId⦄ ⦃name : Ident⦄ ⦃tally : Tally⦄
    ⦃next : Located Token⦄ ⦃rest : List (Located Token)⦄ (around : Option Position), s.Ended →
    Stands store root name tally s → s.upcoming = tokens ++ next :: rest →
    next.value.kind = .symbol .closeCurly ∨ startsDeclaration next.value.kind = true →
    ∃ piece result s', Loop.Takes ⟨room, root, s.depth, around⟩ ⟨s, result, s'⟩ ∧
      Good piece ∧ piece.Valid room ∧ piece.isRead = result.isOk ∧ piece.tokens = tokens ∧
      Moved s tokens s' ∧ s'.depth = s.depth ∧ Stands store root name (tally.add piece) s'

/-- Where tokens lie ahead and a closing brace behind them, the loop over declarations takes them as
pieces with a property. -/
structure LoopTakes (room : Nat) (tokens : List (Located Token)) (Good : List Piece → Prop) :
    Prop where
  starts : ∀ first ∈ tokens.head?, startsDeclaration first.value.kind = true
  takes : ∀ ⦃s : State⦄ ⦃store : Store⦄ ⦃root : NodeId⦄ ⦃name : Ident⦄ ⦃tally : Tally⦄
    ⦃close : Located Token⦄ ⦃rest : List (Located Token)⦄ (around : Option Position), s.Ended →
    Stands store root name tally s → s.upcoming = tokens ++ close :: rest →
    close.value = .symbol .closeCurly → ∃ pieces turns s',
      Loop.Turns ⟨room, root, s.depth, around⟩ s turns s' ∧ Good pieces ∧
      (∀ p ∈ pieces, p.Valid room) ∧ pieces.flatMap Piece.tokens = tokens ∧ Moved s tokens s' ∧
      Stands store root name (pieces.foldl Tally.add tally) s' ∧
      turns.map Turn.attempt = recordOf s.cursor.position pieces

namespace LoopTakes

variable {Good : List Piece → Prop}

theorem nil (h : Good []) : LoopTakes room [] Good :=
  ⟨by simp, fun s _ _ _ _ _ _ _ _ hstands _ _ =>
    ⟨[], [], s, .nil s, h, by simp, rfl, .refl rfl, hstands, rfl⟩⟩

/-- The loop goes on behind a piece. -/
theorem cons {first more : List (Located Token)} {GoodPiece : Piece → Prop}
    {Good' : List Piece → Prop} (hfirst : TurnTakes room first GoodPiece)
    (hmore : LoopTakes room more Good)
    (hgood : ∀ piece pieces, GoodPiece piece → Good pieces → Good' (piece :: pieces)) :
    LoopTakes room (first ++ more) Good' := by
  obtain ⟨token, others, rfl, hstart⟩ := hfirst.starts
  refine ⟨by simpa using hstart, ?_⟩
  intro s store root name tally close rest around hs hstands hupcoming hclose
  rw [List.append_assoc] at hupcoming
  obtain ⟨next, rest', hcons⟩ : ∃ next rest', more ++ close :: rest = next :: rest' :=
    List.exists_cons_of_ne_nil (by simp)
  have hnext : next.value.kind = .symbol .closeCurly ∨
      startsDeclaration next.value.kind = true := by
    cases more with
    | nil =>
      obtain ⟨rfl, -⟩ := List.cons.inj hcons
      exact .inl (by rw [hclose]; rfl)
    | cons token more =>
      obtain ⟨rfl, -⟩ := List.cons.inj hcons
      exact .inr (hmore.starts _ rfl)
  obtain ⟨piece, result, s₁, hturn, hpiece, hvalid, hisRead, htokens, hmoved, hdepth, hstands₁⟩ :=
    hfirst.takes around hs hstands (hcons ▸ hupcoming) hnext
  have hs₁ : s₁.upcoming = more ++ close :: rest :=
    List.append_cancel_left (hmoved.upcoming.symm.trans hupcoming)
  obtain ⟨pieces, turns, s', hturns, hpieces, hvalid', rfl, hmoved', hstands', hrecord⟩ :=
    hmore.takes around (hmoved.ended hs) hstands₁ hs₁ hclose
  rw [hdepth] at hturns
  refine ⟨piece :: pieces, _, s', .cons hturn hturns, hgood piece pieces hpiece hpieces,
    List.forall_mem_cons.mpr ⟨hvalid, hvalid'⟩, by rw [List.flatMap_cons, htokens],
    hmoved.trans hmoved', hstands', ?_⟩
  rw [List.map_cons, hrecord, recordOf, Turn.attempt, htokens, hisRead, hmoved.position_eq]

/-- Tokens that the loop takes make a module. -/
theorem moduleRecord {header middle rest : List (Located Token)} {close : Located Token}
    (h : LoopTakes room middle Good) (around : Option Position) (hs : s.Ended)
    (hheader : header.map Located.value = [.keyword .module, .ident name, .symbol .openCurly])
    (hclose : close.value = .symbol .closeCurly)
    (hupcoming : s.upcoming = header ++ (middle ++ close :: rest)) :
    ∃ root pieces s', outcome (Grammar.moduleRecord room) around s =
        .ok (root, recordOf (s.cursor.position + header.length) pieces) s' ∧ Good pieces ∧
      s'.upcoming = rest ∧ ModuleRead room name header pieces close root s s' := by
  have hvalues : s.values = headerTokens name ++ (middle ++ close :: rest).map Located.value := by
    rw [State.values, hupcoming, List.map_append, hheader]
    rfl
  obtain ⟨header', hheader', hmoved⟩ := moved_loopStart hs hvalues
  obtain ⟨rfl, hloop⟩ : header' = header ∧
      (loopStart s name).upcoming = middle ++ close :: rest := by
    have hlength : header'.length = header.length := by
      simpa using congrArg List.length (hheader'.trans hheader.symm)
    exact List.append_inj (hmoved.upcoming.symm.trans hupcoming) hlength
  obtain ⟨pieces, turns, s₁, hturns, hgood, hvalid, rfl, hmoved₁, hstands, hrecord⟩ :=
    h.takes (some s.cursor.current.span.start) (hmoved.ended hs) (stands_loopStart s name) hloop
      hclose
  have hs₁ : s₁.upcoming = close :: rest :=
    List.append_cancel_left (hmoved₁.upcoming.symm.trans hloop)
  have hvalues₁ : s₁.values = .symbol .closeCurly :: rest.map Located.value := by
    rw [State.values, hs₁, List.map_cons, hclose]
  have hkind : s₁.cursor.kind = .symbol .closeCurly := State.kind_of_values hvalues₁
  obtain rfl : s₁.cursor.current = close := (List.cons.inj hs₁).1
  have hrun : (Loop.ofModule room s name).Run (loopStart s name) turns s₁ := ⟨hturns, .inl hkind⟩
  rcases hrun.moduleRecord_eq around hs hvalues with ⟨-, span, hok⟩ | ⟨heof, -⟩
  swap
  · simp [hkind] at heof
  rw [isEmpty_of_record hrecord, hrecord, hmoved.position_eq] at hok
  have hread := moduleRead_finish hs span hheader hvalid hmoved hmoved₁ hstands hvalues₁
  refine ⟨_, pieces, _, hok, hgood, ?_, hread⟩
  have hrest := hread.moved.upcoming
  rw [hupcoming, List.append_assoc, List.append_assoc, List.append_cancel_left_eq,
    List.append_cancel_left_eq, List.singleton_append, List.cons.injEq] at hrest
  exact hrest.2.symm

end LoopTakes

/-- Where a declaration starts, the module neither ends nor does the input. -/
theorem hasNext_of_startsDeclaration (h : startsDeclaration s.cursor.kind = true) :
    s.cursor.kind ≠ .symbol .closeCurly ∧ s.cursor.hasNext = true := by
  rw [Cursor.hasNext, decide_eq_true_iff]
  constructor <;>
  · intro hkind
    rw [hkind] at h
    cases h

/-- A declaration is read in one turn. -/
theorem turnTakes_read {tokens : List (Located Token)} {d : Decl} {Good : Piece → Prop}
    (hd : DeclarationTokens room (tokens.map Located.value) d) (hgood : Good (.read tokens d)) :
    TurnTakes room tokens Good := by
  obtain ⟨_, _, hts, hstart⟩ := hd.exists_cons
  obtain ⟨first, others, rfl, rfl, -⟩ := List.map_eq_cons_iff.mp hts
  refine ⟨⟨first, others, rfl, hstart⟩, ?_⟩
  intro s store root name tally next rest around hs hstands hupcoming _
  obtain ⟨item, s₁, s₂, hrun, hregister, hmoved, hstands'⟩ :=
    read_declaration around hstands hd hupcoming
  obtain ⟨hcurly, hnext⟩ : s.cursor.kind ≠ .symbol .closeCurly ∧ s.cursor.hasNext = true := by
    refine hasNext_of_startsDeclaration ?_
    rwa [Cursor.kind, (List.cons.inj hupcoming).1]
  have hdepth : s₂.depth = s.depth :=
    (register_frame hregister).2.1.trans ((balanced_declaration room).sinks hs hrun).depth
  exact ⟨_, _, s₂, .read hcurly hnext hrun hregister, hgood, hd, rfl, rfl, hmoved, hdepth, hstands'⟩

/-- Declarations are all read. -/
theorem loopTakes_pieces {Good : List Piece → Prop}
    (h : ∀ p ∈ pieces, p.Valid room ∧ p.isRead = true) (hgood : Good pieces) :
    LoopTakes room (pieces.flatMap Piece.tokens) Good := by
  induction pieces generalizing Good with
  | nil => exact .nil hgood
  | cons piece pieces ih =>
    obtain ⟨⟨hvalid, hisRead⟩, hrest⟩ := List.forall_mem_cons.mp h
    cases piece with
    | dropped _ _ => cases hisRead
    | read tokens d =>
      have hmore : LoopTakes room (pieces.flatMap Piece.tokens) (· = pieces) := ih hrest rfl
      have hfirst : TurnTakes room tokens (· = .read tokens d) := turnTakes_read hvalid rfl
      refine hmore.cons hfirst ?_
      rintro _ _ rfl rfl
      exact hgood

end FrontEnd.Grammar
