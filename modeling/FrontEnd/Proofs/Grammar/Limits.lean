import FrontEnd.Proofs.Grammar.Likeness

/-!
# Less room

Blocks and expressions are read with room for some more inside of them.  With less room a production
does what it does with more, or it fails for want of room and records nothing but that.  Where it
fails the run with more room comes by too, so the failure lies within what that run reads.

The body of a function is where room is wanted.  Its braces are open at the failure, so recovery
skips to the end of the function and no further.

## Main definitions

* `Cramped`: a failure for want of room.
* `Follows`: the outcome of the full run, or a cramped one.
* `Stays`: the same, where a cramped run fails inside of braces.

## Main statements

* `limits_expression`, `limits_block`: the productions that take room.
* `stays_declaration`: a declaration that is cramped is so inside of braces.
* `drop_declaration`: recovery skips the rest of a declaration that is cramped.
-/

namespace FrontEnd.Grammar

open Phrase

variable {α β : Type} {s s' s₁ s₂ : State} {around : Option Position} {i j k : Nat}

/-! ## Failures for want of room -/

/-- The tokens between two states that are reached from one. -/
theorem Sinks.exists_between (h : Sinks s k s₁) (h' : Sinks s j s₂)
    (hle : s₂.values.length ≤ s₁.values.length) :
    ∃ vs, s₁.values = vs ++ s₂.values ∧ openAfter k vs = some j ∧ .eof ∉ vs := by
  obtain ⟨read, hmoved, hopen, -⟩ := h.moved
  obtain ⟨read', hmoved', hopen', hpassed⟩ := h'.moved
  have hshorter : read.length ≤ read'.length := by
    have hlength := hmoved.length_values
    have hlength' := hmoved'.length_values
    omega
  obtain ⟨more, rfl⟩ : read <+: read' :=
    List.prefix_of_prefix_length_le ⟨_, hmoved.upcoming.symm⟩ ⟨_, hmoved'.upcoming.symm⟩ hshorter
  rw [List.map_append] at hopen' hpassed
  refine ⟨more.map Located.value, ?_, ?_, fun hmem => hpassed (List.mem_append_right _ hmem)⟩
  · have hrest := hmoved.upcoming.symm.trans hmoved'.upcoming
    rw [List.append_assoc, List.append_cancel_left_eq] at hrest
    rw [State.values, hrest, List.map_append]
    rfl
  · rwa [openAfter_append, hopen, Option.bind_some] at hopen'

theorem bind_outcome_congr {p q : Parser α} {f : α → Parser β}
    (h : outcome p around s = outcome q around s) :
    outcome (p >>= f) around s = outcome (q >>= f) around s := by
  cases hrun : outcome q around s with
  | ok a s₁ => rw [bind_of_ok hrun, bind_of_ok (h.trans hrun)]
  | error marker s₁ => rw [bind_of_error hrun, bind_of_error (h.trans hrun)]

/-- A run failed for want of room, and no further on than where the full run ends if it succeeds. -/
def Cramped (s : State) (result full : EStateM.Result Marker State α) : Prop :=
  ∃ k s₁ span, Sinks s k s₁ ∧
    result = .error ⟨s₁.notices.size⟩ (s₁.record (.nestingTooDeep maxNesting) span) ∧
    ∀ a s', full = .ok a s' → s'.values.length ≤ s₁.values.length

/-- A run has the outcome of the full run, or failed for want of room. -/
def Follows (s : State) (result full : EStateM.Result Marker State α) : Prop :=
  result = full ∨ Cramped s result full

theorem likeness_follows : Likeness Follows where
  refl _ _ := .inl rfl
  of_sinks hs h := by
    obtain heq | ⟨j, s₂, span, hsinks, hresult⟩ := h
    · exact .inl heq
    · exact .inr ⟨_, s₂, span, hs.trans hsinks, hresult⟩
  bind {α β p q f g around s} hs hq hfirst hrest hless := by
    obtain heq | ⟨k, s₁, span, hsinks, hfail, hbeyond⟩ := hfirst
    · cases hrun : outcome q around s with
      | ok a s₁ =>
        rw [bind_of_ok hrun, bind_of_ok (heq.trans hrun)]
        have hsinks := hq.sinks hs hrun
        obtain heq | ⟨j, s₂, span, hsinks', hresult⟩ := hrest a s₁ hsinks
        · exact .inl heq
        · exact .inr ⟨_, s₂, span, hsinks.trans hsinks', hresult⟩
      | error marker s₁ =>
        rw [bind_of_error hrun, bind_of_error (heq.trans hrun)]
        exact .inl rfl
    · rw [bind_of_error hfail]
      refine .inr ⟨k, s₁, span, hsinks, rfl, fun b s' hok => ?_⟩
      obtain ⟨a, s₂, hok₁, hok₂⟩ := bind_eq_ok hok
      have hle := hless a s₂ b s' (hq.shrinks hs hok₁).1 hok₂
      have hmore := hbeyond a s₂ hok₁
      omega

/-- Without any room a production fails at once. -/
theorem resembles_fail {q : Parser α} (hq : Balanced q) :
    Resembles Follows (fail (.nestingTooDeep maxNesting)) q := by
  refine ⟨fun around s hs => ?_, hq⟩
  obtain ⟨span, hfail⟩ := outcome_fail (α := α) (.nestingTooDeep maxNesting) around s
  exact .inr ⟨0, s, span, .refl hs, hfail, fun a s' hok => (hq.shrinks hs hok).2⟩

/-- An expression with less room. -/
theorem limits_expression (more room : Nat) :
    Resembles Follows (expression room) (expression (more + room)) := by
  induction room with
  | zero => exact resembles_fail (balanced_expression _)
  | succ room ih =>
    exact resembles_operands likeness_follows (resembles_primary likeness_follows ih)

/-! ## Bodies -/

/-- A run failed for want of room inside of braces, and the full run ends behind these braces if it
succeeds. -/
def Enclosed (s : State) (result full : EStateM.Result Marker State α) : Prop :=
  ∃ sₐ k s₁ span, Sinks s 1 sₐ ∧ Sinks sₐ k s₁ ∧
    result = .error ⟨s₁.notices.size⟩ (s₁.record (.nestingTooDeep maxNesting) span) ∧
    ∀ a s', full = .ok a s' → ∃ s₂, Sinks sₐ 0 s₂ ∧ s₂.values.length ≤ s₁.values.length ∧
      s₂.cursor.kind = .symbol .closeCurly ∧ s'.cursor = s₂.advance.cursor

namespace Enclosed

variable {result full : EStateM.Result Marker State α}

theorem of_sinks (h : Enclosed s₁ result full) (hs : Sinks s 0 s₁) : Enclosed s result full := by
  obtain ⟨sₐ, k, s₂, span, hopen, hrest⟩ := h
  exact ⟨sₐ, k, s₂, span, hs.trans hopen, hrest⟩

end Enclosed

/-- A run has the outcome of the full run, or failed for want of room inside of braces. -/
def Stays (s : State) (result full : EStateM.Result Marker State α) : Prop :=
  result = full ∨ Enclosed s result full

namespace Stays

variable {p q : Parser α}

theorem of_sinks {result full : EStateM.Result Marker State α} (h : Stays s₁ result full)
    (hs : Sinks s 0 s₁) : Stays s result full :=
  h.imp_right fun h => h.of_sinks hs

/-- What comes behind the braces passes no token. -/
theorem bind {f : α → Parser β} (h : Stays s (outcome p around s₁) (outcome q around s₁))
    (hf : ∀ a s b s', outcome (f a) around s = .ok b s' → s'.cursor = s.cursor) :
    Stays s (outcome (p >>= f) around s₁) (outcome (q >>= f) around s₁) := by
  obtain heq | ⟨sₐ, k, s₂, span, hopen, hsinks, hfail, hbeyond⟩ := h
  · exact .inl (bind_outcome_congr heq)
  · refine .inr ⟨sₐ, k, s₂, span, hopen, hsinks, bind_of_error hfail, fun b s' hok => ?_⟩
    obtain ⟨a, s₃, hfirst, hrest⟩ := bind_eq_ok hok
    obtain ⟨s₄, hsinks₄, hle, hclose, hcursor⟩ := hbeyond a s₃ hfirst
    exact ⟨s₄, hsinks₄, hle, hclose, (hf a s₃ b s' hrest).trans hcursor⟩

theorem mapped (h : Stays s (outcome p (some s₁.cursor.current.span.start) s₁)
      (outcome q (some s₁.cursor.current.span.start) s₁)) :
    Stays s (outcome (mapped p) around s₁) (outcome (mapped q) around s₁) := by
  have hreader : Stays s
      (outcome (withReader (fun _ => some s₁.cursor.current.span.start) p) around s₁)
      (outcome (withReader (fun _ => some s₁.cursor.current.span.start) q) around s₁) := h
  refine hreader.bind fun a s b s' hok => ?_
  cases hok
  rfl

theorem declaring {p q : Parser (Ident × Construct)}
    (h : Stays s (outcome p (some s₁.cursor.current.span.start) s₁)
      (outcome q (some s₁.cursor.current.span.start) s₁)) :
    Stays s (outcome (declaring p) around s₁) (outcome (declaring q) around s₁) := by
  refine h.mapped.bind fun a s b s' hok => ?_
  cases hok
  rfl

end Stays

/-- Statements in braces that may lack room. -/
theorem stays_braces {p q : Parser NodeId} (h : Resembles Follows p q) (around : Option Position)
    (hs : s.Ended) : Stays s (outcome (braces p) around s) (outcome (braces q) around s) := by
  refine Stays.bind (Stays.mapped ?_) fun a s b s' hok => ?_
  · change Stays s (outcome (bracedBlock p) _ s) (outcome (bracedBlock q) _ s)
    by_cases hopen : s.cursor.kind = .symbol .openCurly
    · obtain ⟨block, n, s₁, hsinks, hrun⟩ := bracedBlock_eq hs hopen
      rw [hrun, hrun]
      have hstatements := resembles_statements likeness_follows h block n
      obtain heq | ⟨k, s₂, span, hsinks₂, hfail, hbeyond⟩ :=
        hstatements.like (some s.cursor.current.span.start) s₁ hsinks.ended
      · exact .inl (bind_outcome_congr heq)
      · refine .inr ⟨s₁, k, s₂, span, hsinks, hsinks₂, bind_of_error hfail, fun id s' hok => ?_⟩
        obtain ⟨_, s₃, hfirst, hrest⟩ := bind_eq_ok hok
        obtain ⟨hclose, hpure⟩ := skipOver_bind_eq_ok hrest
        cases hpure
        exact ⟨s₃, hstatements.balanced.sinks hsinks.ended hfirst, hbeyond _ _ hfirst, hclose, rfl⟩
    · exact .inl (bracedBlock_eq_of_ne p q hopen)
  · cases hok
    rfl

/-- A block with less room. -/
theorem limits_block (more room : Nat) :
    Resembles Follows (block room) (block (more + room)) := by
  induction room with
  | zero => exact resembles_fail (balanced_block _)
  | succ room ih =>
    exact resembles_braces likeness_follows
      (resembles_statement likeness_follows (limits_expression more room) ih)

/-- A block with less room, but some. -/
theorem stays_block (more room : Nat) (around : Option Position) (hs : s.Ended) :
    Stays s (outcome (block (room + 1)) around s)
      (outcome (block (more + (room + 1))) around s) :=
  stays_braces (resembles_statement likeness_follows (limits_expression more room)
    (limits_block more room)) around hs

theorem stays_function (more room : Nat) (attributes : List NodeId) (around : Option Position)
    (hs : s.Ended) :
    Stays s (outcome (function (room + 1) attributes) around s)
      (outcome (function (more + (room + 1)) attributes) around s) := by
  have hbefore : Balanced (do keyword .fn; prototype) :=
    (balanced_keyword _).bind fun _ => balanced_prototype
  refine Stays.declaring ?_
  rw [← bind_assoc, ← bind_assoc]
  cases hrun : outcome (do keyword .fn; prototype) (some s.cursor.current.span.start) s with
  | ok item s₁ =>
    have hsinks := hbefore.sinks hs hrun
    rw [bind_of_ok hrun, bind_of_ok hrun]
    refine Stays.of_sinks (Stays.bind (stays_block more room _ hsinks.ended) ?_) hsinks
    intro id s b s' hok
    cases hok
    rfl
  | error marker s₁ =>
    rw [bind_of_error hrun, bind_of_error hrun]
    exact .inl rfl

/-- A declaration with less room, but some. -/
theorem stays_declaration (more room : Nat) (around : Option Position) (hs : s.Ended) :
    Stays s (outcome (declaration (room + 1)) around s)
      (outcome (declaration (more + (room + 1))) around s) := by
  rw [declaration, declaration, tokensAhead_bind, tokensAhead_bind]
  cases hrun : outcome (attributes (s.cursor.ahead.length + 1) []) around s with
  | ok ids s₁ =>
    have hsinks := (balanced_attributes _ _).sinks hs hrun
    rw [bind_of_ok hrun, bind_of_ok hrun, currentKind_bind, currentKind_bind]
    split
    · exact (stays_function more room ids around hsinks.ended).of_sinks hsinks
    · exact .inl rfl
    · exact .inl rfl
  | error marker s₁ =>
    rw [bind_of_error hrun, bind_of_error hrun]
    exact .inl rfl

/-! ## Recovery behind a body -/

/-- Skipping from inside of a body ends behind it, where the module may go on. -/
theorem skipToBoundary_body (around : Option Position) {depth n : Nat} {vs rest : List Token}
    {next : Token} (hvalues : s.values = vs ++ .symbol .closeCurly :: next :: rest)
    (heof : .eof ∉ vs) (hopen : openAfter k vs = some 0) (hdepth : s.depth = depth + 1 + k)
    (hnext : next.kind = .symbol .closeCurly ∨ startsDeclaration next.kind = true)
    (hn : vs.length + 2 ≤ n) (skipped : Nat) :
    ∃ m s', outcome (skipToBoundary depth n skipped) around s = .ok m s' ∧
      Passes s (vs ++ [.symbol .closeCurly]) s' ∧ s'.depth = depth := by
  induction vs generalizing s n k skipped with
  | nil =>
    obtain ⟨n, rfl⟩ : ∃ m, n = m + 2 := ⟨n - 2, by simp at hn; omega⟩
    obtain rfl := Option.some.inj hopen
    have hpass := passes_advance hvalues
    have hkind := State.kind_of_values hvalues
    have hkind' := State.kind_of_values (hpass.values_right hvalues)
    have hdepth' : s.advance.depth = depth := by
      rw [hpass.depth]
      simp [depthAfter, hdepth]
    refine ⟨skipped + 1, s.advance, ?_, hpass, hdepth'⟩
    rw [skipToBoundary, get_bind]
    dsimp only
    rw [if_pos ⟨by simp [Cursor.hasNext, hkind, Token.kind], by omega, by omega⟩, advance_bind,
      skipToBoundary, get_bind]
    dsimp only
    rw [if_neg (by rw [hkind']; exact fun h => h.2.2 ⟨hdepth', hnext⟩)]
    rfl
  | cons t vs ih =>
    obtain ⟨n, rfl⟩ : ∃ m, n = m + 1 := ⟨n - 1, by simp at hn; omega⟩
    obtain ⟨ht, hrest⟩ := List.ne_and_not_mem_of_not_mem_cons heof
    rw [openAfter_cons, Option.bind_eq_some_iff] at hopen
    obtain ⟨j, hj, hopen⟩ := hopen
    have hpass := passes_advance hvalues ht.symm (by simp)
    have hdepth' : s.advance.depth = depth + 1 + j := by
      rw [hpass.depth, hdepth]
      exact depthAfter_add hj (depth + 1)
    obtain ⟨m, s', hrun, hpass', hstop⟩ := ih (hpass.values_right hvalues) hrest hopen hdepth'
      (by simp at hn ⊢; omega) (skipped + 1)
    refine ⟨m, s', ?_, hpass.trans hpass', hstop⟩
    have hnext : s.cursor.hasNext = true := by
      simp [Cursor.hasNext, State.kind_of_values hvalues, Token.kind_eq_eof, ht.symm]
    rw [skipToBoundary, get_bind]
    dsimp only
    rw [if_pos ⟨hnext, by omega, by omega⟩, advance_bind]
    exact hrun

/-- A failure inside of the body of a declaration, and the way from there to its end. -/
theorem Enclosed.exists_rest {result full : EStateM.Result Marker State α} {a : α}
    {ts us : List Token} (h : Enclosed s result full) (hfull : full = .ok a s')
    (hpass : Passes s ts s') (hs' : s'.values = us) :
    ∃ k marker s₁ read vs, result = .error marker s₁ ∧
      (∃ notices span, s₁.notices = Array.push notices (.of (.nestingTooDeep maxNesting) span)) ∧
      Moved s read s₁ ∧ read ≠ [] ∧ s₁.Ended ∧ s₁.depth = s.depth + 1 + k ∧
      s₁.values = vs ++ .symbol .closeCurly :: us ∧ openAfter k vs = some 0 ∧ .eof ∉ vs ∧
      ts = read.map Located.value ++ (vs ++ [.symbol .closeCurly]) := by
  obtain ⟨sₐ, k, s₁, span, hopen, hsinks, hfail, hbeyond⟩ := h
  obtain ⟨s₂, hsinks₂, hle, hclose, hcursor⟩ := hbeyond a s' hfull
  obtain ⟨vs, hvalues, hbraces, hbody⟩ := hsinks.exists_between hsinks₂ hle
  have hnext : s₂.cursor.hasNext = true := by simp [Cursor.hasNext, hclose]
  have hs₂ : s₂.values = .symbol .closeCurly :: us := by
    have hmoved := (moved_advance_of_hasNext hsinks₂.ended hnext).of_cursor_eq hcursor
    rw [State.values, hmoved.upcoming, List.map_append, ← hs', List.map_singleton]
    exact congrArg (· :: s'.values) (Token.kind_eq_symbol.mp hclose)
  rw [hs₂] at hvalues
  obtain ⟨read, hmoved, hread, -⟩ := (hopen.trans hsinks).moved
  refine ⟨k, _, _, read, vs, hfail, ⟨s₁.notices, span, rfl⟩, hmoved.of_cursor_eq rfl, ?_,
    hsinks.ended, ?_, hvalues, hbraces, hbody, ?_⟩
  · rintro rfl
    have hzero : 0 = 1 + k := Option.some.inj hread
    omega
  · exact hsinks.depth.trans (by rw [hopen.depth])
  · have hall : ts ++ us = read.map Located.value ++ s₁.values := by
      rw [← hs', ← hpass.values, State.values, hmoved.upcoming, List.map_append]
      rfl
    rw [hvalues] at hall
    have hends : ts ++ us =
        read.map Located.value ++ (vs ++ [.symbol .closeCurly]) ++ us := by
      rw [hall]
      simp
    exact List.append_cancel_right hends

/-- A declaration that lies ahead and wants more room is dropped. -/
theorem drop_declaration (around : Option Position) {store : Store} {root : NodeId} {name : Ident}
    {tally : Tally} {d : Decl} {more : Nat} {tokens rest : List (Located Token)}
    {next : Located Token} (hs : s.Ended) (hstands : Stands store root name tally s)
    (hd : DeclarationTokens (more + maxNesting) (tokens.map Located.value) d)
    (hdeep : ∀ d', ¬ DeclarationTokens maxNesting (tokens.map Located.value) d')
    (hupcoming : s.upcoming = tokens ++ next :: rest)
    (hnext : next.value.kind = .symbol .closeCurly ∨ startsDeclaration next.value.kind = true) :
    ∃ marker s₁ s₂ span, outcome (declaration maxNesting) around s = .error marker s₁ ∧
      outcome (synchronize s.cursor.position s.depth) around s₁ = .ok () s₂ ∧
      Moved s tokens s₂ ∧ s₂.depth = s.depth ∧
      Stands store root name
        (tally.add (.dropped tokens (.of (.nestingTooDeep maxNesting) span))) s₂ := by
  have hvalues : s.values = tokens.map Located.value ++ next.value :: rest.map Located.value := by
    simp [State.values, hupcoming]
  obtain ⟨item, s', hfull, hpass, -⟩ := complete_declaration _ around hd hvalues
  have hsound := plants_declaration maxNesting around hs
  obtain heq | henclosed := stays_declaration more 127 around hs
  · -- With enough room the tokens would be written as the grammar says.
    obtain ⟨ts, hreached, d', hts, -⟩ := hsound.of_ok (heq.trans hfull)
    have hsame := List.append_cancel_right (hreached.passes.values.symm.trans hpass.values)
    exact absurd (hsame ▸ hts) (hdeep d')
  · obtain ⟨k, marker, s₁, read, vs, hfail, ⟨notices, span, hrecord⟩, hmoved, hne, hended, hdepth,
      hvalues₁, hbraces, hbody, hts⟩ := henclosed.exists_rest hfull hpass (hpass.values_right hvalues)
    -- Recovery starts where the declaration failed, which is not at its start.
    have hposition : s₁.cursor.position ≠ s.cursor.position := by
      have hpositive := List.length_pos_iff.mpr hne
      have hmove := hmoved.position_eq
      omega
    have hfuel : vs.length + 2 ≤ s₁.cursor.ahead.length + 1 := by
      rw [State.ahead_length, hvalues₁]
      simp
    obtain ⟨m, s₂, hskip, hpass₂, hdepth₂⟩ :=
      skipToBoundary_body around hvalues₁ hbody hbraces hdepth hnext hfuel 0
    have hsync : outcome (synchronize s.cursor.position s.depth) around s₁ =
        .ok () (s₂.note (.resynchronized m)) := by
      rw [synchronize_bind, if_neg hposition, tokensAhead_bind, bind_of_ok hskip]
      rfl
    refine ⟨marker, s₁, s₂.note (.resynchronized m), span, hfail, hsync, ?_, hdepth₂, ?_⟩
    · obtain ⟨read₂, hread₂, hmoved₂⟩ := hpass₂.moved
      have hmove := hmoved.trans hmoved₂
      have hlength : (read ++ read₂).length = tokens.length := by
        have hboth : (read ++ read₂).map Located.value = tokens.map Located.value := by
          rw [hts, List.map_append, hread₂]
        simpa using congrArg List.length hboth
      have hread := (List.append_inj (hmove.upcoming.symm.trans hupcoming) hlength).1
      exact (hread ▸ hmove).of_cursor_eq rfl
    · have hspoilt := hsound.of_error hfail
      obtain ⟨diagnostic, span', -, hnotice⟩ := hspoilt.notice
      obtain ⟨-, rfl⟩ := Array.push_eq_push.mp (hrecord.symm.trans hnotice)
      obtain ⟨-, -, -, hstore, hsame⟩ := synchronize_run hended hsync
      obtain ⟨ids, hopened⟩ := hstands.opened
      refine ⟨⟨ids, ?_⟩, ?_⟩
      · rw [hstore]
        exact hopened.grow hspoilt.grown
      · rw [hsame, hrecord]
        simp [Tally.add, hstands.notices]

end FrontEnd.Grammar
