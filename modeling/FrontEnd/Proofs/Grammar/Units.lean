import FrontEnd.Proofs.Grammar.Modules

/-!
# Reading a whole input

An input is one module and nothing after it.  Whatever module is read from an input, its
names are distinct where the language wants that, whether or not there were notices: what
offends is not taken in.  And an input that is written as the grammar says is read as the
module it is written for, without an error.

## Main statements

* `parseModule_sound`: the module that was read.
* `parseModule_of_tokens`: an input that is read.
-/

namespace FrontEnd.Grammar

open Phrase Store

variable {s s' : State} {room : Nat} {root : NodeId} {ts : List Token}
  {tokens : List (Located Token)} {store : Store} {notices : Notices} {d : Decl} {tally : Tally}
  {parsed : Parsed}

/-! ## Names in what is read -/

/-- The variables of every block that is written as the grammar says are distinct. -/
theorem BlockTokens.wellNamed {body : List Stmt} (h : BlockTokens room ts body) :
    (Stmt.block body).WellNamed := by
  induction room generalizing ts body with
  | zero => exact h.elim
  | succ room ih =>
    obtain ⟨hitems, hdistinct⟩ := h
    rw [Stmt.WellNamed]
    refine ⟨hdistinct, ?_⟩
    clear hdistinct
    induction hitems with
    | nil => trivial
    | cons hitem _ ihs =>
      refine ⟨?_, ihs⟩
      cases hitem with
      | block hblock => exact ih hblock
      | _ => trivial

theorem PrototypeTokens.distinctNames {proto : Proto} (h : PrototypeTokens ts proto) :
    DistinctNames (proto.params.map Param.name) := by
  obtain ⟨name, harguments, hresult⟩ := h
  cases harguments with
  | none => exact distinctNames_nil
  | some _ hdistinct => exact hdistinct

theorem DeclarationTokens.wellNamed (h : DeclarationTokens room ts d) : d.WellNamed := by
  cases h with
  | struct _ _ hdistinct => exact hdistinct
  | global _ _ _ => trivial
  | external _ hproto => exact hproto.distinctNames
  | function _ hproto hbody => exact ⟨hproto.distinctNames, hbody.wellNamed⟩

/-- A piece leaves the names of a tally distinct. -/
theorem Tally.wellNamed_add {piece : Piece} (name : Ident) (hpiece : piece.Valid room)
    (h : Module.WellNamed ⟨name, tally.decls⟩) :
    Module.WellNamed ⟨name, (tally.add piece).decls⟩ := by
  cases piece with
  | dropped _ _ => exact h
  | read tokens d =>
    rw [Tally.add]
    split
    next => exact h
    next htaken =>
      obtain ⟨hdistinct, hdecls⟩ := h
      constructor
      · rw [List.map_append, List.map_singleton, distinctNames_append_singleton]
        refine ⟨hdistinct, List.forall_mem_map.mpr fun d' hd' => ?_⟩
        rw [Bool.not_eq_true, Tally.isTaken, List.any_eq_false] at htaken
        simpa using htaken d' hd'
      · intro d' hd'
        rcases List.mem_append.mp hd' with hold | hnew
        · exact hdecls d' hold
        · rw [List.mem_singleton.mp hnew]
          exact DeclarationTokens.wellNamed hpiece

/-- Any pieces make a module whose names are distinct. -/
theorem wellNamed_foldl_add {pieces : List Piece} (name : Ident)
    (hpieces : ∀ p ∈ pieces, p.Valid room) (h : Module.WellNamed ⟨name, tally.decls⟩) :
    Module.WellNamed ⟨name, (pieces.foldl Tally.add tally).decls⟩ := by
  induction pieces generalizing tally with
  | nil => exact h
  | cons piece pieces ih =>
    obtain ⟨hpiece, hrest⟩ := List.forall_mem_cons.mp hpieces
    exact ih hrest (Tally.wellNamed_add name hpiece h)

/-- A declaration that pieces make is one of the pieces. -/
theorem mem_foldl_add {pieces : List Piece} (h : d ∈ (pieces.foldl Tally.add tally).decls) :
    d ∈ tally.decls ∨ ∃ read, Piece.read read d ∈ pieces := by
  induction pieces generalizing tally with
  | nil => exact .inl h
  | cons piece pieces ih =>
    rcases ih h with hmem | ⟨read, hread⟩
    · cases piece with
      | dropped _ _ => exact .inl hmem
      | read read d' =>
        rw [Tally.add] at hmem
        split at hmem
        · exact .inl hmem
        · rcases List.mem_append.mp hmem with hmem | hmem
          · exact .inl hmem
          · rw [List.mem_singleton.mp hmem]
            exact .inr ⟨read, by simp⟩
    · exact .inr ⟨read, by simp [hread]⟩

/-! ## Declarations that are all read -/

/-- A declaration with a new name counts. -/
theorem Tally.add_read {more : List Decl} (first : List (Located Token))
    (h : DistinctNames ((tally.decls ++ [d] ++ more).map Decl.name)) :
    tally.add (.read first d) = ⟨tally.decls ++ [d], tally.notices⟩ := by
  have hfree : DistinctNames (tally.decls.map Decl.name ++ [d.name]) := by
    rw [List.map_append, List.map_append] at h
    exact h.of_append_left
  have htaken : tally.isTaken d.name = false := by
    rw [Tally.isTaken, List.any_eq_false]
    intro d' hd'
    rw [(distinctNames_append_singleton.mp hfree).2 _ (List.mem_map_of_mem hd')]
    simp
  exact if_neg (by simp [htaken])

/-- Declarations that are written as the grammar says, as pieces. -/
theorem exists_pieces {decls : List Decl}
    (h : Sequence (DeclarationTokens room) (tokens.map Located.value) decls) :
    ∃ pieces : List Piece, tokens = pieces.flatMap Piece.tokens ∧
      (∀ p ∈ pieces, p.Valid room ∧ p.isRead = true) ∧
      ∀ tally : Tally, DistinctNames ((tally.decls ++ decls).map Decl.name) →
        pieces.foldl Tally.add tally = ⟨tally.decls ++ decls, tally.notices⟩ := by
  generalize hts : tokens.map Located.value = ts at h
  induction h generalizing tokens with
  | nil =>
    refine ⟨[], by simpa using hts, by simp, fun tally _ => by simp⟩
  | @cons ts us d decls hd _ ih =>
    obtain ⟨first, rest, rfl, rfl, rfl⟩ := List.map_eq_append_iff.mp hts
    obtain ⟨pieces, rfl, hpieces, hfold⟩ := ih rfl
    refine ⟨.read first d :: pieces, by rfl, ?_, fun tally hdistinct => ?_⟩
    · exact List.forall_mem_cons.mpr ⟨⟨hd, rfl⟩, hpieces⟩
    · rw [List.append_cons] at hdistinct ⊢
      rw [List.foldl_cons, Tally.add_read first hdistinct]
      exact hfold ⟨tally.decls ++ [d], tally.notices⟩ hdistinct

/-! ## Whole inputs -/

/-- What parsing gives is what the run over the input gives. -/
theorem parseModule_eq {cursor : Cursor} (h : Cursor.ofTokens tokens = .ok cursor) :
    parseModule tokens store notices =
      .ok (.ofResult (outcome unit none (.start cursor store notices))) := by
  rw [parseModule, h]
  rfl

/-- A module with the end of the input behind it is what is read from the input. -/
theorem parseModule_of_moduleRecord {cursor : Cursor} {log : List Attempt}
    (h : Cursor.ofTokens tokens = .ok cursor)
    (hrecord : outcome (moduleRecord maxNesting) none (.start cursor store notices) =
      .ok (root, log) s') (hend : s'.values = [.eof]) :
    parseModule tokens store notices = .ok ⟨.ok root, s'.store, s'.notices, s'.events⟩ := by
  have hmodule : outcome (moduleDecl maxNesting) none (.start cursor store notices) =
      .ok root s' := by
    rw [moduleDecl_eq_moduleRecord, hrecord, mapOk]
  have hunit : outcome unit none (.start cursor store notices) = .ok root s' := by
    have hkind : s'.cursor.kind = .eof := State.kind_of_values hend
    rw [unit, bind_of_ok hmodule, bind_of_ok (expect_eq hkind)]
    rfl
  rw [parseModule_eq h, hunit]
  rfl

/-- An input from which a module was read is that module, with the end of the input behind it. -/
theorem parseModule_run (h : parseModule tokens store notices = .ok parsed)
    (hresult : parsed.result = .ok root) :
    ∃ name header pieces close s s', ModuleRead maxNesting name header pieces close root s s' ∧
      s.notices = notices ∧
      tokens = header ++ (pieces.flatMap Piece.tokens ++ [close]) ++ s'.upcoming ∧
      s'.cursor.kind = .eof ∧ parsed.store = s'.store ∧ parsed.notices = s'.notices := by
  cases hcursor : Cursor.ofTokens tokens with
  | error fault =>
    rw [parseModule, hcursor] at h
    cases h
  | ok cursor =>
    obtain ⟨hupcoming, -, hended⟩ := start_of_ofTokens store notices hcursor
    rw [parseModule_eq hcursor] at h
    injection h with h
    cases hunit : outcome unit none (.start cursor store notices) with
    | error marker s₁ =>
      rw [hunit, Parsed.ofResult] at h
      rw [← h] at hresult
      cases hresult
    | ok root' s₁ =>
      rw [hunit, Parsed.ofResult] at h
      subst h
      cases hresult
      rw [unit] at hunit
      obtain ⟨module, s₂, hmodule, hrest⟩ := bind_eq_ok hunit
      obtain ⟨_, s₃, hend, hpure⟩ := bind_eq_ok hrest
      obtain ⟨rfl, rfl⟩ : module = root ∧ s₃ = s₁ := by simpa [outcome_pure] using hpure
      obtain ⟨hkind, rfl⟩ := expect_eq_ok hend
      obtain ⟨log, hrecord⟩ := exists_moduleRecord hmodule
      obtain ⟨name, header, pieces, close, hread, -⟩ := moduleRecord_run hended hrecord
      have hmoved := hread.moved.upcoming
      rw [hupcoming] at hmoved
      exact ⟨name, header, pieces, close, _, _, hread, rfl, hmoved, hkind, rfl, rfl⟩

theorem toOption_eq_some_iff {ε α : Type} {x : Except ε α} {a : α} :
    x.toOption = some a ↔ x = .ok a := by
  cases x <;> simp [Except.toOption]

/-- The module that was read from an input has distinct names, and its declarations are parts of the
input. -/
theorem parseModule_parts (h : parseModule tokens store notices = .ok parsed)
    (hresult : parsed.result = .ok root) :
    ∃ m ids, ModuleAt parsed.store m root ids ∧ m.WellNamed ∧ ∀ d ∈ m.decls, ∃ ts,
      DeclarationTokens maxNesting ts d ∧ ts.Sublist (tokens.map Located.value) := by
  obtain ⟨name, header, pieces, close, s, s', hread, -, htokens, -, hstore, -⟩ :=
    parseModule_run h hresult
  obtain ⟨ids, hplaced⟩ := hread.placed
  rw [hstore]
  refine ⟨_, ids, hplaced, wellNamed_foldl_add name hread.valid ?_, fun d hd => ?_⟩
  · exact ⟨distinctNames_nil, by simp⟩
  · rcases mem_foldl_add hd with hmem | ⟨read, hpiece⟩
    · cases hmem
    · refine ⟨read.map Located.value, hread.valid _ hpiece, List.Sublist.map _ ?_⟩
      have hpart : read.Sublist (pieces.flatMap Piece.tokens) :=
        List.sublist_flatten_of_mem (List.mem_map.mpr ⟨_, hpiece, rfl⟩)
      rw [htokens]
      exact hpart.trans (by simp)

/-- The declarations of the module that was read from an input are written in the input. -/
theorem parseModule_sound (h : parseModule tokens store notices = .ok parsed)
    (hresult : parsed.result = .ok root) :
    ∃ m ids, ModuleAt parsed.store m root ids ∧ m.WellNamed ∧ ∀ d ∈ m.decls, ∃ ts,
      DeclarationTokens maxNesting ts d ∧ ts ⊆ tokens.map Located.value := by
  obtain ⟨m, ids, hm, hnamed, hparts⟩ := parseModule_parts h hresult
  refine ⟨m, ids, hm, hnamed, fun d hd => ?_⟩
  obtain ⟨ts, hts, hpart⟩ := hparts d hd
  exact ⟨ts, hts, hpart.subset⟩

/-- An input whose declarations the loop takes as pieces is read as the module that they make. -/
theorem parseModule_of_loopTakes {name : Ident} {Good : List Piece → Prop} (store : Store)
    (notices : Notices)
    (htokens : tokens.map Located.value = [.keyword .module, .ident name, .symbol .openCurly] ++
      (ts ++ [.symbol .closeCurly, .eof]))
    (h : ∀ middle : List (Located Token), middle.map Located.value = ts →
      LoopTakes maxNesting middle Good) :
    ∃ parsed root pieces ids span, parseModule tokens store notices = .ok parsed ∧
      parsed.result = .ok root ∧ Good pieces ∧
      ModuleAt parsed.store ⟨name, (pieces.foldl Tally.add ⟨[], notices.toList⟩).decls⟩ root ids ∧
      parsed.notices.toList = (pieces.foldl Tally.add ⟨[], notices.toList⟩).notices ++
        if pieces.isEmpty then [.of (.emptyModule name) span] else [] := by
  obtain ⟨cursor, hcursor⟩ : ∃ cursor, Cursor.ofTokens tokens = .ok cursor := by
    refine exists_ofTokens ?_
    rw [htokens, ← List.append_assoc, List.getLast?_append_of_ne_nil _ (by simp)]
    rfl
  obtain ⟨hupcoming, -, hended⟩ := start_of_ofTokens store notices hcursor
  obtain ⟨header, rest, rfl, hheader, hrest⟩ := List.map_eq_append_iff.mp htokens
  obtain ⟨middle, rest, rfl, hmiddle, hend⟩ := List.map_eq_append_iff.mp hrest
  obtain ⟨close, rest, rfl, hclose, hend⟩ := List.map_eq_cons_iff.mp hend
  obtain ⟨root, pieces, s', hrecord, hgood, hleft, hread⟩ :=
    (h middle hmiddle).moduleRecord none hended hheader hclose hupcoming
  have heof : s'.values = [.eof] := by rw [State.values, hleft, hend]
  obtain ⟨ids, hplaced⟩ := hread.placed
  obtain ⟨span, -, hnotices⟩ := hread.notices
  exact ⟨_, root, pieces, ids, span, parseModule_of_moduleRecord hcursor hrecord heof, rfl, hgood,
    hplaced, hnotices⟩

/-- An input that is written as the grammar says is read as the module it is written for. -/
theorem parseModule_of_tokens {m : Module} (store : Store) (notices : Notices)
    (hts : ModuleTokens maxNesting ts m) (htokens : tokens.map Located.value = ts ++ [.eof]) :
    ∃ parsed root ids, parseModule tokens store notices = .ok parsed ∧ parsed.result = .ok root ∧
      ModuleAt parsed.store m root ids ∧
      ∃ new : List Notice, parsed.notices.toList = notices.toList ++ new ∧
        (∀ notice ∈ new, notice.isError = false) ∧ (m.decls ≠ [] → new = []) := by
  obtain @⟨ts, m, hdecls, hdistinct⟩ := hts
  have hsplit : tokens.map Located.value = [.keyword .module, .ident m.name, .symbol .openCurly] ++
      (ts ++ [.symbol .closeCurly, .eof]) := by
    rw [htokens]
    simp
  obtain ⟨parsed, root, pieces, ids, span, hparse, hresult, hfold, hplaced, hnotices⟩ :=
    parseModule_of_loopTakes store notices hsplit fun middle hmiddle => by
      obtain ⟨pieces, rfl, hpieces, hfold⟩ := exists_pieces (hmiddle ▸ hdecls)
      exact loopTakes_pieces hpieces (hfold ⟨[], notices.toList⟩ hdistinct)
  rw [hfold] at hplaced hnotices
  refine ⟨parsed, root, ids, hparse, hresult, hplaced,
    if pieces.isEmpty then [.of (.emptyModule m.name) span] else [], hnotices, ?_, ?_⟩
  · intro notice hnotice
    split at hnotice
    · rw [List.mem_singleton.mp hnotice]
      rfl
    · cases hnotice
  · intro hne
    refine if_neg fun hempty => hne ?_
    rw [List.isEmpty_iff] at hempty
    rw [hempty] at hfold
    exact (congrArg Tally.decls hfold).symm

end FrontEnd.Grammar
