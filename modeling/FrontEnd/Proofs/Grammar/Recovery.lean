import FrontEnd.Proofs.Grammar.Modules

/-!
# Recovery is deletion

An attempt at a declaration that fails drops the tokens it took.  Reading a module is the
same as reading what is left of it once those tokens are gone: the same declarations are
found, with the same names taken, and only the notices of the failures are missing.

## Main definitions

* `undropped`: the tokens that no failed attempt took.

## Main statements

* `moduleDecl_undropped`: a module and what is left of it are the same module.
-/

namespace FrontEnd

/-- The diagnostic is about a name that is declared twice. -/
def Diagnostic.isDuplicate : Diagnostic → Bool
  | .duplicateDefinition _ => true
  | _ => false

theorem Diagnostic.isDuplicate_eq_false {d : Diagnostic} (h : d.isSyntax = true) :
    d.isDuplicate = false := by
  cases d <;> first | rfl | cases h

namespace Grammar

open Phrase Store

variable {s s' : State} {room n : Nat} {root : NodeId} {name : Ident} {pieces : List Piece}

/-! ## Tokens that are kept -/

/-- An attempt failed and took the token at a place. -/
def Attempt.drops (a : Attempt) (i : Nat) : Bool := !a.isRead && a.start ≤ i && i < a.stop

/-- The tokens at the places that are kept, where the first is at place `n`. -/
def keptFrom (keep : Nat → Bool) : Nat → List (Located Token) → List (Located Token)
  | _, [] => []
  | n, t :: rest => if keep n then t :: keptFrom keep (n + 1) rest else keptFrom keep (n + 1) rest

/-- The tokens that no failed attempt took. -/
def undropped (log : List Attempt) (tokens : List (Located Token)) : List (Located Token) :=
  keptFrom (fun i => !log.any fun a => a.drops i) 0 tokens

section Kept

variable {keep : Nat → Bool} {n : Nat} {tokens : List (Located Token)}

theorem keptFrom_append (more : List (Located Token)) :
    keptFrom keep n (tokens ++ more) =
      keptFrom keep n tokens ++ keptFrom keep (n + tokens.length) more := by
  induction tokens generalizing n with
  | nil => rfl
  | cons t tokens ih =>
    rw [List.cons_append, keptFrom, keptFrom, ih, List.length_cons, Nat.add_right_comm,
      Nat.add_assoc]
    split <;> rfl

theorem keptFrom_eq_self (h : ∀ i, n ≤ i → i < n + tokens.length → keep i = true) :
    keptFrom keep n tokens = tokens := by
  induction tokens generalizing n with
  | nil => rfl
  | cons t tokens ih =>
    rw [List.length_cons] at h
    rw [keptFrom, if_pos (h n (Nat.le_refl n) (by omega)),
      ih fun i hlo hhi => h i (by omega) (by omega)]

theorem keptFrom_eq_nil (h : ∀ i, n ≤ i → i < n + tokens.length → keep i = false) :
    keptFrom keep n tokens = [] := by
  induction tokens generalizing n with
  | nil => rfl
  | cons t tokens ih =>
    rw [List.length_cons] at h
    rw [keptFrom, if_neg (by simp [h n (Nat.le_refl n) (by omega)]),
      ih fun i hlo hhi => h i (by omega) (by omega)]

end Kept

/-- No attempt drops a token before the first piece. -/
theorem any_drops_before {i : Nat} (h : i < n) :
    (recordOf n pieces).any (fun a => a.drops i) = false := by
  induction pieces generalizing n with
  | nil => rfl
  | cons piece pieces ih =>
    have hfirst : ¬ n ≤ i := by omega
    rw [recordOf, List.any_cons, ih (by omega)]
    simp [Attempt.drops, hfirst]

/-- No attempt drops a token behind the last piece. -/
theorem any_drops_after {i : Nat} (h : n + (pieces.flatMap Piece.tokens).length ≤ i) :
    (recordOf n pieces).any (fun a => a.drops i) = false := by
  induction pieces generalizing n with
  | nil => rfl
  | cons piece pieces ih =>
    rw [List.flatMap_cons, List.length_append] at h
    have hfirst : ¬ i < n + piece.tokens.length := by omega
    rw [recordOf, List.any_cons, ih (by omega)]
    simp [Attempt.drops, hfirst]

/-- Of some pieces, the tokens of the declarations are kept. -/
theorem keptFrom_pieces {keep : Nat → Bool}
    (h : ∀ i, n ≤ i → i < n + (pieces.flatMap Piece.tokens).length →
      keep i = !(recordOf n pieces).any fun a => a.drops i) :
    keptFrom keep n (pieces.flatMap Piece.tokens) =
      (pieces.filter Piece.isRead).flatMap Piece.tokens := by
  induction pieces generalizing n with
  | nil => rfl
  | cons piece pieces ih =>
    rw [List.flatMap_cons, List.length_append] at h
    have hrest : keptFrom keep (n + piece.tokens.length) (pieces.flatMap Piece.tokens) =
        (pieces.filter Piece.isRead).flatMap Piece.tokens := by
      refine ih fun i hlo hhi => ?_
      have hfirst : ¬ i < n + piece.tokens.length := by omega
      rw [h i (by omega) (by omega)]
      simp [recordOf, Attempt.drops, hfirst]
    have hkeep : ∀ i, n ≤ i → i < n + piece.tokens.length → keep i = piece.isRead := by
      intro i hlo hhi
      rw [h i hlo (by omega), recordOf, List.any_cons, any_drops_before hhi]
      simp [Attempt.drops, hlo, hhi]
    rw [List.flatMap_cons, keptFrom_append, hrest]
    cases hread : piece.isRead with
    | true =>
      rw [keptFrom_eq_self (fun i hlo hhi => (hkeep i hlo hhi).trans hread),
        List.filter_cons_of_pos hread, List.flatMap_cons]
    | false =>
      rw [keptFrom_eq_nil (fun i hlo hhi => (hkeep i hlo hhi).trans hread),
        List.filter_cons_of_neg (by simp [hread]), List.nil_append]

/-- What is left of a module is its header, its declarations and what follows. -/
theorem undropped_eq (header rest : List (Located Token)) (pieces : List Piece) :
    undropped (recordOf header.length pieces) (header ++ (pieces.flatMap Piece.tokens ++ rest)) =
      header ++ ((pieces.filter Piece.isRead).flatMap Piece.tokens ++ rest) := by
  rw [undropped, keptFrom_append, keptFrom_append, Nat.zero_add, keptFrom_eq_self,
    keptFrom_pieces fun _ _ _ => rfl, keptFrom_eq_self]
  · intro i hlo _
    rw [any_drops_after hlo]
    rfl
  · intro i _ hhi
    rw [any_drops_before (by omega)]
    rfl

/-! ## The tally of what is kept -/

/-- Without the failed attempts the tally has the same declarations, and of the notices
those about names declared twice. -/
theorem foldl_add_filter (hvalid : ∀ p ∈ pieces, p.Valid room) (tally tally' : Tally)
    (hdecls : tally'.decls = tally.decls) :
    ((pieces.filter Piece.isRead).foldl Tally.add tally').decls =
        (pieces.foldl Tally.add tally).decls ∧
      ∃ new, (pieces.foldl Tally.add tally).notices = tally.notices ++ new ∧
        ((pieces.filter Piece.isRead).foldl Tally.add tally').notices =
          tally'.notices ++ new.filter fun notice => notice.diagnostic.isDuplicate := by
  induction pieces generalizing tally tally' with
  | nil => exact ⟨hdecls, [], by simp, by simp⟩
  | cons piece pieces ih =>
    obtain ⟨hpiece, hpieces⟩ := List.forall_mem_cons.mp hvalid
    cases piece with
    | dropped tokens notice =>
      obtain ⟨diagnostic, span, hsyntax, rfl⟩ := hpiece
      obtain ⟨hsame, new, hnew, hkept⟩ :=
        ih hpieces (tally.add (.dropped tokens (.of diagnostic span))) tally' hdecls
      have hduplicate : (Notice.of diagnostic span).diagnostic.isDuplicate = false :=
        Diagnostic.isDuplicate_eq_false hsyntax
      refine ⟨hsame, .of diagnostic span :: new, ?_, ?_⟩
      · rw [List.foldl_cons, hnew, Tally.add, List.append_assoc]
        rfl
      · rw [List.filter_cons_of_neg (by simp [Piece.isRead]), hkept,
          List.filter_cons_of_neg (by simp [hduplicate])]
    | read tokens d =>
      have htaken : tally'.isTaken d.name = tally.isTaken d.name := by
        rw [Tally.isTaken, Tally.isTaken, hdecls]
      rw [List.filter_cons_of_pos (by rfl), List.foldl_cons, List.foldl_cons]
      by_cases h : tally.isTaken d.name = true
      · have hadd : tally.add (.read tokens d) = ⟨tally.decls, tally.notices ++
            [.of (.duplicateDefinition d.name) (itemSpan d tokens)]⟩ := if_pos h
        have hadd' : tally'.add (.read tokens d) = ⟨tally'.decls, tally'.notices ++
            [.of (.duplicateDefinition d.name) (itemSpan d tokens)]⟩ := if_pos (htaken.trans h)
        obtain ⟨hsame, new, hnew, hkept⟩ := ih hpieces (tally.add (.read tokens d))
          (tally'.add (.read tokens d)) (by rw [hadd, hadd', hdecls])
        refine ⟨hsame, .of (.duplicateDefinition d.name) (itemSpan d tokens) :: new, ?_, ?_⟩
        · rw [hnew, hadd, List.append_assoc]
          rfl
        · rw [hkept, hadd', List.append_assoc, List.filter_cons_of_pos (by rfl)]
          rfl
      · have hadd : tally.add (.read tokens d) = ⟨tally.decls ++ [d], tally.notices⟩ := if_neg h
        have hadd' : tally'.add (.read tokens d) = ⟨tally'.decls ++ [d], tally'.notices⟩ :=
          if_neg (htaken ▸ h)
        obtain ⟨hsame, new, hnew, hkept⟩ := ih hpieces (tally.add (.read tokens d))
          (tally'.add (.read tokens d)) (by rw [hadd, hadd', hdecls])
        exact ⟨hsame, new, by rw [hnew, hadd], by rw [hkept, hadd']⟩

/-- The declarations of a tally stay. -/
theorem decls_foldl_add_ne_nil (tally : Tally) (h : tally.decls ≠ []) :
    (pieces.foldl Tally.add tally).decls ≠ [] := by
  induction pieces generalizing tally with
  | nil => exact h
  | cons piece pieces ih =>
    refine ih _ ?_
    cases piece with
    | dropped _ _ => exact h
    | read tokens d =>
      rw [Tally.add]
      split
      · exact h
      · simp

/-- If any declaration is read, then the first of them counts. -/
theorem isEmpty_of_decls_foldl_add (hread : ∀ p ∈ pieces, p.isRead = true) (notices : List Notice) :
    (pieces.foldl Tally.add ⟨[], notices⟩).decls.isEmpty = pieces.isEmpty := by
  cases pieces with
  | nil => rfl
  | cons piece pieces =>
    cases piece with
    | dropped _ _ => exact absurd (hread _ List.mem_cons_self) (by simp [Piece.isRead])
    | read tokens d =>
      have hne : ((Piece.read tokens d :: pieces).foldl Tally.add ⟨[], notices⟩).decls ≠ [] :=
        decls_foldl_add_ne_nil (Tally.add ⟨[], notices⟩ (.read tokens d))
          (by simp [Tally.add, Tally.isTaken])
      simpa using hne

/-! ## Whole modules -/

/-- Two modules, of which one was read without the failed attempts of the other. -/
theorem ModuleRead.filter_isRead {s₁ t t₁ : State} {header header' : List (Located Token)}
    {close close' : Located Token} {root' : NodeId}
    (h : ModuleRead room name header pieces close root s s₁)
    (h' : ModuleRead room name header' (pieces.filter Piece.isRead) close' root' t t₁) :
    ∃ m ids ids' new span, ModuleAt s₁.store m root ids ∧ ModuleAt t₁.store m root' ids' ∧
      (t₁.store.get? root').bind Node.span = some span ∧
      s₁.notices.toList = s.notices.toList ++ new ∧
      t₁.notices.toList = t.notices.toList ++
        (new.filter fun notice => notice.diagnostic.isDuplicate) ++
          if m.decls.isEmpty then [.of (.emptyModule m.name) span] else [] := by
  obtain ⟨ids, hplaced⟩ := h.placed
  obtain ⟨ids', hplaced'⟩ := h'.placed
  obtain ⟨span₁, -, hnotices⟩ := h.notices
  obtain ⟨span, hspan, hnotices'⟩ := h'.notices
  obtain ⟨hdecls, new, hnew, hkept⟩ := foldl_add_filter h.valid
    ⟨[], s.notices.toList⟩ ⟨[], t.notices.toList⟩ rfl
  have hall : ∀ p ∈ pieces.filter Piece.isRead, p.isRead = true := fun _ => List.of_mem_filter
  have hempty := isEmpty_of_decls_foldl_add hall t.notices.toList
  rw [hdecls] at hplaced' hempty
  refine ⟨_, ids, ids', new ++ if pieces.isEmpty then [.of (.emptyModule name) span₁] else [],
    span, hplaced, hplaced', hspan, ?_, ?_⟩
  · rw [hnotices, hnew, List.append_assoc]
  · have hwarning : (if pieces.isEmpty then [Notice.of (.emptyModule name) span₁] else []).filter
        (fun notice => notice.diagnostic.isDuplicate) = [] := by
      split <;> rfl
    rw [hnotices', hkept, hempty, List.filter_append, hwarning, List.append_nil]

/-- A module is the same with and without what the failed attempts took. -/
theorem moduleDecl_undropped (tokens : List (Located Token)) (store : Store) (notices : Notices)
    {cursor : Cursor} (hcursor : Cursor.ofTokens tokens = .ok cursor)
    (hrun : outcome (moduleDecl maxNesting) none (.start cursor store notices) = .ok root s) :
    ∃ log cursor' root' s',
      outcome (moduleRecord maxNesting) none (.start cursor store notices) = .ok (root, log) s ∧
      Cursor.ofTokens (undropped log tokens) = .ok cursor' ∧
      outcome (moduleDecl maxNesting) none (.start cursor' store notices) = .ok root' s' ∧
      ∃ m ids ids' new span, ModuleAt s.store m root ids ∧ ModuleAt s'.store m root' ids' ∧
        (s'.store.get? root').bind Node.span = some span ∧
        s.notices.toList = notices.toList ++ new ∧
        s'.notices.toList = notices.toList ++
          (new.filter fun notice => notice.diagnostic.isDuplicate) ++
            if m.decls.isEmpty then [.of (.emptyModule m.name) span] else [] := by
  obtain ⟨hupcoming, hposition, hended⟩ := start_of_ofTokens store notices hcursor
  obtain ⟨log, hrecord⟩ := exists_moduleRecord hrun
  obtain ⟨name, header, pieces, close, hread, hlog⟩ := moduleRecord_run hended hrecord
  have hsplit := hread.moved.upcoming
  rw [List.append_assoc, List.append_assoc, List.singleton_append] at hsplit
  rw [hposition, Nat.zero_add] at hlog
  have hleft : undropped log tokens =
      header ++ ((pieces.filter Piece.isRead).flatMap Piece.tokens ++ close :: s.upcoming) := by
    rw [hlog, ← undropped_eq, ← hsplit, hupcoming]
  -- What is left is a module again, whose attempts all succeed.
  obtain ⟨cursor', hcursor'⟩ : ∃ cursor', Cursor.ofTokens (undropped log tokens) = .ok cursor' := by
    refine exists_ofTokens ?_
    rw [hleft, List.append_cons, ← List.append_assoc, List.map_append]
    change (_ ++ s.values).getLast? = _
    rw [List.getLast?_append_of_ne_nil _ s.values_ne_nil]
    exact hread.moved.ended hended
  obtain ⟨hupcoming', -, hended'⟩ := start_of_ofTokens store notices hcursor'
  have htakes : LoopTakes maxNesting ((pieces.filter Piece.isRead).flatMap Piece.tokens)
      (· = pieces.filter Piece.isRead) := loopTakes_pieces
    (fun p hp => ⟨hread.valid p (List.mem_of_mem_filter hp), List.of_mem_filter hp⟩) rfl
  obtain ⟨root', _, s', hrecord', rfl, -, hread'⟩ :=
    htakes.moduleRecord none hended' hread.header_eq hread.close_eq (hupcoming'.trans hleft)
  refine ⟨log, cursor', root', s', hrecord, hcursor', ?_, hread.filter_isRead hread'⟩
  rw [moduleDecl_eq_moduleRecord, hrecord', mapOk]

/-- A module with a declaration that cannot be read before one that can. -/
theorem moduleDecl_undropped_struct :
    let tokens : List (Located Token) := [.keyword .module, .ident ⟨"m"⟩, .symbol .openCurly,
      .keyword .struct, .symbol .semicolon, .keyword .struct, .ident ⟨"s"⟩, .symbol .openCurly,
      .symbol .closeCurly, .symbol .closeCurly, .eof].map fun t => ⟨t, default⟩
    ∃ cursor root s log cursor' root' s', Cursor.ofTokens tokens = .ok cursor ∧
      outcome (moduleRecord maxNesting) none (.start cursor ⟨#[]⟩ #[]) = .ok (root, log) s ∧
      log = [⟨3, 5, false⟩, ⟨5, 9, true⟩] ∧
      Cursor.ofTokens (undropped log tokens) = .ok cursor' ∧
      outcome (moduleDecl maxNesting) none (.start cursor' ⟨#[]⟩ #[]) = .ok root' s' := by
  intro tokens
  obtain ⟨log, cursor', root', s', hrecord, hcursor', hrun, -⟩ :=
    moduleDecl_undropped tokens ⟨#[]⟩ #[] rfl rfl
  have hlog := (Prod.mk.inj (EStateM.Result.ok.inj hrecord).1).2
  exact ⟨_, _, _, log, cursor', root', s', rfl, hrecord, hlog.symm, hcursor', hrun⟩

end Grammar

end FrontEnd
