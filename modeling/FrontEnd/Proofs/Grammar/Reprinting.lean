import FrontEnd.Proofs.Grammar.Printing
import FrontEnd.Proofs.Phrase.Uniqueness

/-!
# Reading and printing back

An input that is read without an error is a module and nothing else, and printing the module
gives the input back, but for what the tree does not keep.

## Main statements

* `moduleTokens_of_parseModule`: an input that is read without an error is a way to write the
  module that is read.
-/

namespace FrontEnd.Grammar

open Phrase Store

/-! ## Inputs that are read without an error -/

variable {room : Nat} {tokens : List (Located Token)} {store : Store} {notices : Notices}
  {root : NodeId}

theorem isError_of_isSyntax {d : Diagnostic} (h : d.isSyntax = true) (span : Span) :
    (Notice.of d span).isError = true := by
  cases d <;> first | rfl | cases h

/-- Pieces that leave no error are declarations, and all of them are taken in. -/
theorem foldl_add_of_clean {pieces : List Piece} (hvalid : ∀ p ∈ pieces, p.Valid room)
    (tally : Tally) :
    ∃ new, (pieces.foldl Tally.add tally).notices = tally.notices ++ new ∧
      ((∀ notice ∈ new, notice.isError = false) →
        ∃ decls, (pieces.foldl Tally.add tally).decls = tally.decls ++ decls ∧
          Sequence (DeclarationTokens room) ((pieces.flatMap Piece.tokens).map Located.value)
            decls) := by
  induction pieces generalizing tally with
  | nil => exact ⟨[], by simp, fun _ => ⟨[], by simp, .nil⟩⟩
  | cons piece pieces ih =>
    obtain ⟨hpiece, hrest⟩ := List.forall_mem_cons.mp hvalid
    obtain ⟨new, hnotices, hdecls⟩ := ih hrest (tally.add piece)
    -- A notice of an error in front spoils the rest.
    have hspoilt : ∀ notice : Notice, notice.isError = true →
        (tally.add piece).notices = tally.notices ++ [notice] →
        ∃ new', ((piece :: pieces).foldl Tally.add tally).notices = tally.notices ++ new' ∧
          ¬ ∀ notice ∈ new', notice.isError = false := by
      intro notice herror hadd
      refine ⟨notice :: new, by rw [List.foldl_cons, hnotices, hadd]; simp, fun hclean => ?_⟩
      have hfalse := hclean notice List.mem_cons_self
      rw [herror] at hfalse
      cases hfalse
    cases piece with
    | dropped read notice =>
      obtain ⟨diagnostic, span, hsyntax, rfl⟩ := hpiece
      obtain ⟨new', hnew, hnot⟩ := hspoilt _ (isError_of_isSyntax hsyntax span) rfl
      exact ⟨new', hnew, fun hclean => absurd hclean hnot⟩
    | read read d =>
      by_cases htaken : tally.isTaken d.name = true
      · have hadd : (tally.add (.read read d)).notices =
            tally.notices ++ [.of (.duplicateDefinition d.name) (itemSpan d read)] := by
          rw [Tally.add, if_pos htaken]
        obtain ⟨new', hnew, hnot⟩ := hspoilt _ rfl hadd
        exact ⟨new', hnew, fun hclean => absurd hclean hnot⟩
      · have hadd : tally.add (.read read d) = ⟨tally.decls ++ [d], tally.notices⟩ := if_neg htaken
        rw [hadd] at hnotices hdecls
        rw [List.foldl_cons, hadd]
        refine ⟨new, hnotices, fun hclean => ?_⟩
        obtain ⟨decls, hfold, hsequence⟩ := hdecls hclean
        refine ⟨d :: decls, by simpa using hfold, ?_⟩
        rw [List.flatMap_cons, List.map_append]
        exact .cons hpiece hsequence

/-- An input whose end is marked once, and which is read without an error, is a way to write the
module that is read. -/
theorem moduleTokens_of_parseModule {parsed : Parsed}
    (hparse : parseModule tokens store notices = .ok parsed) (hroot : parsed.result = .ok root)
    (hend : ∀ t ∈ tokens.dropLast, t.value ≠ .eof)
    (hclean : ∀ notice ∈ parsed.notices.toList.drop notices.size, notice.isError = false) :
    ∃ m ids ts, ModuleAt parsed.store m root ids ∧ tokens.map Located.value = ts ++ [.eof] ∧
      ModuleTokens maxNesting ts m := by
  obtain ⟨name, header, pieces, close, s, s', hread, hstart, htokens, hkind, hstore, hlast⟩ :=
    parseModule_run hparse hroot
  obtain ⟨ids, hplaced⟩ := hread.placed
  obtain ⟨span, -, hnotices⟩ := hread.notices
  have hnames : Module.WellNamed ⟨name, (pieces.foldl Tally.add ⟨[], s.notices.toList⟩).decls⟩ :=
    wellNamed_foldl_add name hread.valid ⟨distinctNames_nil, by simp⟩
  obtain ⟨new, hnew, hdecls⟩ := foldl_add_of_clean hread.valid ⟨[], s.notices.toList⟩
  -- The notices of the run are those of the tally, and perhaps the warning.
  have hrecorded : parsed.notices.toList.drop notices.size =
      new ++ if pieces.isEmpty then [.of (.emptyModule name) span] else [] := by
    rw [hlast, hnotices, hnew, hstart, List.append_assoc, ← Array.length_toList,
      List.drop_left]
  rw [hrecorded] at hclean
  obtain ⟨decls, hfold, hsequence⟩ :=
    hdecls fun notice hnotice => hclean notice (List.mem_append_left _ hnotice)
  rw [List.nil_append] at hfold
  rw [hfold] at hplaced hnames
  -- Nothing but the end of the input is left.
  have hupcoming : s'.upcoming = [s'.cursor.current] := by
    cases hahead : s'.cursor.ahead with
    | nil => rw [State.upcoming, hahead]
    | cons next rest =>
      have hmem : s'.cursor.current ∈ tokens.dropLast := by
        rw [htokens, State.upcoming, hahead, List.dropLast_append_cons, List.dropLast_cons_cons]
        simp
      exact absurd (Token.kind_eq_eof.mp hkind) (hend _ hmem)
  refine ⟨⟨name, decls⟩, ids, _, hstore ▸ hplaced, ?_, .mk hsequence hnames.1⟩
  rw [htokens, hupcoming, List.map_append, List.map_append, List.map_append, hread.header_eq,
    List.map_singleton, List.map_singleton, hread.close_eq, Token.kind_eq_eof.mp hkind]
  rfl

/-- An input whose end is marked once, and which is read without an error, is a way to write the
module that is read, and it reduces to the printed module. -/
theorem parseModule_reduces {parsed : Parsed}
    (hparse : parseModule tokens store notices = .ok parsed) (hroot : parsed.result = .ok root)
    (hend : ∀ t ∈ tokens.dropLast, t.value ≠ .eof)
    (hclean : ∀ notice ∈ parsed.notices.toList.drop notices.size, notice.isError = false) :
    ∃ m ids ts, ModuleAt parsed.store m root ids ∧ tokens.map Located.value = ts ++ [.eof] ∧
      ModuleTokens maxNesting ts m ∧
      Reduces ZeroOmission (ModuleTokens maxNesting · m) ts m.tokens := by
  obtain ⟨m, ids, ts, hplaced, htokens, hwritten⟩ :=
    moduleTokens_of_parseModule hparse hroot hend hclean
  exact ⟨m, ids, ts, hplaced, htokens, hwritten, hwritten.reduces⟩

/-- Tokens with made-up spans, and the end of the input. -/
def unplaced (ts : List Token) : List (Located Token) :=
  (ts ++ [Token.eof]).map fun t => ⟨t, default⟩

theorem values_unplaced (ts : List Token) : (unplaced ts).map Located.value = ts ++ [.eof] := by
  simp [unplaced, Function.comp_def]

/-- Whether a module is read from tokens, without any notice. -/
def readsQuietly (ts : List Token) : Bool :=
  match parseModule (unplaced ts) ⟨#[]⟩ #[] with
  | .ok ⟨.ok _, _, notices, _⟩ => notices.isEmpty
  | _ => false

theorem exists_of_readsQuietly {ts : List Token} (h : readsQuietly ts = true) :
    ∃ parsed root, parseModule (unplaced ts) ⟨#[]⟩ #[] = .ok parsed ∧ parsed.result = .ok root ∧
      parsed.notices = #[] := by
  unfold readsQuietly at h
  split at h
  next root store notices events hparse =>
    exact ⟨_, root, hparse, rfl, by simpa using h⟩
  next => cases h

/-- `fn f() -> void` with the body `return ((1 - (-0)));`. -/
def redundant : List Token :=
  [.keyword .module, .ident ⟨"m"⟩, .symbol .openCurly, .keyword .fn, .ident ⟨"f"⟩,
    .symbol .openParen, .symbol .closeParen, .symbol .arrow, .keyword (.prim .void),
    .symbol .openCurly, .keyword .ret, .symbol .openParen, .symbol .openParen, .integer 1,
    .symbol .minus, .symbol .openParen, .symbol .minus, .integer 0, .symbol .closeParen,
    .symbol .closeParen, .symbol .closeParen, .symbol .semicolon, .symbol .closeCurly,
    .symbol .closeCurly]

theorem parseModule_reduces_redundant :
    ∃ parsed root, parseModule (unplaced redundant) ⟨#[]⟩ #[] = .ok parsed ∧
      parsed.result = .ok root ∧ parsed.notices = #[] ∧
      ∃ m ids ts, ModuleAt parsed.store m root ids ∧
        (unplaced redundant).map Located.value = ts ++ [.eof] ∧ ModuleTokens maxNesting ts m ∧
        Reduces ZeroOmission (ModuleTokens maxNesting · m) ts m.tokens := by
  obtain ⟨parsed, root, hparse, hroot, hnotices⟩ :=
    exists_of_readsQuietly (show readsQuietly redundant = true by decide +kernel)
  have hclean : ∀ notice ∈ parsed.notices.toList.drop (#[] : Notices).size,
      notice.isError = false := by
    simp [hnotices]
  exact ⟨parsed, root, hparse, hroot, hnotices,
    parseModule_reduces hparse hroot (by decide) hclean⟩

/-! ## The sign of a zero is not kept -/

/-- A global with the value `-0`. -/
def signedZero : List Token :=
  [.keyword .module, .ident ⟨"m"⟩, .symbol .openCurly, .keyword .global,
    .keyword (.prim (.int .w32)), .ident ⟨"g"⟩, .symbol .assign, .symbol .minus, .integer 0,
    .symbol .semicolon, .symbol .closeCurly]

/-- Leaving out parentheses and result types leaves all minus signs. -/
theorem Reduces.count_minus {W : List Token → Prop} {ts us : List Token}
    (h : Reduces Omission W ts us) : ts.count (.symbol .minus) = us.count (.symbol .minus) := by
  induction h with
  | refl => rfl
  | tail _ hstep ih =>
    obtain ⟨⟨before, old, new, after, homission, rfl, rfl⟩, -⟩ := hstep
    rw [ih]
    cases homission with
    | parens _ => simp [inParens]
    | void => simp

/-- No omission but that of a sign turns `-0` into the printed module. -/
theorem not_reduces_signedZero :
    ∃ parsed root, parseModule (unplaced signedZero) ⟨#[]⟩ #[] = .ok parsed ∧
      parsed.result = .ok root ∧ parsed.notices.toList = [] ∧
      (∀ t ∈ (unplaced signedZero).dropLast, t.value ≠ .eof) ∧
      ¬ ∃ m ids ts, ModuleAt parsed.store m root ids ∧
        (unplaced signedZero).map Located.value = ts ++ [.eof] ∧
        Reduces Omission (fun _ => True) ts m.tokens := by
  let zero : Decl := .global (.prim (.int .w32)) ⟨"g"⟩ (some (.int 0))
  have hdecl : DeclarationTokens maxNesting (signedZero.drop 3).dropLast zero :=
    .global (.prim (.int .w32)) ⟨"g"⟩ (.some (.negative 0))
  have hwritten : ModuleTokens maxNesting signedZero ⟨⟨"m"⟩, [zero]⟩ :=
    ModuleTokens.mk (m := ⟨⟨"m"⟩, [zero]⟩) (.cons hdecl .nil) (by decide)
  obtain ⟨parsed, root, ids, hparsed, hresult, hplaced, new, hnotices, -, hnone⟩ :=
    parseModule_of_tokens ⟨#[]⟩ #[] hwritten (values_unplaced signedZero)
  refine ⟨parsed, root, hparsed, hresult, ?_, by decide, ?_⟩
  · rw [hnotices, hnone (by simp)]
    rfl
  · rintro ⟨m, ids', ts, hplaced', htokens, hreduces⟩
    obtain rfl := hplaced'.unique hplaced
    have hts : ts = signedZero := by
      rw [values_unplaced] at htokens
      exact (List.append_cancel_right htokens).symm
    rw [hts] at hreduces
    exact absurd hreduces.count_minus (by decide)

end FrontEnd.Grammar
