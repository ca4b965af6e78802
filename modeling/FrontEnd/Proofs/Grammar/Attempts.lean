import FrontEnd.Proofs.Grammar.Declarations

/-!
# The loop over declarations

The declarations of a module are read one by one.  Each turn of the loop attempts one declaration.
If the attempt succeeds, its item is registered; if not, recovery passes tokens up to where a
declaration may start.  A turn passes a token at least, so the loop ends, and no bound on the number
of turns is ever felt.

Each turn takes a piece of the tokens: a declaration, or what a failed attempt and the recovery from
it passed over.  What a module holds in the end, and which notices were recorded, is a tally over
the pieces.  A declaration counts if its name is new, and else leaves a notice; a failed attempt
leaves the notice of its failure.

`attempts` is the loop with a record of where each attempt started and stopped.  Its other effects
are those of `declarations` (`declarations_eq_attempts`).

## Main definitions

* `Piece`, `Tally`: attempts, and what comes of them.
* `Loop`, `Turn`, `Loop.Turns`, `Loop.Run`: the loop as a sequence of turns.
* `attempts`: the loop, with a record.

## Main statements

* `Loop.exists_run`: every loop runs to its end.
* `Loop.Turns.exists_pieces`: what turns have taken.
* `Loop.Run.record_eq`: what a run makes of the loop.
-/

namespace FrontEnd.Grammar

open Phrase Store

variable {s s' s₁ s₂ : State} {t next : Token} {ts us rest : List Token} {around : Option Position}
  {store : Store} {room depth : Nat} {root : NodeId} {name : Ident} {d : Decl} {item : Declared}

/-! ## Pieces and their tally -/

/-- What one attempt to read a declaration took, and what came of it. -/
inductive Piece
  | read (tokens : List (Located Token)) (decl : Decl)
  | dropped (tokens : List (Located Token)) (notice : Notice)

namespace Piece

/-- The tokens of a piece. -/
def tokens : Piece → List (Located Token)
  | .read tokens _ => tokens
  | .dropped tokens _ => tokens

/-- Whether a piece is a declaration. -/
def isRead : Piece → Bool
  | .read _ _ => true
  | .dropped _ _ => false

/-- A declaration is written as the grammar says, and a failure has the notice of one. -/
def Valid (room : Nat) : Piece → Prop
  | .read tokens d => DeclarationTokens room (tokens.map Located.value) d
  | .dropped _ notice => ∃ diagnostic span, diagnostic.isSyntax = true ∧
      notice = .of diagnostic span

end Piece

/-- The span of the item that a declaration becomes: it starts behind the attributes. -/
def itemSpan (d : Decl) (tokens : List (Located Token)) : Span :=
  ⟨((tokens[2 * d.attributes.length]?).map fun t => t.span.start).getD default,
    (tokens.getLast?.map fun t => t.span.stop).getD default⟩

/-- The declarations of a module so far, and the notices so far. -/
structure Tally where
  decls : List Decl
  notices : List Notice

namespace Tally

/-- Whether some declaration has a name already. -/
def isTaken (tally : Tally) (name : Ident) : Bool := tally.decls.any fun d => d.name.same name

/-- Take a piece into account. -/
def add (tally : Tally) : Piece → Tally
  | .read tokens d =>
    if tally.isTaken d.name then
      ⟨tally.decls, tally.notices ++ [.of (.duplicateDefinition d.name) (itemSpan d tokens)]⟩
    else ⟨tally.decls ++ [d], tally.notices⟩
  | .dropped _ notice => ⟨tally.decls, tally.notices ++ [notice]⟩

end Tally

/-- The loop over declarations stands at a state with a tally. -/
structure Stands (store : Store) (root : NodeId) (name : Ident) (tally : Tally) (s : State) :
    Prop where
  opened : ∃ ids, OpenModule store s.store ⟨name, tally.decls⟩ ids root
  notices : s.notices.toList = tally.notices

/-! ## Reading one declaration -/

/-- The span of an item is that of its tokens. -/
theorem ItemOf.span_eq_itemSpan {tokens : List (Located Token)} (h : ItemOf d.name s₁ s' item)
    (hattributes : Passes s (attributeTokens d.attributes) s₁) (hmoved : Moved s tokens s')
    (hlength : 2 * d.attributes.length < tokens.length) : item.span = itemSpan d tokens := by
  obtain ⟨read, hread, hmoved₁⟩ := hattributes.moved
  have hcount : read.length = 2 * d.attributes.length := by
    rw [← length_attributeTokens, ← hread, List.length_map]
  have hcurrent : tokens[2 * d.attributes.length]? = some s₁.cursor.current := by
    have hboth : tokens ++ s'.upcoming = read ++ s₁.upcoming :=
      hmoved.upcoming.symm.trans hmoved₁.upcoming
    have hindex := congrArg (fun l => l[2 * d.attributes.length]?) hboth
    simp only [List.getElem?_append_left hlength] at hindex
    rw [hindex, List.getElem?_append_right (by omega), hcount, Nat.sub_self]
    rfl
  obtain ⟨front, last, rfl⟩ : ∃ front last, tokens = front ++ [last] :=
    ⟨_, _, (List.dropLast_append_getLast (List.ne_nil_of_length_pos (by omega))).symm⟩
  rw [h.span_eq, itemSpan, hcurrent, hmoved.lastSpan_eq]
  simp

theorem DeclarationTokens.two_mul_lt_length (h : DeclarationTokens room ts d) :
    2 * d.attributes.length < ts.length := by
  cases h with
  | struct name fields _ => simp [Decl.attributes]
  | global type name _ => simp [Decl.attributes]
  | external attributes _ => simp [Decl.attributes, length_attributeTokens]
  | function attributes _ _ => simp [Decl.attributes, length_attributeTokens]

/-- Registering an item adds the declaration to the tally. -/
theorem register_eq (around : Option Position) {tally : Tally} {tokens : List (Located Token)}
    (hstands : Stands store root name tally s)
    (hplant : Planted DeclAt s.store s₁.store d item.node) (hnotices : s₁.notices = s.notices)
    (hname : item.name = d.name) (hspan : item.span = itemSpan d tokens) :
    ∃ s₂, outcome (register root item) around s₁ = .ok () s₂ ∧ s₂.cursor = s₁.cursor ∧
      Stands store root name (tally.add (.read tokens d)) s₂ := by
  obtain ⟨ids, hopen⟩ := hstands.opened
  have hfree := OpenModule.itemNamed?_eq_none_iff (hopen.grow hplant.grown) d.name
  cases hitem : s₁.store.itemNamed? root item.name with
  | none =>
    have htaken : tally.isTaken d.name = false := by
      rw [Tally.isTaken, List.any_eq_false]
      simpa using hfree.mp (hname ▸ hitem)
    refine ⟨(s₁.withStore (s₁.store.enlist root item.name item.node)).note
      (.declared item.name item.kind), ?_, rfl, ?_, ?_⟩
    · rw [register, get_bind, hitem]
      rfl
    · rw [Tally.add, if_neg (by simp [htaken]), hname]
      exact ⟨_, hopen.enlist hplant⟩
    · rw [Tally.add, if_neg (by simp [htaken])]
      exact (congrArg Array.toList hnotices).trans hstands.notices
  | some found =>
    have htaken : tally.isTaken d.name = true := by
      rw [← Bool.not_eq_false, Tally.isTaken, List.any_eq_false]
      intro hnone
      rw [hname, hfree.mpr (by simpa using hnone)] at hitem
      exact absurd hitem (by simp)
    refine ⟨s₁.record (.duplicateDefinition item.name) item.span, ?_, rfl, ?_, ?_⟩
    · rw [register, get_bind, hitem]
      rfl
    · rw [Tally.add, if_pos htaken]
      exact ⟨ids, hopen.grow hplant.grown⟩
    · rw [Tally.add, if_pos htaken, ← hspan, ← hname]
      simp [State.record, hnotices, hstands.notices]

/-- A declaration that lies ahead is read and registered. -/
theorem read_declaration (around : Option Position) {tally : Tally}
    {tokens rest : List (Located Token)} {next : Located Token}
    (hstands : Stands store root name tally s)
    (hd : DeclarationTokens room (tokens.map Located.value) d)
    (hs : s.upcoming = tokens ++ next :: rest) :
    ∃ item s₁ s₂, outcome (declaration room) around s = .ok item s₁ ∧
      outcome (register root item) around s₁ = .ok () s₂ ∧ Moved s tokens s₂ ∧
      Stands store root name (tally.add (.read tokens d)) s₂ := by
  have hvalues : s.values = tokens.map Located.value ++ next.value :: rest.map Located.value := by
    simp [State.values, hs]
  obtain ⟨item, s₁, hrun, hpass, ⟨s₀, hpass₀, hitem⟩, hplant⟩ :=
    complete_declaration room around hd hvalues
  have hmoved := hpass.moved_of_upcoming hs
  have hlength : 2 * d.attributes.length < tokens.length := by
    simpa using hd.two_mul_lt_length
  obtain ⟨s₂, hregister, hcursor, hstands'⟩ := register_eq around hstands hplant
    hpass.notices hitem.name_eq (hitem.span_eq_itemSpan hpass₀ hmoved hlength)
  exact ⟨item, s₁, s₂, hrun, hregister, hmoved.of_cursor_eq hcursor, hstands'⟩

/-! ## Recovery -/

theorem skipToBoundary_eq (around : Option Position) (depth n skipped : Nat) (hs : s.Ended) :
    ∃ k s' read, outcome (skipToBoundary depth n skipped) around s = .ok k s' ∧
      Moved s read s' ∧ s'.store = s.store ∧ s'.notices = s.notices := by
  induction n generalizing s skipped with
  | zero => exact ⟨skipped, s, [], rfl, .refl rfl, rfl, rfl⟩
  | succ n ih =>
    rw [skipToBoundary, get_bind]
    dsimp only
    split
    · obtain ⟨read, hmoved, -⟩ := moved_advance hs
      obtain ⟨k, s', read', hrun, hmoved', hstore, hnotices⟩ := ih (skipped + 1) (hmoved.ended hs)
      exact ⟨k, s', read ++ read', hrun, hmoved.trans hmoved', hstore, hnotices⟩
    · exact ⟨skipped, s, [], rfl, .refl rfl, rfl, rfl⟩

/-- Recovery is skipping, behind the current token if the failed declaration started at it. -/
theorem synchronize_bind (around : Option Position) (start depth : Nat) (s : State) :
    outcome (synchronize start depth) around s = outcome (do
        let skipped ← skipToBoundary depth ((← tokensAhead) + 1) 0
        modify fun s => s.note (.resynchronized skipped)) around
      (if s.cursor.position = start then s.advance else s) := by
  rw [synchronize, get_bind]
  split <;> rfl

/-- Recovery moves forward, past the token at which the failed declaration started, and touches
neither store nor notices. -/
theorem synchronize_eq (around : Option Position) (start depth : Nat) (hs : s.Ended) :
    ∃ s' read, outcome (synchronize start depth) around s = .ok () s' ∧ Moved s read s' ∧
      (s.cursor.position = start → s.cursor.hasNext = true → read ≠ []) ∧
      s'.store = s.store ∧ s'.notices = s.notices := by
  obtain ⟨s₁, first, hs₁, hfirst, hne, hstore, hnotices⟩ : ∃ s₁ first,
      (if s.cursor.position = start then s.advance else s) = s₁ ∧ Moved s first s₁ ∧
      (s.cursor.position = start → s.cursor.hasNext = true → first ≠ []) ∧
      s₁.store = s.store ∧ s₁.notices = s.notices := by
    split
    next =>
      obtain ⟨first, hmoved, hne⟩ := moved_advance hs
      exact ⟨_, first, rfl, hmoved, fun _ => hne, rfl, rfl⟩
    next h => exact ⟨_, [], rfl, .refl rfl, fun h' => absurd h' h, rfl, rfl⟩
  obtain ⟨k, s', more, hskip, hmore, hstore', hnotices'⟩ :=
    skipToBoundary_eq around depth (s₁.cursor.ahead.length + 1) 0 (hfirst.ended hs)
  refine ⟨s'.note (.resynchronized k), first ++ more, ?_, (hfirst.trans hmore).of_cursor_eq rfl,
    fun h hnext => by simp [hne h hnext], hstore'.trans hstore, hnotices'.trans hnotices⟩
  rw [synchronize_bind, hs₁, tokensAhead_bind, bind_of_ok hskip]
  rfl

theorem synchronize_run {start depth : Nat} (hs : s.Ended)
    (hrun : outcome (synchronize start depth) around s = .ok () s') :
    ∃ read, Moved s read s' ∧
      (s.cursor.position = start → s.cursor.hasNext = true → read ≠ []) ∧
      s'.store = s.store ∧ s'.notices = s.notices := by
  obtain ⟨s₁, read, hsync, hrest⟩ := synchronize_eq around start depth hs
  cases hrun.symm.trans hsync
  exact ⟨read, hrest⟩

/-! ## Turns -/

/-- The loop over the declarations of a module: how deep productions may nest, the node of the
module, the depth behind its opening brace, and where it starts. -/
structure Loop where
  room : Nat
  root : NodeId
  depth : Nat
  around : Option Position

/-- One turn of a loop: the state at its head, what came of the attempt at a declaration, and the
state at the head of the next turn. -/
structure Turn where
  head : State
  result : Except Marker Declared
  next : State

namespace Loop

/-- A turn that the loop takes.  Neither is it at a closing brace then nor at the end of the
input. -/
inductive Takes (l : Loop) : Turn → Prop
  | read {head s₁ next : State} {item : Declared} :
      head.cursor.kind ≠ .symbol .closeCurly → head.cursor.hasNext = true →
      outcome (declaration l.room) l.around head = .ok item s₁ →
      outcome (register l.root item) l.around s₁ = .ok () next →
      Takes l ⟨head, .ok item, next⟩
  | failed {head s₁ next : State} {marker : Marker} :
      head.cursor.kind ≠ .symbol .closeCurly → head.cursor.hasNext = true →
      outcome (declaration l.room) l.around head = .error marker s₁ →
      outcome (synchronize head.cursor.position l.depth) l.around s₁ = .ok () next →
      Takes l ⟨head, .error marker, next⟩

/-- Turns from one state to another. -/
inductive Turns (l : Loop) : State → List Turn → State → Prop
  | nil (s : State) : Turns l s [] s
  | cons {turn : Turn} {turns : List Turn} {s' : State} :
      l.Takes turn → Turns l turn.next turns s' → Turns l turn.head (turn :: turns) s'

/-- Turns up to a state in which the loop stops. -/
structure Run (l : Loop) (s : State) (turns : List Turn) (s' : State) : Prop where
  turns : l.Turns s turns s'
  stops : s'.cursor.kind = .symbol .closeCurly ∨ s'.cursor.kind = .eof

end Loop

/-- Registering an item moves no cursor and adds no node. -/
theorem size_enlist (store : Store) (root item : NodeId) (name : Ident) :
    (store.enlist root name item).size = store.size := by
  unfold Store.enlist
  split
  · rw [Store.size_setParent, Store.size_put]
  · rfl

theorem register_frame {root : NodeId} (h : outcome (register root item) around s = .ok () s') :
    s'.cursor = s.cursor ∧ s'.depth = s.depth ∧ s'.store.size = s.store.size := by
  rw [register, get_bind] at h
  cases hitem : s.store.itemNamed? root item.name with
  | none =>
    rw [hitem] at h
    cases h
    exact ⟨rfl, rfl, size_enlist _ _ _ _⟩
  | some found =>
    rw [hitem] at h
    cases h
    exact ⟨rfl, rfl, rfl⟩

theorem register_isOk (around : Option Position) (s : State) (root : NodeId) (item : Declared) :
    ∃ s', outcome (register root item) around s = .ok () s' := by
  rw [register, get_bind]
  cases s.store.itemNamed? root item.name with
  | none => exact ⟨_, rfl⟩
  | some _ => exact ⟨_, rfl⟩

theorem DeclarationTokens.exists_cons (h : DeclarationTokens room ts d) :
    ∃ t us, ts = t :: us ∧ startsDeclaration t.kind = true := by
  cases h with
  | struct _ _ _ => exact ⟨_, _, rfl, rfl⟩
  | global _ _ _ => exact ⟨_, _, rfl, rfl⟩
  | external attributes _ => cases attributes <;> exact ⟨_, _, rfl, rfl⟩
  | function attributes _ _ => cases attributes <;> exact ⟨_, _, rfl, rfl⟩

namespace Loop

variable {l : Loop} {turn : Turn} {turns : List Turn} {tally : Tally}

theorem exists_takes (l : Loop) (hs : s.Ended) (hclose : s.cursor.kind ≠ .symbol .closeCurly)
    (hnext : s.cursor.hasNext = true) : ∃ turn, l.Takes turn ∧ turn.head = s := by
  have hsound := plants_declaration l.room l.around hs
  cases hd : outcome (declaration l.room) l.around s with
  | ok item s₁ =>
    obtain ⟨next, hregister⟩ := register_isOk l.around s₁ l.root item
    exact ⟨_, .read hclose hnext hd hregister, rfl⟩
  | error marker s₁ =>
    obtain ⟨read, hmoved⟩ := (hsound.of_error hd).moved
    obtain ⟨next, -, hsync, -⟩ :=
      synchronize_eq l.around s.cursor.position l.depth (hmoved.ended hs)
    exact ⟨_, .failed hclose hnext hd hsync, rfl⟩

/-- A turn passes a token at least. -/
theorem Takes.moved (h : l.Takes turn) (hs : turn.head.Ended) :
    ∃ read, Moved turn.head read turn.next ∧ read ≠ [] := by
  cases h with
  | @read head s₁ next item hclose hnext hd hregister =>
    obtain ⟨ts, hreached, d, hts, -⟩ := (plants_declaration l.room l.around hs).of_ok hd
    obtain ⟨read, hread, hmoved⟩ := hreached.passes.moved
    obtain ⟨t, us, rfl, -⟩ := hts.exists_cons
    refine ⟨read, hmoved.of_cursor_eq (register_frame hregister).1, ?_⟩
    rintro rfl
    simp at hread
  | @failed head s₁ next marker hclose hnext hd hsync =>
    obtain ⟨read, hmoved⟩ := ((plants_declaration l.room l.around hs).of_error hd).moved
    obtain ⟨read', hmoved', hne, -⟩ := synchronize_run (hmoved.ended hs) hsync
    refine ⟨read ++ read', hmoved.trans hmoved', fun hnil => ?_⟩
    obtain ⟨rfl, rfl⟩ := List.append_eq_nil_iff.mp hnil
    have hstart : s₁.cursor.position = head.cursor.position := by simpa using hmoved.position_eq
    exact hne hstart (by rwa [hmoved.cursor_of_position_eq hstart]) rfl

/-- Every turn takes a piece and adds it to the tally. -/
theorem Takes.exists_piece (h : l.Takes turn) (hs : turn.head.Ended)
    (hstands : Stands store l.root name tally turn.head) :
    ∃ piece : Piece, piece.Valid l.room ∧ piece.isRead = turn.result.isOk ∧
      Moved turn.head piece.tokens turn.next ∧
      Stands store l.root name (tally.add piece) turn.next := by
  cases h with
  | @read head s₁ next item hclose hnext hd hregister =>
    obtain ⟨ts, hread, d, hts, -⟩ := (plants_declaration l.room l.around hs).of_ok hd
    obtain ⟨tokens, rfl, hmoved⟩ := hread.passes.moved
    obtain ⟨item', s₁', s₂, hd', hregister', hmoved₂, hstands₂⟩ :=
      read_declaration l.around hstands hts hmoved.upcoming
    cases hd.symm.trans hd'
    cases hregister.symm.trans hregister'
    exact ⟨.read tokens d, hts, rfl, hmoved₂, hstands₂⟩
  | @failed head s₁ next marker hclose hnext hd hsync =>
    have hspoilt := (plants_declaration l.room l.around hs).of_error hd
    obtain ⟨read, hmoved⟩ := hspoilt.moved
    obtain ⟨diagnostic, span, hsyntax, hnotice⟩ := hspoilt.notice
    obtain ⟨read', hmoved', -, hstore, hnotices⟩ := synchronize_run (hmoved.ended hs) hsync
    obtain ⟨ids, hopen⟩ := hstands.opened
    refine ⟨.dropped (read ++ read') (.of diagnostic span), ⟨diagnostic, span, hsyntax, rfl⟩, rfl,
      hmoved.trans hmoved', ⟨ids, ?_⟩, ?_⟩
    · rw [hstore]
      exact hopen.grow hspoilt.grown
    · have htally : head.notices.toList = tally.notices := hstands.notices
      simp [hnotices, hnotice, Tally.add, htally]

theorem Turns.ended (h : l.Turns s turns s') (hs : s.Ended) :
    s'.Ended ∧ ∀ turn ∈ turns, turn.head.Ended := by
  induction h with
  | nil s => exact ⟨hs, by simp⟩
  | cons hturn _ ih =>
    obtain ⟨read, hmoved, -⟩ := hturn.moved hs
    obtain ⟨hlast, hheads⟩ := ih (hmoved.ended hs)
    exact ⟨hlast, List.forall_mem_cons.mpr ⟨hs, hheads⟩⟩

/-- There are fewer turns than tokens. -/
theorem Turns.length_lt (h : l.Turns s turns s') (hs : s.Ended) :
    turns.length < s.values.length := by
  induction h with
  | nil s => exact List.length_pos_iff.mpr s.values_ne_nil
  | cons hturn _ ih =>
    obtain ⟨read, hmoved, hread⟩ := hturn.moved hs
    have hrest := ih (hmoved.ended hs)
    have hpos := List.length_pos_iff.mpr hread
    rw [hmoved.length_values, List.length_cons]
    omega

/-- Every loop runs to its end. -/
theorem exists_run (l : Loop) (hs : s.Ended) : ∃ turns s', l.Run s turns s' := by
  induction hlength : s.values.length using Nat.strongRecOn generalizing s with
  | ind length ih =>
  by_cases hclose : s.cursor.kind = .symbol .closeCurly
  · exact ⟨[], s, .nil s, .inl hclose⟩
  by_cases heof : s.cursor.kind = .eof
  · exact ⟨[], s, .nil s, .inr heof⟩
  obtain ⟨turn, hturn, rfl⟩ := l.exists_takes hs hclose (by simpa [Cursor.hasNext])
  obtain ⟨read, hmoved, hread⟩ := hturn.moved hs
  have hpos := List.length_pos_iff.mpr hread
  have hshorter := hmoved.length_values
  obtain ⟨turns, s', hrun⟩ := ih turn.next.values.length (by omega) (hmoved.ended hs) rfl
  exact ⟨turn :: turns, s', .cons hturn hrun.turns, hrun.stops⟩

end Loop

/-! ## The loop, with a record -/

/-- Where an attempt to read a declaration started, where reading went on, and whether it
gave a declaration. -/
structure Attempt where
  start : Nat
  stop : Nat
  isRead : Bool
deriving DecidableEq

/-- The loop over declarations, with its attempts as result. -/
def attempts (room : Nat) (module : NodeId) (depth : Nat) : Nat → Parser (List Attempt)
  | 0 => return []
  | n + 1 => do
    if ← isSymbol .closeCurly then return []
    expectMore (.symbol .closeCurly)
    let start := (← get).cursor.position
    let isRead ← match ← attempt (declaration room) with
      | .ok item => do
        register module item
        pure true
      | .error _ => do
        synchronize start depth
        pure false
    let stop := (← get).cursor.position
    return ⟨start, stop, isRead⟩ :: (← attempts room module depth n)

/-- The record is all that sets the two loops apart. -/
theorem declarations_eq_attempts (n : Nat) (attempted : Bool) :
    outcome (declarations room root depth n attempted) around s =
      mapOk (fun log => attempted || !log.isEmpty)
        (outcome (attempts room root depth n) around s) := by
  induction n generalizing s attempted with
  | zero => simp [declarations, attempts, outcome_pure, mapOk]
  | succ n ih =>
    rw [declarations, attempts]
    refine bind_congr_mapOk fun close s₁ => ?_
    cases close with
    | true => simp [outcome_pure, mapOk]
    | false =>
      refine bind_congr_mapOk fun _ s₂ => ?_
      rw [get_bind, get_bind]
      refine bind_congr_mapOk fun result s₃ => ?_
      cases result with
      | ok _ | error _ =>
        refine bind_congr_mapOk fun _ s₄ => ?_
        rw [bind_of_ok (outcome_pure _), get_bind, bind_pure_eq, ih]
        cases outcome (attempts room root depth n) around s₄ <;> simp [mapOk]

/-- The record of a turn. -/
def Turn.attempt (turn : Turn) : Attempt :=
  ⟨turn.head.cursor.position, turn.next.cursor.position, turn.result.isOk⟩

/-- The record of the attempts that took some pieces. -/
def recordOf (start : Nat) : List Piece → List Attempt
  | [] => []
  | piece :: rest => ⟨start, start + piece.tokens.length, piece.isRead⟩ ::
      recordOf (start + piece.tokens.length) rest

namespace Loop

variable {l : Loop} {turn : Turn} {turns : List Turn} {tally : Tally}

/-- What turns have taken. -/
theorem Turns.exists_pieces (h : l.Turns s turns s') (hs : s.Ended)
    (hstands : Stands store l.root name tally s) :
    ∃ pieces : List Piece, (∀ p ∈ pieces, p.Valid l.room) ∧
      Moved s (pieces.flatMap Piece.tokens) s' ∧
      Stands store l.root name (pieces.foldl Tally.add tally) s' ∧
      turns.map Turn.attempt = recordOf s.cursor.position pieces := by
  induction h generalizing tally with
  | nil s => exact ⟨[], by simp, .refl rfl, hstands, rfl⟩
  | cons hturn _ ih =>
    obtain ⟨piece, hvalid, hisRead, hmoved, hstands₁⟩ := hturn.exists_piece hs hstands
    obtain ⟨pieces, hpieces, hmoved', hstands', hrecord⟩ := ih (hmoved.ended hs) hstands₁
    refine ⟨piece :: pieces, List.forall_mem_cons.mpr ⟨hvalid, hpieces⟩,
      by simpa using hmoved.trans hmoved', hstands', ?_⟩
    rw [List.map_cons, hrecord, recordOf, Turn.attempt, hisRead, hmoved.position_eq]

/-- The loop with its record, from some state on, for at most `n` turns. -/
def record (l : Loop) (n : Nat) : Parser (List Attempt) := attempts l.room l.root l.depth n

theorem Takes.record_eq (h : l.Takes turn) (n : Nat) :
    outcome (l.record (n + 1)) l.around turn.head =
      mapOk (turn.attempt :: ·) (outcome (l.record n) l.around turn.next) := by
  cases h with
  | read hclose hnext hd hregister =>
    rw [record, attempts, isSymbol_bind, decide_eq_false hclose, if_neg (by simp),
      expectMore_bind hnext, get_bind, attempt_bind, hd]
    dsimp only
    rw [bind_of_ok hregister, bind_of_ok (outcome_pure _), get_bind, bind_pure_eq]
    rfl
  | failed hclose hnext hd hsync =>
    rw [record, attempts, isSymbol_bind, decide_eq_false hclose, if_neg (by simp),
      expectMore_bind hnext, get_bind, attempt_bind, hd]
    dsimp only
    rw [bind_of_ok hsync, bind_of_ok (outcome_pure _), get_bind, bind_pure_eq]
    rfl

theorem Turns.record_eq (h : l.Turns s turns s') (n : Nat) :
    outcome (l.record (n + turns.length)) l.around s =
      mapOk (turns.map Turn.attempt ++ ·) (outcome (l.record n) l.around s') := by
  induction h with
  | nil s => cases outcome (l.record n) l.around s <;> rfl
  | @cons turn turns s' hturn _ ih =>
    rw [List.length_cons, ← Nat.add_assoc, hturn.record_eq, ih]
    cases outcome (l.record n) l.around s' <;> rfl

/-- The loop stops at a closing brace. -/
theorem record_of_closeCurly (l : Loop) (h : s.cursor.kind = .symbol .closeCurly) (n : Nat) :
    outcome (l.record (n + 1)) l.around s = .ok [] s := by
  rw [record, attempts, isSymbol_bind, decide_eq_true h]
  rfl

/-- The loop fails at the end of the input. -/
theorem record_of_eof (l : Loop) (h : s.cursor.kind = .eof) :
    ∃ span, ∀ n, outcome (l.record (n + 1)) l.around s =
      .error ⟨s.notices.size⟩ (s.record (.unexpectedToken (.symbol .closeCurly) .eof) span) := by
  have hclose : s.cursor.kind ≠ .symbol .closeCurly := by simp [h]
  have hnext : ¬ s.cursor.hasNext = true := by simp [Cursor.hasNext, h]
  obtain ⟨span, hfail⟩ := outcome_expect l.around hclose
  rw [h] at hfail
  refine ⟨span, fun n => ?_⟩
  rw [record, attempts, isSymbol_bind, decide_eq_false hclose, if_neg (by simp)]
  refine bind_of_error ?_
  rw [expectMore, get_bind, if_neg hnext, hfail]

/-- What a run makes of the loop, whatever the bound on the number of turns, if only it is as large
as the number of tokens. -/
theorem Run.record_eq (h : l.Run s turns s') (hs : s.Ended) {n : Nat} (hn : s.values.length ≤ n) :
    outcome (l.record n) l.around s =
      mapOk (turns.map Turn.attempt ++ ·) (outcome (l.record 1) l.around s') := by
  have hlength := h.turns.length_lt hs
  obtain ⟨m, rfl⟩ : ∃ m, n = m + 1 + turns.length := ⟨n - 1 - turns.length, by omega⟩
  rw [h.turns.record_eq]
  rcases h.stops with hclose | heof
  · rw [l.record_of_closeCurly hclose, l.record_of_closeCurly hclose 0]
  · obtain ⟨span, hfail⟩ := l.record_of_eof heof
    rw [hfail, hfail 0]

end Loop

end FrontEnd.Grammar
