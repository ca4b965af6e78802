import FrontEnd.Proofs.Grammar.Bounds
import FrontEnd.Proofs.Grammar.Units
import FrontEnd.Proofs.Tree.Layout
import FrontEnd.Proofs.Tree.Links
import Mathlib.Logic.Relation

/-!
# What productions own

A production owns the roots that it has added and not yet given to a node.  They stand on the
tokens that it has passed, one after the other.  `Keeps pre p post` says what a run of `p` does to
them: it starts with roots as `pre` says, and either succeeds with those of `post` in their place,
or fails and has lost its own.  In both cases the store is tidy, what was there before the
production is as it was, and new nodes and notices stand on tokens.

Nodes get their spans in three ways: from the tokens that a production has read, from the start of
an operand and the token passed last, and, for blocks and modules, when the closing brace has been
read.

Rules for single steps and for steps one after the other make one rule for each production, and
the last is about parsing: a store stays tidy, whatever the tokens are and however the run ends.

## Main definitions

* `Origin`, `Went`: where a production starts, and a run from there.
* `Holding`: the roots that a production owns.
* `Keeps`, `Plots`: what a run owns before and after.
* `Fills`: parsing one source after the other into an arena.

## Main statements

* `holds_parseModule`: what parsing adds to a store is tidy.
* `traced_parseModule`: nodes and notices stand on tokens.
-/

namespace FrontEnd.Grammar

open Store (Holds ScopeFits Tidy Grown Settled LaidOut Open Retains Row StandsOn)

variable {α β : Type} {b : Site} {s s' : State} {around : Option Position}

/-! ## States over tokens -/

/-- A state in the tokens of a site.  New nodes that have a span are laid out on tokens, and new
notices are about tokens. -/
structure Traced (b : Site) (s : State) : Prop where
  tokens : s.cursor.tokens = b.tokens
  ended : s.Ended
  size : b.nodes ≤ s.store.size
  settled : Settled b s.store
  notices : ∀ k n, b.notices ≤ k → s.notices[k]? = some n → ∃ i j, FromTo b.tokens i j n.span

namespace Traced

theorem current (h : Traced b s) : b.tokens[s.cursor.position]? = some s.cursor.current := by
  rw [← h.tokens]
  simp [Cursor.tokens, Cursor.position]

/-- The token passed last. -/
theorem last (h : Traced b s) (hpos : 1 ≤ s.cursor.position) :
    ∃ t, b.tokens[s.cursor.position - 1]? = some t ∧ s.cursor.lastSpan = t.span := by
  cases hpassed : s.cursor.passed with
  | nil => simp [Cursor.position, hpassed] at hpos
  | cons t rest =>
    refine ⟨t, ?_, by simp [Cursor.lastSpan, Cursor.previous?, hpassed]⟩
    rw [← h.tokens, Cursor.tokens, Cursor.position, hpassed, List.reverse_cons, List.append_assoc]
    simp

/-- The span of a production that has passed a token. -/
theorem fromTo_last {i : Nat} {t : Located Token} (h : Traced b s) (ht : b.tokens[i]? = some t)
    (hi : i < s.cursor.position) :
    FromTo b.tokens i (s.cursor.position - 1) ⟨t.span.start, s.cursor.lastSpan.stop⟩ := by
  obtain ⟨u, hu, hlast⟩ := h.last (by omega)
  exact ⟨by omega, t, u, ht, hu, by rw [hlast]⟩

theorem record (h : Traced b s) {d : Diagnostic} {span : Span}
    (hspan : ∃ i j, FromTo b.tokens i j span) : Traced b (s.record d span) := by
  refine ⟨h.tokens, h.ended, h.size, h.settled, fun k n hk hn => ?_⟩
  rw [State.record, Array.getElem?_push] at hn
  split at hn
  · cases hn
    exact hspan
  · exact h.notices k n hk hn

theorem moved {read : List (Located Token)} (h : Traced b s) (hmoved : Moved s read s')
    (hstore : s'.store = s.store) (hnotices : s'.notices = s.notices) : Traced b s' where
  tokens := by
    have hupcoming := hmoved.upcoming
    rw [State.upcoming, State.upcoming] at hupcoming
    rw [← h.tokens, Cursor.tokens, Cursor.tokens, hupcoming, hmoved.passed]
    simp
  ended := hmoved.ended h.ended
  size := hstore ▸ h.size
  settled := hstore ▸ h.settled
  notices := hnotices ▸ h.notices

end Traced

/-- Where a production starts: the store before it, and the number of its first token. -/
structure Origin where
  store : Store
  position : Nat

/-- A production starts at a state. -/
def State.origin (s : State) : Origin := ⟨s.store, s.cursor.position⟩

/-- A run has gone on from an origin.  What it has added to the store is tidy. -/
structure Went (b : Site) (o : Origin) (s : State) : Prop where
  traced : Traced b s
  position : o.position ≤ s.cursor.position
  tidy : Tidy o.store s.store

/-- The production around starts at a token that has been reached. -/
def Sited (b : Site) (around : Option Position) (o : Origin) : Prop :=
  ∀ start, around = some start →
    ∃ i t, i ≤ o.position ∧ b.tokens[i]? = some t ∧ start = t.span.start

variable {o : Origin}

theorem Sited.origin (h : Sited b around o) (hw : Went b o s) : Sited b around s.origin := by
  intro start hstart
  obtain ⟨i, t, hi, ht, rfl⟩ := h start hstart
  exact ⟨i, t, Nat.le_trans hi hw.position, ht, rfl⟩

theorem Traced.went (h : Traced b s) : Went b s.origin s := ⟨h, Nat.le_refl _, .refl _⟩

namespace Went

theorem trans (h : Went b o s) (h' : Went b s.origin s') : Went b o s' :=
  ⟨h'.traced, Nat.le_trans h.position h'.position, h.tidy.trans h'.tidy⟩

theorem record (h : Went b o s) {d : Diagnostic} {span : Span}
    (hspan : ∃ i j, FromTo b.tokens i j span) : Went b o (s.record d span) :=
  ⟨h.traced.record hspan, h.position, h.tidy⟩

theorem moved {read : List (Located Token)} (h : Went b o s) (hmoved : Moved s read s')
    (hstore : s'.store = s.store) (hnotices : s'.notices = s.notices) : Went b o s' := by
  have hle := h.position
  exact ⟨h.traced.moved hmoved hstore hnotices, by rw [hmoved.position_eq]; omega, hstore ▸ h.tidy⟩

/-- A token that is not the last is passed. -/
theorem advance (h : Went b o s) (hnext : s.cursor.hasNext = true) :
    Went b o s.advance ∧ s.advance.cursor.position = s.cursor.position + 1 := by
  have hmoved := moved_advance_of_hasNext h.traced.ended hnext
  exact ⟨h.moved hmoved rfl rfl, hmoved.position_eq⟩

end Went

/-! ## Runs -/

/-- A run from a state as `pre` says ends in one as `post` says, or fails. -/
def Keeps (b : Site) (pre : Origin → State → Prop) (p : Parser α)
    (post : α → Origin → State → Prop) : Prop :=
  ∀ o around s, Sited b around o → Went b o s → pre o s →
    Ends p around s (fun a s' => Went b o s' ∧ post a o s') (Went b o)

section Rules

variable {x : Parser α} {f : α → Parser β} {pre pre' : Origin → State → Prop}
  {mid mid' : α → Origin → State → Prop} {post : β → Origin → State → Prop}

theorem Keeps.bind (hx : Keeps b pre x mid) (hf : ∀ a, Keeps b (mid a) (f a) post) :
    Keeps b pre (x >>= f) post := by
  intro o around s hs hw hpre
  refine ends_bind.mpr ((hx o around s hs hw hpre).imp (fun a s₁ hmid => ?_) fun _ h => h)
  exact hf a o around s₁ hs hmid.1 hmid.2

theorem Keeps.of_pre (h : Keeps b pre' x mid) (himp : ∀ o s, Went b o s → pre o s → pre' o s) :
    Keeps b pre x mid :=
  fun o around s hs hw hpre => h o around s hs hw (himp o s hw hpre)

theorem Keeps.imp (h : Keeps b pre x mid) (himp : ∀ a o s, mid a o s → mid' a o s) :
    Keeps b pre x mid' := by
  intro o around s hs hw hpre
  exact (h o around s hs hw hpre).imp (fun a s' h => ⟨h.1, himp a o s' h.2⟩) fun _ h => h

/-- What does not depend on the state can be taken out. -/
theorem Keeps.of_and {P : Prop} (h : P → Keeps b pre x mid) :
    Keeps b (fun o s => P ∧ pre o s) x mid :=
  fun o around s hs hw hpre => h hpre.1 o around s hs hw hpre.2

theorem keeps_pure {a : α} (h : ∀ o s, pre o s → mid a o s) : Keeps b pre (pure a) mid :=
  fun o _ s _ hw hpre => ⟨hw, h o s hpre⟩

/-- A run that looks at the state and changes nothing. -/
theorem keeps_look (hx : ∀ around s, ∃ a, outcome x around s = .ok a s)
    (hf : ∀ a, Keeps b pre (f a) post) : Keeps b pre (x >>= f) post := by
  intro o around s hs hw hpre
  obtain ⟨a, hrun⟩ := hx around s
  rw [ends_of_eq (bind_of_ok hrun)]
  exact hf a o around s hs hw hpre

variable {span : Span} {kind : TokenKind} {used' : Nat} {rule : Parser Construct} {c : Construct}

theorem keeps_failAt {d : Diagnostic} (hspan : ∃ i j, FromTo b.tokens i j span) :
    Keeps b pre (failAt d span) mid :=
  fun _ _ _ _ hw _ => hw.record hspan

/-- A notice is about the production around, up to the current token. -/
theorem Went.fail {good : α → State → Prop} (hw : Went b o s) (hs : Sited b around o)
    (d : Diagnostic) : Ends (fail d) around s good (Went b o) := by
  have hcurrent := hw.traced.current
  cases around with
  | none => exact hw.record ⟨_, _, fromTo_self hcurrent⟩
  | some start =>
    obtain ⟨i, t, hi, ht, rfl⟩ := hs start rfl
    exact hw.record ⟨i, _, Nat.le_trans hi hw.position, t, _, ht, hcurrent, rfl⟩

theorem keeps_fail {d : Diagnostic} : Keeps b pre (fail d) mid :=
  fun _ _ _ hs hw _ => hw.fail hs d

/-! ## Passing tokens -/

/-- A look at the current token. -/
theorem keeps_current {f : Located Token → Parser β}
    (hf : ∀ token, Keeps b (fun o s => pre o s ∧ s.cursor.current = token) (f token) post) :
    Keeps b pre (current >>= f) post :=
  fun o around s hs hw hpre => hf s.cursor.current o around s hs hw ⟨hpre, rfl⟩

theorem keeps_currentKind {f : TokenKind → Parser β}
    (hf : ∀ kind, Keeps b (fun o s => pre o s ∧ s.cursor.kind = kind) (f kind) post) :
    Keeps b pre (currentKind >>= f) post :=
  fun o around s hs hw hpre => hf s.cursor.kind o around s hs hw ⟨hpre, rfl⟩

/-- A look at the current token splits a run in two. -/
theorem keeps_isKind {f : Bool → Parser β}
    (htrue : Keeps b (fun o s => pre o s ∧ s.cursor.kind = kind) (f true) post)
    (hfalse : Keeps b pre (f false) post) : Keeps b pre (isKind kind >>= f) post := by
  intro o around s hs hw hpre
  rw [ends_of_eq (isKind_bind kind)]
  by_cases hk : s.cursor.kind = kind
  · rw [decide_eq_true hk]
    exact htrue o around s hs hw ⟨hpre, hk⟩
  · rw [decide_eq_false hk]
    exact hfalse o around s hs hw hpre

theorem keeps_expect (kind : TokenKind) :
    Keeps b pre (expect kind) fun _ o s => pre o s ∧ s.cursor.kind = kind := by
  intro o around s hs hw hpre
  by_cases hk : s.cursor.kind = kind
  · rw [ends_of_ok (expect_eq hk)]
    exact ⟨hw, hpre, hk⟩
  · rw [expect, ends_of_eq currentKind_bind, if_neg hk]
    exact hw.fail hs _

/-- An assertion that counts the tokens passed. -/
def Counts (P : Nat → Origin → State → Prop) : Prop :=
  ∀ used o s s', P used o s → s'.store = s.store →
    s'.cursor.position = s.cursor.position + 1 → P (used + 1) o s'

variable {P : Nat → Origin → State → Prop} {used : Nat}

theorem Counts.advance (hP : Counts P) (hkind : kind ≠ .eof) :
    Keeps b (fun o s => P used o s ∧ s.cursor.kind = kind) advance fun _ => P (used + 1) := by
  intro o around s hs hw hpre
  have hnext : s.cursor.hasNext = true := by simpa [Cursor.hasNext, hpre.2] using hkind
  obtain ⟨hw', hposition⟩ := hw.advance hnext
  exact ⟨hw', hP used o s _ hpre.1 rfl hposition⟩

/-- A token that has to be there is passed. -/
theorem Counts.skipOver (hP : Counts P) (hkind : kind ≠ .eof) :
    Keeps b (P used) (skipOver kind) fun _ => P (used + 1) :=
  (keeps_expect kind).bind fun _ => hP.advance hkind

/-! ## Roots in a row -/

/-- The roots `own` that a production has added stand on the tokens that it has passed, `used` of
them at least, and roots `marks` that it was given stand before these. -/
structure Holding (b : Site) (marks : List Child) (used : Nat) (own : List Child) (o : Origin)
    (s : State) : Prop where
  used : o.position + used ≤ s.cursor.position
  holds : Holds o.store s.store (marks ++ own)
  marks : Row b s.store 0 o.position (marks.map Child.node)
  row : Row b s.store o.position s.cursor.position (own.map Child.node)

/-- A production starts here, with roots that it was given. -/
def Begins (b : Site) (marks : List Child) (o : Origin) (s : State) : Prop :=
  o.position = s.cursor.position ∧ Holding b marks 0 [] o s

variable {marks own : List Child}

theorem Holding.less (h : Holding b marks used own o s) (hused : used' ≤ used) :
    Holding b marks used' own o s :=
  ⟨by have := h.used; omega, h.holds, h.marks, h.row⟩

theorem begins_origin (b : Site) (s : State) : Begins b [] s.origin s :=
  ⟨rfl, Nat.le_refl _, .nil (.refl _), trivial, trivial⟩

theorem counts_holding : Counts fun used => Holding b marks used own := by
  intro used o s s' h hstore hposition
  refine ⟨by have := h.used; omega, hstore ▸ h.holds, hstore ▸ h.marks, ?_⟩
  rw [hstore, hposition]
  exact h.row.mono (Nat.le_refl _) (Nat.le_succ _)

theorem keeps_advance (hkind : kind ≠ .eof) :
    Keeps b (fun o s => Holding b marks used own o s ∧ s.cursor.kind = kind) advance
      fun _ => Holding b marks (used + 1) own :=
  counts_holding.advance hkind

theorem keeps_symbol (sign : Symbol) :
    Keeps b (Holding b marks used own) (symbol sign) fun _ => Holding b marks (used + 1) own :=
  counts_holding.skipOver (by simp)

theorem keeps_keyword (word : Keyword) :
    Keeps b (Holding b marks used own) (keyword word) fun _ => Holding b marks (used + 1) own :=
  counts_holding.skipOver (by simp)

/-- A name that is passed is a token. -/
theorem keeps_ident : Keeps b (Holding b marks used own) ident fun name o s =>
    (∃ i j, FromTo b.tokens i j name.span) ∧ Holding b marks (used + 1) own o s := by
  refine keeps_current fun token => ?_
  obtain ⟨value, span⟩ := token
  cases value with
  | ident name =>
    have hname : Keeps b (fun o s => (∃ i j, FromTo b.tokens i j span) ∧
        Holding b marks used own o s ∧ s.cursor.kind = .ident)
        (do advance; return (⟨name, span⟩ : Located Ident)) fun name o s =>
          (∃ i j, FromTo b.tokens i j name.span) ∧ Holding b marks (used + 1) own o s :=
      .of_and fun hspan => (keeps_advance (by simp)).bind fun _ => keeps_pure fun _ _ hs =>
        ⟨hspan, hs⟩
    refine hname.of_pre fun o s hw hs => ?_
    have hcurrent := fromTo_self hw.traced.current
    rw [hs.2] at hcurrent
    exact ⟨⟨_, _, hcurrent⟩, hs.1, by rw [Cursor.kind, hs.2]; rfl⟩
  | _ => exact keeps_fail

/-- A name, where only what follows matters. -/
theorem keeps_ident_then {f : Located Ident → Parser β}
    (hf : ∀ name, Keeps b (Holding b marks (used + 1) own) (f name) post) :
    Keeps b (Holding b marks used own) (ident >>= f) post :=
  keeps_ident.bind fun name => .of_and fun _ => hf name

/-! ## Productions inside others -/

/-- A production inside another starts where that has come to. -/
theorem Keeps.inside (h : Keeps b (Begins b []) x mid) (hs : Sited b around o) (hw : Went b o s) :
    Ends x around s (fun a s' => Went b s.origin s' ∧ mid a s.origin s') (Went b s.origin) :=
  h s.origin around s (hs.origin hw) hw.traced.went (begins_origin b s)

/-- What was read before stands to the left. -/
theorem Holding.trans {own' : List Child} (h : Holding b marks used own o s)
    (h' : Holding b [] used' own' s.origin s') :
    Holding b marks (used + used') (own ++ own') o s' := by
  have hused := h.used
  have hused' : s.cursor.position + used' ≤ s'.cursor.position := h'.used
  have hretains := h'.holds.tidy.grown.retains
  refine ⟨by omega, ?_, h.marks.retain hretains, ?_⟩
  · rw [← List.append_assoc]
    exact h.holds.trans h'.holds
  · rw [List.map_append]
    exact (h.row.retain hretains).append h'.row (by omega) (by omega)

/-- Roots are added beside those that a production owns. -/
theorem Keeps.beside {fact : α → Prop} {own' : α → List Child}
    (h : Keeps b (Begins b []) x fun a o s => fact a ∧ Holding b [] used' (own' a) o s) :
    Keeps b (Holding b marks used own) x fun a o s =>
      fact a ∧ Holding b marks (used + used') (own ++ own' a) o s := by
  intro o around s hs hw hpre
  refine (h.inside hs hw).imp (fun a s' hpost => ?_) fun _ hlost => hw.trans hlost
  exact ⟨hw.trans hpost.1, hpost.2.1, hpre.trans hpost.2.2⟩

/-- A production adds a tree over the tokens that it passes, whose root is of one of some kinds. -/
def Plots (b : Site) (p : Parser NodeId) (kinds : List Kind) : Prop :=
  Keeps b (Begins b []) p fun id => Holding b [] 1 [.of kinds id]

theorem Plots.then {p : Parser NodeId} {f : NodeId → Parser β} {kinds : List Kind}
    (hp : Plots b p kinds)
    (hf : ∀ id, Keeps b (Holding b marks (used + 1) (own ++ [.of kinds id])) (f id) post) :
    Keeps b (Holding b marks used own) (p >>= f) post :=
  (Keeps.imp hp fun _ _ _ h => ⟨trivial, h⟩ : Keeps b (Begins b []) p fun id o s =>
    True ∧ Holding b [] 1 [.of kinds id] o s).beside.bind fun id => .of_and fun _ => hf id

theorem Holding.imp {id : NodeId} {kinds kinds' : List Kind}
    (h : Holding b [] used [.of kinds id] o s) (hkinds : ∀ kind ∈ kinds, kind ∈ kinds') :
    Holding b [] used [.of kinds' id] o s :=
  ⟨h.used, h.holds.imp hkinds, trivial, h.row⟩

theorem Plots.imp {p : Parser NodeId} {kinds kinds' : List Kind} (h : Plots b p kinds)
    (hkinds : kinds ⊆ kinds') : Plots b p kinds' :=
  Keeps.imp h fun _ _ _ h => h.imp fun _ hkind => hkinds hkind

/-- A production with the span of the tokens that it passes. -/
theorem keeps_mapped {rule : Parser α} (h : Keeps b (Begins b marks) rule fun a o s =>
      o.position < s.cursor.position ∧ mid a o s) :
    Keeps b (Begins b marks) (mapped rule) fun r o s =>
      FromTo b.tokens o.position (s.cursor.position - 1) r.span ∧ mid r.value o s := by
  intro o around s hs hw hpre
  have hcurrent := hw.traced.current
  rw [← hpre.1] at hcurrent
  rw [ends_mapped]
  have hsited : Sited b (some s.cursor.current.span.start) o := by
    intro start hstart
    cases hstart
    exact ⟨_, _, Nat.le_refl _, hcurrent, rfl⟩
  refine (h o _ s hsited hw hpre).imp (fun a s₁ hpost => ?_) fun _ h => h
  exact ⟨hpost.1, hpost.1.traced.fromTo_last hcurrent hpost.2.1, hpost.2.2⟩

/-! ## Adding nodes -/

/-- A node with a span is added that takes in roots. -/
theorem Went.build {held : List Child} {i j : Nat} (hw : Went b o s)
    (hholds : Holds o.store s.store (held ++ c.parts)) (hscope : ScopeFits s.store c)
    (hspan : FromTo b.tokens i j span) (hlaid : LaidOut b s.store i j c) :
    let s' := s.withStore (s.store.build c (some span)).2
    Went b o s' ∧ Holds o.store s'.store (held ++ [.of [c.kind] s.store.fresh]) ∧
      StandsOn b s'.store s.store.fresh i j := by
  have hbuilt := hholds.build hscope (some span)
  refine ⟨⟨⟨hw.traced.tokens, hw.traced.ended, ?_, hw.traced.settled.build hspan hlaid,
    hw.traced.notices⟩, hw.position, hbuilt.tidy⟩, hbuilt, Store.stands_build hw.traced.size hspan⟩
  exact Nat.le_trans hw.traced.size (by simp [State.withStore])

/-- A construct may be added over the tokens that a production has passed, more than `used` of
them: its attributes are the roots that the production was given, and its other children are those
that it has added. -/
structure Over (b : Site) (used : Nat) (c : Construct) (o : Origin) (s : State) : Prop where
  holding : ∃ own, c.parts = c.marks.map (.of [.attr]) ++ own ∧
    Holding b (c.marks.map (.of [.attr])) (used + 1) own o s
  spelt : c.SpeltBy b.tokens o.position (s.cursor.position - 1)
  scope : ScopeFits s.store c

theorem Over.position_lt (h : Over b used c o s) : o.position < s.cursor.position := by
  obtain ⟨own, -, hown⟩ := h.holding
  have := hown.used
  omega

theorem keeps_build :
    Keeps b (fun o s => FromTo b.tokens o.position (s.cursor.position - 1) span ∧ Over b used c o s)
      (build c (some span)) fun id o s =>
        StandsOn b s.store id o.position (s.cursor.position - 1) ∧
          Holding b [] (used + 1) [.of [c.kind] id] o s := by
  intro o around s hs hw hpre
  obtain ⟨hspan, hover⟩ := hpre
  obtain ⟨own, hparts, hown⟩ := hover.holding
  have hinner : own.map Child.node = c.inner := by
    have hchildren := Construct.map_node_parts c
    rw [hparts, List.map_append, List.map_map, Child.node_comp_of, List.map_id,
      Construct.children_eq] at hchildren
    exact List.append_cancel_left hchildren
  have hused := hown.used
  have hposition : s.cursor.position - 1 + 1 = s.cursor.position := by omega
  have hlaid : LaidOut b s.store o.position (s.cursor.position - 1) c := by
    refine ⟨?_, ?_, hover.spelt⟩
    · have hmarks := hown.marks
      rwa [List.map_map, Child.node_comp_of, List.map_id] at hmarks
    · rw [hposition, ← hinner]
      exact hown.row
  have hholds : Holds o.store s.store ([] ++ c.parts) := hparts ▸ hown.holds
  obtain ⟨hw', hholds', hstands⟩ := hw.build hholds hover.scope hspan hlaid
  refine ⟨hw', hstands, hused, hholds', trivial, .singleton hstands (Nat.le_refl _) ?_⟩
  change s.cursor.position - 1 < s.cursor.position
  omega

variable {kinds : List Kind}

/-- Such a construct takes in what its production has added. -/
theorem Holding.over (h : Holding b [] (used + 1) c.parts o s)
    (hplain : kinds.all Kind.isPlain = true) (hc : c.kind ∈ kinds) : Over b used c o s := by
  have hkind := List.all_eq_true.mp hplain _ hc
  cases c with
  | module m => cases hkind
  | block body => cases hkind
  | function f => cases hkind
  | external e => cases hkind
  | literal l => cases hkind
  | _ => exact ⟨⟨_, rfl, h⟩, trivial, trivial⟩

/-- A production that adds one node over all the tokens that it passes. -/
theorem keeps_node
    (h : Keeps b (Begins b []) rule fun c o s => c.kind ∈ kinds ∧ Over b used c o s) :
    Keeps b (Begins b []) (node rule) fun id o s =>
      StandsOn b s.store id o.position (s.cursor.position - 1) ∧
        Holding b [] (used + 1) [.of kinds id] o s := by
  refine (keeps_mapped (h.imp fun c o s hc => ⟨hc.2.position_lt, hc⟩)).bind fun r => ?_
  intro o around s hs hw hpre
  refine (keeps_build o around s hs hw ⟨hpre.1, hpre.2.2⟩).imp (fun id s' h => ?_) fun _ h => h
  exact ⟨h.1, h.2.1, h.2.2.imp fun kind hkind => List.mem_singleton.mp hkind ▸ hpre.2.1⟩

theorem plots_of_over
    (h : Keeps b (Begins b []) rule fun c o s => c.kind ∈ kinds ∧ Over b 0 c o s) :
    Plots b (node rule) kinds :=
  (keeps_node h).imp fun _ _ _ hid => hid.2

/-- What a production has read, with the children of its construct. -/
def Gathered (b : Site) (kinds : List Kind) (used : Nat) (c : Construct) (o : Origin)
    (s : State) : Prop :=
  c.kind ∈ kinds ∧ Holding b [] (used + 1) c.parts o s

theorem keeps_return {more : Nat} (hc : c.kind ∈ kinds) (hown : own = c.parts)
    (hused : used + 1 ≤ more) : Keeps b (Holding b [] more own) (pure c) (Gathered b kinds used) :=
  keeps_pure fun _ _ hs => ⟨hc, hown ▸ hs.less hused⟩

theorem keeps_node_plain (hplain : kinds.all Kind.isPlain = true)
    (h : Keeps b (Holding b [] 0 []) rule (Gathered b kinds used)) :
    Keeps b (Begins b []) (node rule) fun id o s =>
      StandsOn b s.store id o.position (s.cursor.position - 1) ∧
        Holding b [] (used + 1) [.of kinds id] o s :=
  keeps_node ((h.of_pre fun _ _ _ hs => hs.2).imp fun _ _ _ hc => ⟨hc.1, hc.2.over hplain hc.1⟩)

theorem plots_node (hplain : kinds.all Kind.isPlain = true)
    (h : Keeps b (Holding b [] 0 []) rule (Gathered b kinds 0)) : Plots b (node rule) kinds :=
  (keeps_node_plain hplain h).imp fun _ _ _ hid => hid.2

end Rules

/-! ## Expressions -/

theorem kind_ne_eof_of_literalOf? {negative : Bool} {t : Token} {l : Literal}
    (h : literalOf? negative t = some l) : t.kind ≠ .eof := by
  cases t with
  | eof => cases h
  | _ => simp [Token.kind]

/-- A sign has been passed where there is one, and nothing else. -/
structure Signed (b : Site) (negative : Bool) (o : Origin) (s : State) : Prop where
  holding : Holding b [] negative.toNat [] o s
  position : s.cursor.position = o.position + negative.toNat
  sign : negative = true → ∃ t, b.tokens[o.position]? = some t ∧ t.value = .symbol .minus

theorem keeps_sign : Keeps b (fun o s => Begins b [] o s ∧ s.cursor.kind = .symbol .minus) advance
    fun _ => Signed b true := by
  intro o around s hs hw hpre
  obtain ⟨⟨hposition, hholding⟩, hkind⟩ := hpre
  obtain ⟨hw', hmore⟩ := hw.advance (by simp [Cursor.hasNext, hkind])
  have hcurrent := hw.traced.current
  rw [← hposition] at hcurrent
  exact ⟨hw', counts_holding 0 o s _ hholding rfl hmore, by rw [hmore, hposition]; rfl,
    fun _ => ⟨_, hcurrent, Token.kind_eq_symbol.mp hkind⟩⟩

/-- A literal is what one token writes, or a minus sign and a token. -/
theorem plots_literal : Plots b literal [.literal] := by
  refine plots_of_over (keeps_isKind (keeps_sign.bind fun _ => (keeps_expect .integer).bind fun _ =>
    Keeps.of_pre (?_ : Keeps b (Signed b true) _ _) fun _ _ _ hs => hs.1)
    (Keeps.of_pre (?_ : Keeps b (Signed b false) _ _) fun _ _ _ hs => ⟨hs.2, hs.1.symm, by simp⟩))
  on_goal 2 => simp only [Bool.false_eq_true, if_false]
  all_goals
    intro o around s hs hw hpre
    rw [ends_of_eq current_bind]
    dsimp only
    split
    next l hl =>
      have hkind : s.cursor.kind ≠ .eof := kind_ne_eof_of_literalOf? hl
      obtain ⟨hw', hmore⟩ := hw.advance (by simpa [Cursor.hasNext] using hkind)
      have hcurrent := hw.traced.current
      rw [hpre.position] at hcurrent hmore
      refine ⟨hw', by simp [Construct.kind], ⟨[], rfl, ?_⟩, ?_, trivial⟩
      · exact (counts_holding _ o s s.advance hpre.holding rfl (by rw [hmore, hpre.position])).less
          (by omega)
      · rw [hmore]
        exact ⟨_, _, hcurrent, hl, rfl, hpre.sign⟩
    next => exact hw.fail hs _

section Lists

variable {rule : Parser NodeId} {kinds : List Kind} {used : Nat}

/-- Items separated by commas, where each is a tree. -/
theorem keeps_commaList (h : Plots b rule kinds) (n : Nat) (items : List NodeId) :
    Keeps b (Holding b [] used (items.map (.of kinds))) (commaList rule n items)
      fun ids => Holding b [] used (ids.map (.of kinds)) := by
  induction n generalizing items with
  | zero => exact keeps_pure fun _ _ hs => hs
  | succ n ih =>
    refine h.then fun id => ?_
    have hitems : items.map (Child.of kinds) ++ [.of kinds id] =
        (items ++ [id]).map (.of kinds) := by simp
    rw [hitems]
    refine keeps_isKind ?_ (keeps_pure fun _ _ hs => hs.less (by omega))
    exact (keeps_advance (by simp)).bind fun _ => (ih _).of_pre fun _ _ _ hs => hs.less (by omega)

theorem keeps_commaSeparated (h : Plots b rule kinds) (close : Symbol) :
    Keeps b (Holding b [] used []) (commaSeparated close rule)
      fun ids => Holding b [] (used + 1) (ids.map (.of kinds)) := by
  refine keeps_isKind (Keeps.of_pre ?_ fun _ _ _ hs => hs.1) (keeps_look (fun _ s => ⟨_, rfl⟩)
    fun n => (keeps_commaList h (n + 1) []).bind fun ids => ?_)
  all_goals exact (keeps_symbol close).bind fun _ => keeps_pure fun _ _ hs => hs

end Lists

section Expressions

variable {expression operand : Parser NodeId}

theorem plots_call (h : Plots b expression Kind.expressions) :
    Plots b (call expression) [.call] := by
  refine plots_node rfl (keeps_ident_then fun callee => (keeps_symbol _).bind fun _ => ?_)
  exact (keeps_commaSeparated h _).bind fun ids =>
    keeps_return (by simp [Construct.kind]) rfl (by omega)

theorem plots_reference : Plots b reference [.reference] :=
  plots_node rfl (keeps_ident_then fun _ => keeps_return (by simp [Construct.kind]) rfl (by omega))

/-- Parentheses belong to no node. -/
theorem plots_primary (h : Plots b expression Kind.expressions) :
    Plots b (primary expression) Kind.expressions := by
  have hliteral : Plots b literal Kind.expressions := plots_literal.imp (by decide)
  refine keeps_currentKind fun kind => ?_
  split
  · exact hliteral.of_pre fun _ _ _ hs => hs.1
  · exact hliteral.of_pre fun _ _ _ hs => hs.1
  · exact hliteral.of_pre fun _ _ _ hs => hs.1
  · exact hliteral.of_pre fun _ _ _ hs => hs.1
  · refine Keeps.of_pre (keeps_look (fun _ s => ⟨_, rfl⟩) fun opened => ?_) fun _ _ _ hs => hs.1
    split
    · exact (plots_call h).imp (by decide)
    · exact plots_reference.imp (by decide)
  · refine Keeps.of_pre (Keeps.bind (keeps_advance (by simp)) fun _ => h.then fun id => ?_)
      fun _ _ _ hs => ⟨hs.1.2, hs.2⟩
    exact (keeps_symbol .closeParen).bind fun _ => keeps_pure fun _ _ hs => hs.less (by omega)
  · exact keeps_fail

theorem kind_ne_eof_of_operatorOf? {kind : TokenKind} {op : Operator}
    (h : operatorOf? kind = some op) : kind ≠ .eof := by
  rintro rfl
  cases h

/-- Operators are taken in on the right of an operand that starts where the production does. -/
theorem keeps_operations (h : Plots b operand Kind.expressions) (n least : Nat)
    (t : Located Token) (lhs : NodeId) :
    Keeps b (fun o s => b.tokens[o.position]? = some t ∧
        Holding b [] 1 [.of Kind.expressions lhs] o s)
      (operations operand n least t.span.start lhs)
      fun id => Holding b [] 1 [.of Kind.expressions id] := by
  induction n generalizing least t lhs with
  | zero => exact keeps_pure fun _ _ hs => hs.2
  | succ n ih =>
    refine keeps_currentKind fun kind => ?_
    split
    · exact keeps_pure fun _ _ hs => hs.1.2
    next op hop =>
      split
      · exact keeps_pure fun _ _ hs => hs.1.2
      · intro o around s hs hw hpre
        obtain ⟨⟨ht, hlhs⟩, hkind⟩ := hpre
        obtain ⟨hw₁, hmore⟩ := hw.advance
          (by simpa [Cursor.hasNext, hkind] using kind_ne_eof_of_operatorOf? hop)
        have hlhs₁ := counts_holding 1 o s s.advance hlhs rfl hmore
        -- The right operand is a production of its own, behind the operator.
        rw [ends_of_eq advance_bind, ends_of_eq current_bind, ends_bind]
        refine (h.inside hs hw₁).imp (fun first s₂ hfirst => ?_) fun _ hlost => hw₁.trans hlost
        rw [ends_bind]
        refine (ih _ _ first s.advance.origin around s₂ (hs.origin hw₁) hfirst.1
          ⟨hw₁.traced.current, hfirst.2⟩).imp (fun rhs s₃ hrhs => ?_) fun _ hlost => hw₁.trans hlost
        have hw₃ := hw₁.trans hrhs.1
        have hboth : Holding b [] _ [.of Kind.expressions lhs, .of Kind.expressions rhs] o s₃ :=
          hlhs₁.trans hrhs.2
        have hused := hboth.used
        have hover : Over b 0 (.binary ⟨op, lhs, rhs⟩) o s₃ :=
          (hboth.less (by omega)).over (show [Kind.binary].all Kind.isPlain = true from rfl)
            (by simp [Construct.kind])
        rw [ends_of_eq lastSpan_bind, ends_bind]
        refine (keeps_build o around s₃ hs hw₃ ⟨hw₃.traced.fromTo_last ht (by omega), hover⟩).imp
          (fun whole s₄ hwhole => ?_) fun _ hlost => hlost
        refine ih least t whole o around s₄ hs hwhole.1 ⟨ht, hwhole.2.2.imp ?_⟩
        simp [Construct.kind, Kind.expressions]

theorem plots_operands (h : Plots b operand Kind.expressions) :
    Plots b (operands operand) Kind.expressions := by
  intro o around s hs hw hpre
  rw [operands, ends_of_eq current_bind, ends_bind]
  refine (h o around s hs hw hpre).imp (fun first s₁ hfirst => ?_) fun _ hlost => hlost
  rw [ends_of_eq tokensAhead_bind]
  have hcurrent := hw.traced.current
  rw [← hpre.1] at hcurrent
  exact keeps_operations h _ 0 _ first o around s₁ hs hfirst.1 ⟨hcurrent, hfirst.2⟩

end Expressions

theorem plots_expression (room : Nat) : Plots b (expression room) Kind.expressions := by
  induction room with
  | zero => exact keeps_fail
  | succ room ih => exact plots_operands (plots_primary ih)

/-! ## Statements -/

theorem kind_ne_eof_of_typeOf? {t : Token} {type : TypeRef} (h : typeOf? t = some type) :
    t.kind ≠ .eof := by
  cases t with
  | eof => cases h
  | _ => simp [Token.kind]

theorem plots_typeRef : Plots b typeRef [.typeRef] := by
  refine plots_node rfl (keeps_current fun token => ?_)
  dsimp only
  split
  next type htype =>
    refine Keeps.of_pre (Keeps.bind (keeps_advance (kind_ne_eof_of_typeOf? htype)) fun _ => ?_)
      fun _ _ _ hs => ⟨hs.1, congrArg (·.value.kind) hs.2⟩
    exact keeps_return (by simp [Construct.kind]) rfl (by omega)
  next => exact keeps_fail

section Statements

variable {block expression : Parser NodeId} (h : Plots b expression Kind.expressions)
include h

theorem plots_variableDecl : Plots b (variableDecl expression) [.varDecl] := by
  refine plots_node rfl (keeps_isKind ((keeps_advance (by simp)).bind fun _ => ?_)
    (plots_typeRef.then fun type => ?_))
  all_goals
    refine keeps_ident_then fun name => ?_
    refine (keeps_symbol _).bind fun _ => ?_
    refine h.then fun value => ?_
    refine (keeps_symbol _).bind fun _ => ?_
    exact keeps_return (by simp [Construct.kind]) rfl (by omega)

theorem plots_returnStatement : Plots b (returnStatement expression) [.ret] := by
  refine plots_node rfl ((keeps_keyword _).bind fun _ => keeps_isKind
    (Keeps.of_pre ?_ fun _ _ _ hs => hs.1) (h.then fun value => ?_))
  all_goals exact (keeps_symbol _).bind fun _ =>
    keeps_return (by simp [Construct.kind]) rfl (by omega)

theorem plots_expressionStatement : Plots b (expressionStatement expression) [.exprStatement] :=
  plots_node rfl (h.then fun _ => (keeps_symbol _).bind fun _ =>
    keeps_return (by simp [Construct.kind]) rfl (by omega))

theorem plots_statement (hblock : Plots b block [.block]) :
    Plots b (statement block expression) Kind.statements := by
  have hdecl : Plots b (variableDecl expression) Kind.statements :=
    (plots_variableDecl h).imp (by decide)
  have hexpr : Plots b (expressionStatement expression) Kind.statements :=
    (plots_expressionStatement h).imp (by decide)
  refine keeps_look (fun _ s => ⟨_, rfl⟩) fun kind => ?_
  split
  · exact hblock.imp (by decide)
  · exact (plots_returnStatement h).imp (by decide)
  · exact hdecl
  · exact hdecl
  · refine keeps_look (fun _ s => ⟨_, rfl⟩) fun typed => ?_
    split
    · exact hdecl
    · exact hexpr
  · exact hexpr

end Statements

/-! ## Blocks -/

/-- An open node holds nodes over the tokens that were passed, `used` of them at least. -/
structure OpenAt (b : Site) (kind : Kind) (used : Nat) (id : NodeId) (o : Origin) (s : State) :
    Prop where
  used : o.position + used ≤ s.cursor.position
  holds : Holds o.store s.store [⟨id, [kind], false⟩]
  opened : ∃ c, Open b s.store o.position s.cursor.position id c

/-- A root has been added that an open node may take in. -/
structure Offered (b : Site) (kind : Kind) (used : Nat) (id : NodeId) (kinds : List Kind)
    (child : NodeId) (o : Origin) (s : State) : Prop where
  used : o.position + used ≤ s.cursor.position
  holds : Holds o.store s.store [⟨id, [kind], false⟩, .of kinds child]
  opened : ∃ k c, k ≤ s.cursor.position ∧ Open b s.store o.position k id c ∧
    Row b s.store o.position s.cursor.position (c.children ++ [child])

section Open

variable {kind : Kind} {kinds : List Kind} {used : Nat} {id child : NodeId} {c : Construct}

theorem OpenAt.less {used' : Nat} (h : OpenAt b kind used id o s) (hused : used' ≤ used) :
    OpenAt b kind used' id o s :=
  ⟨by have := h.used; omega, h.holds, h.opened⟩

theorem OpenAt.moved (h : OpenAt b kind used id o s) (hstore : s'.store = s.store)
    (hposition : s.cursor.position ≤ s'.cursor.position) : OpenAt b kind used id o s' := by
  obtain ⟨hused, hholds, c, hopen⟩ := h
  refine ⟨by omega, hstore ▸ hholds, c, hstore ▸ ⟨hopen.new, hopen.body, hopen.holder, ?_⟩⟩
  exact hopen.row.mono (Nat.le_refl _) hposition

theorem counts_openAt : Counts fun used => OpenAt b kind used id := by
  intro used o s s' h hstore hposition
  obtain ⟨-, hholds, hopened⟩ := h.moved hstore (by omega)
  exact ⟨by have := h.used; omega, hholds, hopened⟩

/-- What a production inside leaves behind when it fails is not in the open node. -/
theorem OpenAt.went (h : OpenAt b kind used id o s) (hw : Went b s.origin s') :
    OpenAt b kind used id o s' := by
  obtain ⟨hused, hholds, c, hopen⟩ := h
  have hposition : s.cursor.position ≤ s'.cursor.position := hw.position
  refine ⟨by omega, hholds.trans (.nil hw.tidy), c, hopen.new,
    hw.tidy.grown.body?_eq hopen.body, hopen.holder, ?_⟩
  exact (hopen.row.retain hw.tidy.grown.retains).mono (Nat.le_refl _) hposition

/-- A root that is added while a node is open is offered to it. -/
theorem OpenAt.offered (h : OpenAt b kind used id o s)
    (hchild : Holding b [] 1 [.of kinds child] s.origin s') :
    Offered b kind used id kinds child o s' := by
  obtain ⟨hused, hholds, c, hopen⟩ := h
  have hmore : s.cursor.position + 1 ≤ s'.cursor.position := hchild.used
  have hgrown := hchild.holds.tidy.grown
  have hrow := hopen.row.retain hgrown.retains
  refine ⟨by omega, hholds.trans hchild.holds, s.cursor.position, c, by omega,
    ⟨hopen.new, hgrown.body?_eq hopen.body, hopen.holder, hrow⟩, ?_⟩
  exact hrow.append hchild.row (by omega) (by omega)

theorem Offered.openAt (h : Offered b kind used id kinds child o s) :
    OpenAt b kind used id o s := by
  obtain ⟨hused, hholds, k, c, hk, hopen, -⟩ := h
  have hfirst : Holds o.store s.store ([⟨id, [kind], false⟩] ++ [.of kinds child]) := hholds
  exact ⟨hused, hfirst.left, c, hopen.new, hopen.body, hopen.holder,
    hopen.row.mono (Nat.le_refl _) hk⟩

/-- The node takes in what it is offered. -/
theorem Went.take {k : Nat} (c' : Construct) (hw : Went b o s)
    (hused : o.position + used ≤ s.cursor.position) (hopen : Open b s.store o.position k id c)
    (hholder : c'.IsHolder) (hrow : Row b s.store o.position s.cursor.position c'.children)
    (hholds : Holds o.store ((s.store.put id c').setParent child id) [⟨id, [kind], false⟩]) :
    let s' := s.withStore ((s.store.put id c').setParent child id)
    Went b o s' ∧ OpenAt b kind used id o s' := by
  refine ⟨⟨⟨hw.traced.tokens, hw.traced.ended, ?_,
    (hopen.settled_put c' hw.traced.settled).setParent _ _, hw.traced.notices⟩, hw.position,
    hholds.tidy⟩, hused, hholds, c', hopen.take hholder hrow⟩
  simpa [State.withStore, Store.put] using hw.traced.size

theorem get?_of_body? {store : Store} {span : Option Span} (h : store.body? id = some (c, span)) :
    ∃ parent, store.get? id = some ⟨c, parent, span⟩ := by
  obtain ⟨⟨c', parent, span'⟩, hn, heq⟩ := Option.map_eq_some_iff.mp h
  cases heq
  exact ⟨parent, hn⟩

/-- A block takes in a statement, or the run fails. -/
theorem keeps_append (block statement : NodeId) :
    Keeps b (Offered b .block used block Kind.statements statement) (append block statement)
      fun _ => OpenAt b .block used block := by
  intro o around s hs hw hpre
  obtain ⟨hused, hholds, k, c, hk, hopen, hrow⟩ := hpre
  rw [append, ends_of_eq get_bind]
  dsimp only
  split
  · -- The notice is about the statement, which has a span.
    have hmem : statement ∈ c.children ++ [statement] := by simp
    obtain ⟨i, j, -, -, -, c', span, hbody, hspan⟩ := hrow.of_mem hmem
    obtain ⟨parent, hget⟩ := get?_of_body? hbody
    rw [hget]
    exact hw.record ⟨i, j, hspan⟩
  · have hextended : Holds o.store (s.store.extend block statement)
        ([] ++ [⟨block, [.block], false⟩]) := Holds.extend hholds
    obtain ⟨-, n, hn, -, hkind, -⟩ := hholds.stands ⟨block, [.block], false⟩ (by simp)
    obtain ⟨parent, hget⟩ := get?_of_body? hopen.body
    obtain rfl := Option.some.inj (hn.symm.trans hget)
    cases c with
    | block body =>
      rw [Store.extend, hget] at hextended ⊢
      exact hw.take _ hused hopen trivial hrow hextended
    | _ => simp [Node.kind, Construct.kind] at hkind

theorem keeps_statements {rule : Parser NodeId} (h : Plots b rule Kind.statements)
    (block : NodeId) (n : Nat) : Keeps b (OpenAt b .block used block) (statements rule block n)
      fun _ => OpenAt b .block used block := by
  induction n with
  | zero => exact keeps_pure fun _ _ hs => hs
  | succ n ih =>
    have hrule : Keeps b (OpenAt b .block used block) rule
        (Offered b .block used block Kind.statements) := by
      intro o around s hs hw hpre
      refine (h.inside hs hw).imp (fun id s' hpost => ?_) fun _ hlost => hw.trans hlost
      exact ⟨hw.trans hpost.1, hpre.offered hpost.2⟩
    refine keeps_isKind (keeps_pure fun _ _ hs => hs.1) ?_
    exact hrule.bind fun statement => (keeps_append block statement).bind fun _ => ih

/-- An open node is added. -/
theorem keeps_buildOpen (hholder : c.IsHolder) (hempty : c.parts = [])
    (hscope : ∀ s, ScopeFits s c) : Keeps b (Holding b [] used []) (build c none)
      fun id => OpenAt b c.kind used id := by
  intro o around s hs hw hpre
  have hholds : Holds o.store s.store ([] ++ c.parts) := hempty ▸ hpre.holds
  have hbuilt := hholds.build (hscope _) none
  have hchildren : c.children = [] := by rw [← Construct.map_node_parts, hempty]; rfl
  refine ⟨⟨⟨hw.traced.tokens, hw.traced.ended, ?_, hw.traced.settled.buildOpen,
    hw.traced.notices⟩, hw.position, hbuilt.tidy⟩, hpre.used, hbuilt, c,
    Store.open_build hw.traced.size hholder hchildren⟩
  exact Nat.le_trans hw.traced.size (by simp [State.withStore])

/-- An open node gets its span when it is complete. -/
theorem keeps_setSpan {span : Span} : Keeps b (fun o s =>
      FromTo b.tokens o.position (s.cursor.position - 1) span ∧ OpenAt b kind 1 id o s)
      (setSpan id span) fun _ => Holding b [] 1 [.of [kind] id] := by
  intro o around s hs hw hpre
  obtain ⟨hspan, hused, hholds, c, hopen⟩ := hpre
  have hposition : s.cursor.position = s.cursor.position - 1 + 1 := by omega
  have hopen' := hopen
  rw [hposition] at hopen'
  have hspanned : Holds o.store (s.store.setSpan id span) ([] ++ [.of [kind] id]) :=
    Holds.setSpan hholds span
  refine ⟨⟨⟨hw.traced.tokens, hw.traced.ended, ?_, hopen'.settled_setSpan hw.traced.settled hspan,
    hw.traced.notices⟩, hw.position, hspanned.tidy⟩, hused, hspanned, trivial, ?_⟩
  · simpa [State.withStore, Store.setSpan] using hw.traced.size
  · refine .singleton (hopen'.stands_setSpan hspan) (Nat.le_refl _) ?_
    change s.cursor.position - 1 < s.cursor.position
    omega

/-- A node is open from its opening brace on, and has a span from its closing brace on. -/
theorem keeps_closed {rule : Parser α} (node : α → NodeId)
    (h : Keeps b (Holding b [] 0 []) rule fun a => OpenAt b kind 1 (node a)) :
    Keeps b (Begins b []) (mapped rule) fun r o s =>
      FromTo b.tokens o.position (s.cursor.position - 1) r.span ∧
        OpenAt b kind 1 (node r.value) o s :=
  keeps_mapped ((h.of_pre fun _ _ _ hs => hs.2).imp fun _ _ _ hs =>
    ⟨by have := hs.used; omega, hs⟩)

end Open

/-- A block is a root from its opening brace on, and has a span from its closing brace on. -/
theorem plots_braces {rule : Parser NodeId} (h : Plots b rule Kind.statements) :
    Plots b (braces rule) [.block] := by
  refine (keeps_closed id ?_).bind fun r => keeps_setSpan.bind fun _ => keeps_pure fun _ _ hs => hs
  refine (keeps_symbol _).bind fun _ => ?_
  refine (keeps_buildOpen (c := .emptyBlock) trivial rfl fun _ => rfl).bind fun block => ?_
  refine keeps_look (fun _ s => ⟨_, rfl⟩) fun n => (keeps_statements h block (n + 1)).bind
    fun _ => (counts_openAt.skipOver (by simp)).bind fun _ => ?_
  exact keeps_pure fun _ _ hs => hs.less (by omega)

theorem plots_block (room : Nat) : Plots b (block room) [.block] := by
  induction room with
  | zero => exact keeps_fail
  | succ room ih => exact plots_braces (plots_statement (plots_expression room) ih)

/-! ## Declarations -/

/-- A production that declares a name adds a tree over the tokens that it passes. -/
def Declares (b : Site) (marks : List Child) (p : Parser Declared) (kinds : List Kind) : Prop :=
  Keeps b (Begins b marks) p fun d o s =>
    (∃ i j, FromTo b.tokens i j d.span) ∧ Holding b [] 1 [.of kinds d.node] o s

/-- The types of arguments or fields are roots until the list is complete. -/
def typeParts (scope : Scope) : List Child := scope.nodes.map (.of [.typeRef])

theorem typeParts_insert {scope scope' : Scope} {name : Ident} {id : NodeId}
    (h : scope.insert name id = .ok scope') :
    typeParts scope ++ [.of [.typeRef] id] = typeParts scope' := by
  obtain ⟨-, rfl⟩ := Scope.insert_eq_ok_iff.mp h
  simp [typeParts]

section Declarations

variable {kinds : List Kind} {marks own : List Child} {used : Nat}

theorem declares_declaring {rule : Parser (Ident × Construct)}
    (h : Keeps b (Begins b marks) rule fun r o s => r.2.kind ∈ kinds ∧ Over b 0 r.2 o s) :
    Declares b marks (declaring rule) kinds := by
  refine (keeps_mapped (h.imp fun r o s hr => ⟨hr.2.position_lt, hr⟩)).bind fun r => ?_
  intro o around s hs hw hpre
  refine ends_bind.mpr ((keeps_build o around s hs hw ⟨hpre.1, hpre.2.2⟩).imp
    (fun id s' hid => ?_) fun _ h => h)
  exact ⟨hid.1, ⟨_, _, hpre.1⟩,
    hid.2.2.imp fun kind hkind => List.mem_singleton.mp hkind ▸ hpre.2.1⟩

/-- A declaration without attributes. -/
theorem declares_plain {rule : Parser (Ident × Construct)} (hplain : kinds.all Kind.isPlain = true)
    (h : Keeps b (Holding b [] 0 []) rule fun r => Gathered b kinds 0 r.2) :
    Declares b [] (declaring rule) kinds :=
  declares_declaring ((h.of_pre fun _ _ _ hs => hs.2).imp fun _ _ _ hc =>
    ⟨hc.1, hc.2.over hplain hc.1⟩)

theorem Declares.imp {p : Parser Declared} {kinds' : List Kind} (h : Declares b marks p kinds)
    (hkinds : kinds ⊆ kinds') : Declares b marks p kinds' :=
  Keeps.imp h fun _ _ _ hd => ⟨hd.1, hd.2.imp fun _ hkind => hkinds hkind⟩

theorem keeps_argumentList (function : Ident) (n : Nat) (scope : Scope) :
    Keeps b (Holding b [] used (typeParts scope)) (argumentList function n scope)
      fun a => Holding b [] used (typeParts a.scope) := by
  induction n generalizing scope with
  | zero => exact keeps_pure fun _ _ hs => hs
  | succ n ih =>
    refine keeps_isKind ?_ ?_
    · exact (keeps_advance (by simp)).bind fun _ => keeps_pure fun _ _ hs => hs.less (by omega)
    · refine plots_typeRef.then fun type => keeps_ident.bind fun name => .of_and fun hname => ?_
      split
      · exact keeps_failAt hname
      next scope' hinsert =>
        rw [typeParts_insert hinsert]
        refine keeps_isKind ?_ (keeps_pure fun _ _ hs => hs.less (by omega))
        exact (keeps_advance (by simp)).bind fun _ => (ih scope').of_pre
          fun _ _ _ hs => hs.less (by omega)

/-- The parentheses are two tokens at least. -/
theorem keeps_arguments (function : Ident) : Keeps b (Begins b []) (arguments function)
    fun id o s => StandsOn b s.store id o.position (s.cursor.position - 1) ∧
      Holding b [] 2 [.of [.arguments] id] o s := by
  refine keeps_node_plain rfl ?_
  refine (keeps_symbol _).bind fun _ => ?_
  refine keeps_isKind (Keeps.of_pre ?_ fun _ _ _ hs => hs.1) ?_
  · refine (keeps_symbol _).bind fun _ => ?_
    exact keeps_return (by simp [Construct.kind]) rfl (by omega)
  · refine keeps_look (fun _ s => ⟨_, rfl⟩) fun n => ?_
    refine (keeps_argumentList function (n + 1) .empty).bind fun list => ?_
    refine (keeps_symbol _).bind fun _ => ?_
    exact keeps_return (by simp [Construct.kind]) rfl (by omega)

/-- Where no type is written, the closing parenthesis has that part. -/
theorem keeps_returnType (list : NodeId) : Keeps b (fun o s =>
      StandsOn b s.store list o.position (s.cursor.position - 1) ∧
        Holding b [] 2 [.of [.arguments] list] o s) returnType
      fun id => Holding b [] 2 [.of [.arguments] list, .of [.typeRef] id] := by
  refine keeps_isKind ?_ ?_
  · refine Keeps.of_pre (Keeps.bind (keeps_advance (by simp)) fun _ => ?_)
      fun _ _ _ hs => ⟨hs.1.2, hs.2⟩
    refine (Keeps.imp plots_typeRef fun _ _ _ h => ⟨trivial, h⟩ : Keeps b (Begins b []) typeRef
      fun id o s => True ∧ Holding b [] 1 [.of [.typeRef] id] o s).beside.imp fun _ _ _ hs => ?_
    exact hs.2.less (by omega)
  · intro o around s hs hw hpre
    obtain ⟨harguments, hholding⟩ := hpre
    have hused := hholding.used
    obtain ⟨t, hlast, hspan⟩ := hw.traced.last (by omega)
    rw [if_neg (by simp), ends_of_eq lastSpan_bind, hspan]
    have hbefore : Holds o.store s.store ([.of [.arguments] list] ++
        (Construct.typeRef (.known (.prim .void))).parts) := hholding.holds
    obtain ⟨hw', hholds, hvoid⟩ := hw.build hbefore trivial (fromTo_self hlast)
      ⟨trivial, trivial, trivial⟩
    have hlast : s.cursor.position - 1 < s.cursor.position := by omega
    -- The closing parenthesis stands further right than the opening one.
    exact ⟨hw', hused, hholds, trivial, _, _, Nat.le_refl _, hlast,
      harguments.retain (Store.retains_build _ _ _), .singleton hvoid (by omega) hlast⟩

theorem declares_prototype : Declares b [] prototype [.prototype] := by
  refine declares_plain rfl (keeps_ident_then fun name => ?_)
  refine (Keeps.beside (?_ : Keeps b _ _ fun (r : Ident × Construct) o s =>
    r.2.kind ∈ [Kind.prototype] ∧ Holding b [] 2 r.2.parts o s)).imp
      fun r o s hs => ⟨hs.1, hs.2.less (by omega)⟩
  exact (keeps_arguments name.value).bind fun list => (keeps_returnType list).bind fun result =>
    keeps_pure fun _ _ hs => ⟨by simp [Construct.kind], hs⟩

/-- A prototype and what follows it, in a declaration that may have attributes. -/
theorem keeps_prototype_then {f : Declared → Parser β} {post : β → Origin → State → Prop}
    (hf : ∀ d, Keeps b (Holding b marks (used + 1) (own ++ [.of [.prototype] d.node])) (f d) post) :
    Keeps b (Holding b marks used own) (prototype >>= f) post :=
  declares_prototype.beside.bind fun d => .of_and fun _ => hf d

theorem declares_function (room : Nat) (attributes : List NodeId) :
    Declares b (attributes.map (.of [.attr])) (function room attributes) Kind.items := by
  refine declares_declaring (Keeps.of_pre ?_ fun _ _ _ hs => hs.2)
  refine (keeps_keyword _).bind fun _ => ?_
  refine keeps_prototype_then fun d => ?_
  refine (plots_block room).then fun body => ?_
  refine keeps_pure fun o s hs => ?_
  exact ⟨by simp [Construct.kind, Kind.items], ⟨_, rfl, hs.less (by omega)⟩, trivial, trivial⟩

theorem declares_external (attributes : List NodeId) :
    Declares b (attributes.map (.of [.attr])) (external attributes) Kind.items := by
  refine declares_declaring (Keeps.of_pre ?_ fun _ _ _ hs => hs.2)
  refine (keeps_keyword _).bind fun _ => ?_
  refine (keeps_keyword _).bind fun _ => ?_
  refine keeps_prototype_then fun d => ?_
  refine (keeps_symbol _).bind fun _ => ?_
  refine keeps_pure fun o s hs => ?_
  exact ⟨by simp [Construct.kind, Kind.items], ⟨_, rfl, hs.less (by omega)⟩, trivial, trivial⟩

theorem declares_global : Declares b [] global [.global] := by
  refine declares_plain rfl ?_
  refine (keeps_keyword _).bind fun _ => ?_
  refine plots_typeRef.then fun type => ?_
  refine keeps_ident_then fun name => ?_
  refine keeps_isKind ?_ ?_
  · -- The value that is written is a child of the node too.
    refine (keeps_advance (by simp)).bind fun _ => ?_
    refine plots_literal.then fun value => ?_
    refine (keeps_symbol _).bind fun _ => ?_
    exact keeps_pure fun o s hs => ⟨by simp [Construct.kind], hs.less (by omega)⟩
  · refine (keeps_symbol _).bind fun _ => ?_
    exact keeps_pure fun o s hs => ⟨by simp [Construct.kind], hs.less (by omega)⟩

theorem keeps_fields (owner : Ident) (n : Nat) (scope : Scope) :
    Keeps b (Holding b [] used (typeParts scope)) (fields owner n scope)
      fun scope => Holding b [] used (typeParts scope) := by
  induction n generalizing scope with
  | zero => exact keeps_pure fun _ _ hs => hs
  | succ n ih =>
    refine keeps_isKind (keeps_pure fun _ _ hs => hs.1) ?_
    refine plots_typeRef.then fun type => keeps_ident.bind fun name => .of_and fun hname =>
      (keeps_symbol _).bind fun _ => ?_
    split
    · exact keeps_failAt hname
    next scope' hinsert =>
      rw [typeParts_insert hinsert]
      exact (ih scope').of_pre fun _ _ _ hs => hs.less (by omega)

theorem declares_struct : Declares b [] struct [.struct] := by
  refine declares_plain rfl ?_
  refine (keeps_keyword _).bind fun _ => ?_
  refine keeps_ident_then fun name => ?_
  refine (keeps_symbol _).bind fun _ => ?_
  refine keeps_look (fun _ s => ⟨_, rfl⟩) fun n => ?_
  refine Keeps.bind (keeps_fields name.value (n + 1) .empty) fun scope => ?_
  refine (keeps_symbol _).bind fun _ => ?_
  exact keeps_pure fun o s hs => ⟨by simp [Construct.kind], hs.less (by omega)⟩

theorem keeps_attributes (n : Nat) (read : List NodeId) :
    Keeps b (Holding b [] used (read.map (.of [.attr]))) (attributes n read)
      fun ids => Holding b [] used (ids.map (.of [.attr])) := by
  induction n generalizing read with
  | zero => exact keeps_pure fun _ _ hs => hs
  | succ n ih =>
    have hone : Plots b (node do symbol .atSign; return .attr (← ident).value) [.attr] :=
      plots_node rfl ((keeps_symbol _).bind fun _ => keeps_ident_then fun _ =>
        keeps_return (by simp [Construct.kind]) rfl (by omega))
    refine keeps_isKind (Keeps.of_pre (hone.then fun one => ?_) fun _ _ _ hs => hs.1)
      (keeps_pure fun _ _ hs => hs)
    have hread : read.map (Child.of [.attr]) ++ [.of [.attr] one] =
        (read ++ [one]).map (.of [.attr]) := by simp
    rw [hread]
    exact (ih _).of_pre fun _ _ _ hs => hs.less (by omega)

/-- The attributes stand before the declaration. -/
theorem declares_declaration (room : Nat) : Declares b [] (declaration room) Kind.items := by
  refine keeps_look (fun _ s => ⟨_, rfl⟩) fun n => ?_
  refine Keeps.bind ((keeps_attributes (n + 1) []).of_pre fun _ _ _ hs => hs.2)
    fun attributes => ?_
  have hmarked : ∀ {p : Parser Declared}, Declares b (attributes.map (.of [.attr])) p Kind.items →
      Keeps b (Holding b [] 0 (attributes.map (.of [.attr]))) p fun d o s =>
        (∃ i j, FromTo b.tokens i j d.span) ∧ Holding b [] 1 [.of Kind.items d.node] o s := by
    intro p h o around s hs hw hpre
    have hle : o.position ≤ s.cursor.position := hw.position
    have hmarks : Begins b (attributes.map (.of [.attr])) ⟨o.store, s.cursor.position⟩ s :=
      ⟨rfl, Nat.le_refl _, by simpa using hpre.holds,
        hpre.row.mono (Nat.zero_le _) (Nat.le_refl _), trivial⟩
    refine (h ⟨o.store, s.cursor.position⟩ around s (hs.origin hw)
      ⟨hw.traced, Nat.le_refl _, hw.tidy⟩ hmarks).imp (fun d s' hd => ?_) fun s' hlost => ?_
    · obtain ⟨hw', hspan, hused, hholds, -, hrow⟩ := hd
      exact ⟨⟨hw'.traced, Nat.le_trans hle hw'.position, hw'.tidy⟩, hspan,
        Nat.le_trans (Nat.add_le_add_right hle 1) hused, hholds, trivial,
        hrow.mono hle (Nat.le_refl _)⟩
    · exact ⟨hlost.traced, Nat.le_trans hle hlost.position, hlost.tidy⟩
  refine keeps_look (fun _ s => ⟨_, rfl⟩) fun found => ?_
  split
  · exact hmarked (declares_function room attributes)
  · exact hmarked (declares_external attributes)
  · split
    · exact keeps_fail
    next hnone =>
      obtain rfl : attributes = [] := by simpa using hnone
      split
      · exact hmarked (declares_global.imp (by decide))
      · exact hmarked (declares_struct.imp (by decide))
      · exact keeps_fail

end Declarations

/-! ## Modules -/

section Modules

variable {used : Nat} {module : NodeId}

/-- A module takes in an item, or a notice is about it. -/
theorem keeps_register (item : Declared) (hspan : ∃ i j, FromTo b.tokens i j item.span) :
    Keeps b (Offered b .module used module Kind.items item.node) (register module item)
      fun _ => OpenAt b .module used module := by
  intro o around s hs hw hpre
  rw [register, ends_of_eq get_bind]
  dsimp only
  split
  · obtain ⟨hused, hholds, hopened⟩ := hpre.openAt
    exact ⟨hw.record hspan, hused, hholds, hopened⟩
  · obtain ⟨hused, hholds, k, c, hk, hopen, hrow⟩ := hpre
    have henlisted : Holds o.store (s.store.enlist module item.name item.node)
        ([] ++ [⟨module, [.module], false⟩]) := Holds.enlist item.name hholds
    obtain ⟨-, n, hn, -, hkind, -⟩ := hholds.stands ⟨module, [.module], false⟩ (by simp)
    obtain ⟨parent, hget⟩ := get?_of_body? hopen.body
    obtain rfl := Option.some.inj (hn.symm.trans hget)
    cases c with
    | module m =>
      rw [Store.enlist, hget] at henlisted ⊢
      obtain ⟨⟨ht, hle, htidy⟩, hopenAt⟩ := hw.take (.module { m with
          items := m.items ++ [item.node], scope := m.scope.append item.name item.node })
        hused hopen trivial hrow henlisted
      exact ⟨⟨⟨ht.tokens, ht.ended, ht.size, ht.settled, ht.notices⟩, hle, htidy⟩,
        hopenAt.used, hopenAt.holds, hopenAt.opened⟩
    | _ => simp [Node.kind, Construct.kind] at hkind

/-- Recovery goes forward. -/
theorem keeps_synchronize (start depth : Nat) :
    Keeps b (OpenAt b .module used module) (synchronize start depth)
      fun _ => OpenAt b .module used module := by
  intro o around s hs hw hpre
  obtain ⟨s', read, hrun, hmoved, -, hstore, hnotices⟩ :=
    synchronize_eq around start depth hw.traced.ended
  rw [ends_of_ok hrun]
  exact ⟨hw.moved hmoved hstore hnotices,
    hpre.moved hstore (by rw [hmoved.position_eq]; omega)⟩

theorem keeps_expectMore {pre : Origin → State → Prop} (kind : TokenKind) :
    Keeps b pre (expectMore kind) fun _ => pre := by
  intro o around s hs hw hpre
  rw [expectMore, ends_of_eq get_bind]
  split
  · exact ⟨hw, hpre⟩
  · exact ((keeps_expect kind).imp fun _ _ _ h => h.1) o around s hs hw hpre

/-- Declarations that fail leave the items of the module alone. -/
theorem keeps_declarations (room depth n : Nat) (attempted : Bool) :
    Keeps b (OpenAt b .module used module) (declarations room module depth n attempted)
      fun _ => OpenAt b .module used module := by
  induction n generalizing attempted with
  | zero => exact keeps_pure fun _ _ hs => hs
  | succ n ih =>
    refine keeps_isKind (keeps_pure fun _ _ hs => hs.1) ?_
    refine (keeps_expectMore _).bind fun _ => keeps_look (fun _ s => ⟨_, rfl⟩) fun s₀ => ?_
    intro o around s hs hw hpre
    have hdeclaration := (declares_declaration room).inside hs hw
    rw [Ends, attempt_bind]
    cases hrun : outcome (declaration room) around s with
    | ok item s₁ =>
      obtain ⟨hw₁, hspan, hitem⟩ := hdeclaration.of_ok hrun
      exact ((keeps_register item hspan).bind fun _ => ih true) o around s₁ hs (hw.trans hw₁)
        (hpre.offered hitem)
    | error marker s₁ =>
      have hw₁ := hdeclaration.of_error hrun
      exact ((keeps_synchronize _ _).bind fun _ => ih true) o around s₁ hs (hw.trans hw₁)
        (hpre.went hw₁)

end Modules

theorem plots_moduleDecl (room : Nat) : Plots b (moduleDecl room) [.module] := by
  refine (keeps_closed Prod.fst (?_ : Keeps b _ _ fun (r : NodeId × _) =>
    OpenAt b .module 1 r.1)).bind fun r => ?_
  · refine (keeps_keyword _).bind fun _ => ?_
    refine keeps_ident_then fun name => ?_
    refine (keeps_symbol _).bind fun _ => ?_
    refine (keeps_buildOpen (c := .emptyModule name.value) trivial rfl fun _ => rfl).bind
      fun module => ?_
    refine keeps_look (fun _ s => ⟨_, rfl⟩) fun s => keeps_look (fun _ s => ⟨_, rfl⟩) fun n => ?_
    exact (keeps_declarations room s.depth (n + 1) false).bind fun attempted =>
      (counts_openAt.skipOver (by simp)).bind fun _ => keeps_pure fun _ _ hs => hs.less (by omega)
  obtain ⟨⟨module, name, attempted⟩, span⟩ := r
  have hclose : Keeps b (fun o s => FromTo b.tokens o.position (s.cursor.position - 1) span ∧
      OpenAt b .module 1 module o s) (do setSpan module span; return module)
      fun id => Holding b [] 1 [.of [.module] id] :=
    keeps_setSpan.bind fun _ => keeps_pure fun _ _ hs => hs
  cases attempted with
  | true => exact hclose
  | false =>
    intro o around s hs hw hpre
    exact hclose o around (s.record _ _) hs (hw.record ⟨_, _, hpre.1⟩)
      ⟨hpre.1, hpre.2.used, hpre.2.holds, hpre.2.opened⟩

theorem plots_unit : Plots b unit [.module] :=
  (plots_moduleDecl maxNesting).bind fun _ => (keeps_expect .eof).bind fun _ =>
    keeps_pure fun _ _ hs => hs.1

section Inputs

variable {tokens : List (Located Token)} {store : Store} {notices : Notices} {parsed : Parsed}

/-- Before the first token there is nothing new. -/
theorem traced_start {cursor : Cursor} (store : Store) (notices : Notices)
    (h : Cursor.ofTokens tokens = .ok cursor) :
    Traced ⟨tokens, store.size, notices.size⟩ (.start cursor store notices) := by
  obtain ⟨hupcoming, hposition, hended⟩ := start_of_ofTokens store notices h
  refine ⟨?_, hended, Nat.le_refl _, fun id c span hid hbody => ?_, fun k n hk hn => ?_⟩
  · rw [Cursor.tokens, List.eq_nil_of_length_eq_zero hposition]
    exact hupcoming
  · obtain ⟨n, hn, -⟩ := Option.map_eq_some_iff.mp hbody
    exact absurd (Store.index_lt_of_get? hn) (Nat.not_lt.mpr hid)
  · obtain ⟨hlt, -⟩ := Array.getElem?_eq_some_iff.mp hn
    exact absurd hlt (Nat.not_lt.mpr hk)

/-- However parsing ends, it has gone on from where it started, and owns the module that it
returns. -/
theorem went_parseModule (h : parseModule tokens store notices = .ok parsed) :
    ∃ o s, o.store = store ∧ Went ⟨tokens, store.size, notices.size⟩ o s ∧
      parsed.store = s.store ∧ parsed.notices = s.notices ∧
      ∀ root, parsed.result = .ok root →
        Holding ⟨tokens, store.size, notices.size⟩ [] 1 [.of [.module] root] o s := by
  cases hcursor : Cursor.ofTokens tokens with
  | error fault =>
    rw [parseModule, hcursor] at h
    cases h
  | ok cursor =>
    rw [parseModule_eq hcursor] at h
    obtain rfl := Except.ok.inj h
    have htraced := traced_start store notices hcursor
    have hunit : Ends unit none _ _ _ :=
      plots_unit.inside (fun start hstart => by cases hstart) htraced.went
    cases hrun : outcome unit none (.start cursor store notices) with
    | ok root s =>
      obtain ⟨hw, hholding⟩ := hunit.of_ok hrun
      refine ⟨_, s, rfl, hw, rfl, rfl, fun root' hroot => ?_⟩
      obtain rfl := Except.ok.inj hroot
      exact hholding
    | error marker s =>
      refine ⟨_, s, rfl, hunit.of_error hrun, rfl, rfl, fun root hroot => ?_⟩
      cases hroot

/-- Whatever the tokens are and however parsing ends, what it adds to a store is tidy, and a module
that it returns is a root. -/
theorem holds_parseModule (h : parseModule tokens store notices = .ok parsed) :
    Tidy store parsed.store ∧ ∀ root, parsed.result = .ok root →
      Holds store parsed.store [.of [.module] root] := by
  obtain ⟨o, s, rfl, hw, hstore, -, hroot⟩ := went_parseModule h
  rw [hstore]
  exact ⟨hw.tidy, fun root hresult => (hroot root hresult).holds⟩

/-- What parsing has added stands on tokens, and so does a module that it returns. -/
theorem traced_parseModule (h : parseModule tokens store notices = .ok parsed) :
    Settled ⟨tokens, store.size, notices.size⟩ parsed.store ∧
      (∀ k n, notices.size ≤ k → parsed.notices[k]? = some n →
        ∃ i j, FromTo tokens i j n.span) ∧
      ∀ root, parsed.result = .ok root →
        ∃ i j, StandsOn ⟨tokens, store.size, notices.size⟩ parsed.store root i j := by
  obtain ⟨o, s, -, hw, hstore, hnotices, hroot⟩ := went_parseModule h
  rw [hstore, hnotices]
  refine ⟨hw.traced.settled, hw.traced.notices, fun root hresult => ?_⟩
  obtain ⟨i, j, -, -, hstands, -⟩ := (hroot root hresult).row
  exact ⟨i, j, hstands⟩

end Inputs

/-! ## Arenas -/

/-- Tokens are parsed into an arena, well or not. -/
def ParsedInto (s s' : Store) : Prop :=
  ∃ tokens notices parsed, parseModule tokens s notices = .ok parsed ∧ parsed.store = s'

/-- An arena is filled by parsing, any number of times. -/
abbrev Fills : Store → Store → Prop := Relation.ReflTransGen ParsedInto

/-- What is in an arena stays there. -/
theorem Fills.grown {s s' : Store} (h : Fills s s') : Store.Grown s s' := by
  induction h with
  | refl => exact .refl s
  | tail _ hparsed ih =>
    obtain ⟨tokens, notices, parsed, hparse, rfl⟩ := hparsed
    exact ih.trans (holds_parseModule hparse).1.grown

end FrontEnd.Grammar
