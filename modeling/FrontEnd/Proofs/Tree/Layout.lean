import FrontEnd.Grammar.Expression
import FrontEnd.Proofs.Phrase.Planting

/-!
# Nodes over tokens

A node with a span stands on tokens: its span goes from the start of one token to the end of the
same or of a later one.  What it holds stands on tokens in between, each child further right than
the one before it.  Only the attributes of a function stand elsewhere, before the function.

A node that is still open has no span, and nothing is said about it.  Nodes with a span do not
change any more, but for their parent, so that what is said about them stays true (`Retains`).

## Main definitions

* `FromTo tokens i j span`: the span goes from the token `i` to the token `j`.
* `Site`: the tokens, and how many nodes there were before them.
* `StandsOn`, `Row`: a node on its tokens, and nodes one after the other.
* `LaidOut`, `Settled`: what a node holds, and a store of such nodes.

## Main statements

* `Settled.build`, `Open.settled_setSpan`: a new node, and an open one that gets its span.
-/

namespace FrontEnd

/-! ## Children -/

/-- Neither a module nor a block, whose nodes come before what they hold, nor what has attributes or
is spelt by its tokens. -/
def Kind.isPlain : Kind → Bool
  | .module | .block | .function | .external | .literal => false
  | _ => true

namespace Construct

/-- The attributes of a construct. -/
def marks : Construct → List NodeId
  | .function f => f.attributes
  | .external e => e.attributes
  | _ => []

/-- The children of a construct that are not attributes. -/
def inner : Construct → List NodeId
  | .function f => [f.prototype, f.body]
  | .external e => [e.prototype]
  | c => c.children

theorem children_eq (c : Construct) : c.children = c.marks ++ c.inner := by
  cases c <;> rfl

/-- A construct that takes in its children one by one. -/
def IsHolder : Construct → Prop
  | .module _ | .block _ => True
  | _ => False

/-- A literal is what the tokens `i` to `j` write: one token, or a minus sign and a token. -/
def SpeltBy (tokens : List (Located Token)) (i j : Nat) : Construct → Prop
  | .literal l => ∃ negative t, tokens[j]? = some t ∧ Grammar.literalOf? negative t.value = some l ∧
      j = i + negative.toNat ∧
      (negative = true → ∃ sign, tokens[i]? = some sign ∧ sign.value = .symbol .minus)
  | _ => True

namespace IsHolder

variable {c : Construct} (h : c.IsHolder)
include h

theorem marks_eq : c.marks = [] := by
  cases c with
  | module m => rfl
  | block b => rfl
  | _ => cases h

theorem inner_eq : c.inner = c.children := by
  rw [children_eq, h.marks_eq, List.nil_append]

theorem speltBy (tokens : List (Located Token)) (i j : Nat) : c.SpeltBy tokens i j := by
  cases c with
  | literal l => cases h
  | _ => trivial

end IsHolder

end Construct

/-! ## Spans of tokens -/

/-- A span goes from the start of the token `i` to the end of the token `j`. -/
def FromTo (tokens : List (Located Token)) (i j : Nat) (span : Span) : Prop :=
  i ≤ j ∧ ∃ t u, tokens[i]? = some t ∧ tokens[j]? = some u ∧ span = ⟨t.span.start, u.span.stop⟩

theorem fromTo_self {tokens : List (Located Token)} {i : Nat} {t : Located Token}
    (h : tokens[i]? = some t) : FromTo tokens i i t.span :=
  ⟨Nat.le_refl i, t, t, h, h, rfl⟩

/-- What a parse starts from: its tokens, and how many nodes and notices there are before it. -/
structure Site where
  tokens : List (Located Token)
  nodes : Nat
  notices : Nat

namespace Store

variable {b : Site} {s s' s'' : Store} {id child : NodeId} {i j lo hi lo' hi' : Nat} {c : Construct}
  {span : Span} {ids more : List NodeId}

/-! ## Nodes without their parent -/

/-- The construct and the span of a node. -/
def body? (s : Store) (id : NodeId) : Option (Construct × Option Span) :=
  (s.get? id).map fun n => (n.construct, n.span)

theorem body?_setParent (s : Store) (id parent other : NodeId) :
    (s.setParent id parent).body? other = s.body? other := by
  rw [body?, get?_setParent, body?]
  split
  · simp [Function.comp_def]
  · rfl

theorem body?_put (s : Store) (id other : NodeId) (c : Construct) :
    (s.put id c).body? other =
      if id = other then (s.body? other).map fun body => (c, body.2) else s.body? other := by
  rw [body?, get?_put, body?]
  split
  · simp [Function.comp_def]
  · rfl

theorem body?_setSpan (s : Store) (id other : NodeId) (span : Span) :
    (s.setSpan id span).body? other =
      if id = other then (s.body? other).map fun body => (body.1, some span)
      else s.body? other := by
  rw [body?, get?_setSpan, body?]
  split
  · simp [Function.comp_def]
  · rfl

theorem body?_build (s : Store) (c : Construct) (span : Option Span) (other : NodeId) :
    (s.build c span).2.body? other = if other = s.fresh then some (c, span) else s.body? other := by
  have hlink : (s.build c span).2.body? other = (s.push c span).body? other := by
    rw [body?, build, get?_link, body?]
    split
    · simp [Function.comp_def]
    · rfl
  rw [hlink, body?, get?_push, body?]
  split <;> rfl

theorem body?_fresh (s : Store) : s.body? s.fresh = none := by
  have hnone : s.get? s.fresh = none := get?_eq_none_iff.mpr (Nat.le_refl _)
  rw [body?, hnone]
  rfl

theorem Grown.body?_eq (h : Grown s s') {body : Construct × Option Span}
    (hbody : s.body? id = some body) : s'.body? id = some body := by
  obtain ⟨n, hn, rfl⟩ := Option.map_eq_some_iff.mp hbody
  rw [body?, h.get?_eq hn]
  rfl

/-- Nodes with a span keep it, and hold what they held. -/
def Retains (s s' : Store) : Prop :=
  ∀ id c span, s.body? id = some (c, some span) → s'.body? id = some (c, some span)

theorem Grown.retains (h : Grown s s') : Retains s s' := fun _ _ _ hbody => h.body?_eq hbody

/-! ## Nodes on tokens -/

/-- A new node stands on the tokens `i` to `j`. -/
def StandsOn (b : Site) (s : Store) (id : NodeId) (i j : Nat) : Prop :=
  b.nodes ≤ id.index ∧ ∃ c span, s.body? id = some (c, some span) ∧ FromTo b.tokens i j span

/-- Nodes stand on tokens from `lo` on and before `hi`, each further right than those before. -/
def Row (b : Site) (s : Store) : Nat → Nat → List NodeId → Prop
  | _, _, [] => True
  | lo, hi, id :: rest => ∃ i j, lo ≤ i ∧ j < hi ∧ StandsOn b s id i j ∧ Row b s (i + 1) hi rest

theorem StandsOn.le (h : StandsOn b s id i j) : i ≤ j := by
  obtain ⟨-, _, _, -, hle, -⟩ := h
  exact hle

theorem StandsOn.retain (h : StandsOn b s id i j) (hr : Retains s s') : StandsOn b s' id i j := by
  obtain ⟨hnew, c, span, hbody, hspan⟩ := h
  exact ⟨hnew, c, span, hr id c span hbody, hspan⟩

namespace Row

theorem retain (h : Row b s lo hi ids) (hr : Retains s s') : Row b s' lo hi ids := by
  induction ids generalizing lo with
  | nil => trivial
  | cons id rest ih =>
    obtain ⟨i, j, hlo, hhi, hid, hrest⟩ := h
    exact ⟨i, j, hlo, hhi, hid.retain hr, ih hrest⟩

/-- There is room for more on both sides. -/
theorem mono (h : Row b s lo hi ids) (hlo : lo' ≤ lo) (hhi : hi ≤ hi') : Row b s lo' hi' ids := by
  induction ids generalizing lo lo' with
  | nil => trivial
  | cons id rest ih =>
    obtain ⟨i, j, hi₁, hj, hid, hrest⟩ := h
    exact ⟨i, j, by omega, by omega, hid, ih hrest (Nat.le_refl _)⟩

/-- Nodes further right come behind. -/
theorem append (h : Row b s lo hi ids) (h' : Row b s hi hi' more) (hlo : lo ≤ hi) (hhi : hi ≤ hi') :
    Row b s lo hi' (ids ++ more) := by
  induction ids generalizing lo with
  | nil => exact h'.mono hlo (Nat.le_refl _)
  | cons id rest ih =>
    obtain ⟨i, j, hi₁, hj, hid, hrest⟩ := h
    have := hid.le
    exact ⟨i, j, hi₁, by omega, hid, ih hrest (by omega)⟩

theorem singleton (h : StandsOn b s id i j) (hlo : lo ≤ i) (hhi : j < hi) : Row b s lo hi [id] :=
  ⟨i, j, hlo, hhi, h, trivial⟩

theorem of_mem (h : Row b s lo hi ids) (hmem : child ∈ ids) :
    ∃ i j, lo ≤ i ∧ j < hi ∧ StandsOn b s child i j := by
  induction ids generalizing lo with
  | nil => cases hmem
  | cons id rest ih =>
    obtain ⟨i, j, hi₁, hj, hid, hrest⟩ := h
    rcases List.mem_cons.mp hmem with rfl | hmem
    · exact ⟨i, j, hi₁, hj, hid⟩
    · obtain ⟨i', j', hi', hj', hchild⟩ := ih hrest hmem
      exact ⟨i', j', by omega, hj', hchild⟩

end Row

/-! ## What nodes hold -/

/-- What a node that stands on the tokens `i` to `j` holds: attributes before the tokens, and other
children over them. -/
structure LaidOut (b : Site) (s : Store) (i j : Nat) (c : Construct) : Prop where
  marks : Row b s 0 i c.marks
  inner : Row b s i (j + 1) c.inner
  spelt : c.SpeltBy b.tokens i j

theorem LaidOut.retain (h : LaidOut b s i j c) (hr : Retains s s') : LaidOut b s' i j c :=
  ⟨h.marks.retain hr, h.inner.retain hr, h.spelt⟩

/-- New nodes that have a span stand on tokens and are laid out. -/
def Settled (b : Site) (s : Store) : Prop := ∀ id c span, b.nodes ≤ id.index →
  s.body? id = some (c, some span) → ∃ i j, FromTo b.tokens i j span ∧ LaidOut b s i j c

/-- It is enough to look at the nodes that have changed. -/
theorem Settled.of_retains (h : Settled b s) (hr : Retains s s')
    (hnew : ∀ id c span, s'.body? id = some (c, some span) → s.body? id = some (c, some span) ∨
      ∃ i j, FromTo b.tokens i j span ∧ LaidOut b s i j c) : Settled b s' := by
  intro id c span hid hbody
  rcases hnew id c span hbody with hold | ⟨i, j, hspan, hlaid⟩
  · obtain ⟨i, j, hspan, hlaid⟩ := h id c span hid hold
    exact ⟨i, j, hspan, hlaid.retain hr⟩
  · exact ⟨i, j, hspan, hlaid.retain hr⟩

/-! ## Building -/

theorem retains_build (s : Store) (c : Construct) (span : Option Span) :
    Retains s (s.build c span).2 := by
  intro id c' span' hbody
  rw [body?_build, if_neg, hbody]
  rintro rfl
  rw [body?_fresh] at hbody
  cases hbody

/-- A new node that is laid out. -/
theorem Settled.build (h : Settled b s) (hspan : FromTo b.tokens i j span) (hc : LaidOut b s i j c) :
    Settled b (s.build c (some span)).2 := by
  refine h.of_retains (retains_build s c _) fun id c' span' hbody => ?_
  rw [body?_build] at hbody
  split at hbody
  · cases hbody
    exact .inr ⟨i, j, hspan, hc⟩
  · exact .inl hbody

theorem stands_build (hsize : b.nodes ≤ s.size) (hspan : FromTo b.tokens i j span) :
    StandsOn b (s.build c (some span)).2 s.fresh i j :=
  ⟨hsize, c, span, by rw [body?_build, if_pos rfl], hspan⟩

/-! ## Open nodes -/

/-- A new node without a span, which holds nodes on tokens from `lo` on and before `hi`. -/
structure Open (b : Site) (s : Store) (lo hi : Nat) (id : NodeId) (c : Construct) : Prop where
  new : b.nodes ≤ id.index
  body : s.body? id = some (c, none)
  holder : c.IsHolder
  row : Row b s lo hi c.children

/-- An open node is added. -/
theorem Settled.buildOpen (h : Settled b s) : Settled b (s.build c none).2 := by
  refine h.of_retains (retains_build s c none) fun id c' span' hbody => ?_
  rw [body?_build] at hbody
  split at hbody
  · cases hbody
  · exact .inl hbody

theorem open_build (hsize : b.nodes ≤ s.size) (hholder : c.IsHolder) (hempty : c.children = []) :
    Open b (s.build c none).2 lo hi s.fresh c :=
  ⟨hsize, by rw [body?_build, if_pos rfl], hholder, by rw [hempty]; trivial⟩

/-- Other contents for an open node. -/
theorem Open.retains_put (h : Open b s lo hi id c) (c' : Construct) : Retains s (s.put id c') := by
  intro other d span hbody
  rw [body?_put, if_neg, hbody]
  rintro rfl
  rw [h.body] at hbody
  cases hbody

theorem Open.settled_put (h : Open b s lo hi id c) (c' : Construct) (hsettled : Settled b s) :
    Settled b (s.put id c') := by
  refine hsettled.of_retains (h.retains_put c') fun other d span hbody => ?_
  rw [body?_put] at hbody
  split at hbody
  next heq =>
    subst heq
    rw [h.body] at hbody
    cases hbody
  next => exact .inl hbody

theorem retains_setParent (s : Store) (id parent : NodeId) : Retains s (s.setParent id parent) := by
  intro other c span hbody
  rwa [body?_setParent]

theorem Settled.setParent (h : Settled b s) (id parent : NodeId) : Settled b (s.setParent id parent) := by
  refine h.of_retains (retains_setParent s id parent) fun other c span hbody => .inl ?_
  rwa [body?_setParent] at hbody

/-- An open node takes in a child, and is open still. -/
theorem Open.take {c' : Construct} (h : Open b s lo hi id c) (hholder : c'.IsHolder)
    (hrow : Row b s lo hi' c'.children) :
    Open b ((s.put id c').setParent child id) lo hi' id c' := by
  refine ⟨h.new, ?_, hholder, (hrow.retain (h.retains_put c')).retain (retains_setParent _ _ _)⟩
  rw [body?_setParent, body?_put, if_pos rfl, h.body]
  rfl

/-- An open node that is complete gets its span. -/
theorem Open.retains_setSpan (h : Open b s lo hi id c) (span : Span) :
    Retains s (s.setSpan id span) := by
  intro other d span' hbody
  rw [body?_setSpan, if_neg, hbody]
  rintro rfl
  rw [h.body] at hbody
  cases hbody

theorem Open.settled_setSpan (h : Open b s i (j + 1) id c) (hsettled : Settled b s)
    (hspan : FromTo b.tokens i j span) : Settled b (s.setSpan id span) := by
  refine hsettled.of_retains (h.retains_setSpan span) fun other d span' hbody => ?_
  rw [body?_setSpan] at hbody
  split at hbody
  next heq =>
    subst heq
    rw [h.body] at hbody
    cases hbody
    refine .inr ⟨i, j, hspan, ?_, ?_, h.holder.speltBy _ _ _⟩
    · rw [h.holder.marks_eq]
      trivial
    · rw [h.holder.inner_eq]
      exact h.row
  next => exact .inl hbody

theorem Open.stands_setSpan (h : Open b s i (j + 1) id c) (hspan : FromTo b.tokens i j span) :
    StandsOn b (s.setSpan id span) id i j := by
  refine ⟨h.new, c, span, ?_, hspan⟩
  rw [body?_setSpan, if_pos rfl, h.body]
  rfl

end Store

end FrontEnd
