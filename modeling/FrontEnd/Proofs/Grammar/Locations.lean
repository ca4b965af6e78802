import FrontEnd.Proofs.Grammar.Trees
import FrontEnd.Proofs.Token.Exactness

/-!
# Locations of nodes and notices

Tokens of a text follow one another, so that what is known of the tokens on which nodes stand is
known of their positions in the text.  A node lies within the node that holds it, unless it is an
attribute.  Attributes stand before the function that holds them: the span of a function starts
at its keyword.  Children start one after the other.

## Main definitions

* `Store.Nestled tokens s id`: a node has a span over tokens, and the spans of its children are as
  they have to be.

## Main statements

* `nestled_of_parseModule`: so it is for all nodes of a module that is read from a text.
-/

namespace FrontEnd

/-! ## Tokens in order -/

section Tokens

variable {tokens : List (Located Token)} {i j i' j' : Nat} {t u : Located Token} {span span' : Span}

namespace Ordered

variable (h : Ordered tokens) (ht : tokens[i]? = some t) (hu : tokens[j]? = some u)
include h ht hu

/-- A token ends before the next one starts. -/
theorem stop_le_start (hij : i < j) : t.span.stop ≤ u.span.start := by
  obtain ⟨hi, rfl⟩ := List.getElem?_eq_some_iff.mp ht
  obtain ⟨hj, rfl⟩ := List.getElem?_eq_some_iff.mp hu
  exact List.pairwise_iff_getElem.mp h.2 i j hi hj hij

theorem start_lt_start (hij : i < j) : t.span.start < u.span.start := by
  have hlt := h.1 t (List.mem_of_getElem? ht)
  have hle := h.stop_le_start ht hu hij
  rw [Position.lt_def] at *
  rw [Position.le_def] at hle
  omega

theorem start_le_start (hij : i ≤ j) : t.span.start ≤ u.span.start := by
  rcases Nat.eq_or_lt_of_le hij with rfl | hij
  · rw [Option.some.inj (ht.symm.trans hu)]
    exact Position.le_refl _
  · exact Position.le_of_lt (h.start_lt_start ht hu hij)

theorem stop_le_stop (hij : i ≤ j) : t.span.stop ≤ u.span.stop := by
  rcases Nat.eq_or_lt_of_le hij with rfl | hij
  · rw [Option.some.inj (ht.symm.trans hu)]
    exact Position.le_refl _
  · exact Position.le_trans (h.stop_le_start ht hu hij)
      (Position.le_of_lt (h.1 u (List.mem_of_getElem? hu)))

end Ordered

namespace FromTo

variable (h : FromTo tokens i j span) (h' : FromTo tokens i' j' span') (hordered : Ordered tokens)
include h h' hordered

/-- A span over some of the tokens of another lies within it. -/
theorem within (hi : i ≤ i') (hj : j' ≤ j) : span.start ≤ span'.start ∧ span'.stop ≤ span.stop := by
  obtain ⟨-, t, u, ht, hu, rfl⟩ := h
  obtain ⟨-, t', u', ht', hu', rfl⟩ := h'
  exact ⟨hordered.start_le_start ht ht' hi, hordered.stop_le_stop hu' hu hj⟩

theorem stop_le_start (hlt : j < i') : span.stop ≤ span'.start := by
  obtain ⟨-, t, u, ht, hu, rfl⟩ := h
  obtain ⟨-, t', u', ht', hu', rfl⟩ := h'
  exact hordered.stop_le_start hu ht' hlt

theorem start_lt_start (hlt : i < i') : span.start < span'.start := by
  obtain ⟨-, t, u, ht, hu, rfl⟩ := h
  obtain ⟨-, t', u', ht', hu', rfl⟩ := h'
  exact hordered.start_lt_start ht ht' hlt

end FromTo

end Tokens

/-! ## Attributes among children -/

namespace Construct

variable {c : Construct} {part : Child} {id : NodeId}

/-- The places for attributes take attributes only, and the other places take none. -/
theorem mem_of_mem_parts (h : part ∈ c.parts) :
    part.node ∈ c.marks ∧ part.kinds = [.attr] ∨ part.node ∈ c.inner ∧ .attr ∉ part.kinds := by
  have hmem : part.node ∈ c.children := map_node_parts c ▸ List.mem_map_of_mem h
  cases c with
  | function f =>
    rcases List.mem_append.mp h with h | h
    · obtain ⟨a, ha, rfl⟩ := List.mem_map.mp h
      exact .inl ⟨ha, rfl⟩
    · simp only [List.mem_cons, List.not_mem_nil, or_false] at h
      rcases h with rfl | rfl <;> exact .inr ⟨by simp [inner], by simp [Child.of]⟩
  | external e =>
    rcases List.mem_append.mp h with h | h
    · obtain ⟨a, ha, rfl⟩ := List.mem_map.mp h
      exact .inl ⟨ha, rfl⟩
    · obtain rfl := List.mem_singleton.mp h
      exact .inr ⟨by simp [inner], by simp [Child.of]⟩
  | _ =>
    refine .inr ⟨hmem, ?_⟩
    simp [parts, Child.of, Kind.items, Kind.statements, Kind.expressions] at h <;> grind

theorem kind_of_mem_marks (h : id ∈ c.marks) : c.kind = .function ∨ c.kind = .external := by
  cases c with
  | function f => exact .inl rfl
  | external e => exact .inr rfl
  | _ => cases h

end Construct

namespace Store

variable {b : Site} {base s : Store} {id child : NodeId} {n m : Node} {lo hi i j : Nat}
  {ids : List NodeId}

/-- Whether a child is an attribute shows from its kind. -/
theorem Orderly.mem_of_mem_children (h : Orderly base s id n)
    (hchild : child ∈ n.construct.children) (hm : s.get? child = some m) :
    child ∈ n.construct.marks ∧ m.kind = .attr ∨ child ∈ n.construct.inner ∧ m.kind ≠ .attr := by
  rw [← Construct.map_node_parts] at hchild
  obtain ⟨part, hpart, rfl⟩ := List.mem_map.mp hchild
  obtain ⟨c, hc, hkind⟩ := h.parts part hpart
  rw [construct?, hm] at hc
  obtain rfl := Option.some.inj hc
  rcases Construct.mem_of_mem_parts hpart with ⟨hmem, hkinds⟩ | ⟨hmem, hkinds⟩
  · rw [hkinds] at hkind
    exact .inl ⟨hmem, List.mem_singleton.mp hkind⟩
  · refine .inr ⟨hmem, fun hattr => hkinds ?_⟩
    rw [← hattr]
    exact hkind

/-! ## Spans of nodes -/

/-- The span of a node, if there is a node and it has one. -/
def span? (s : Store) (id : NodeId) : Option Span := (s.get? id).bind Node.span

theorem StandsOn.span_of_get (h : StandsOn b s id i j) (hn : s.get? id = some n) :
    ∃ span, n.span = some span ∧ FromTo b.tokens i j span := by
  obtain ⟨-, c, span, hbody, hspan⟩ := h
  rw [body?, hn] at hbody
  exact ⟨span, congrArg Prod.snd (Option.some.inj hbody), hspan⟩

theorem StandsOn.span? (h : StandsOn b s id i j) :
    ∃ span, s.span? id = some span ∧ FromTo b.tokens i j span := by
  obtain ⟨-, c, span, hbody, hspan⟩ := h
  obtain ⟨n, hn, heq⟩ := Option.map_eq_some_iff.mp hbody
  refine ⟨span, ?_, hspan⟩
  rw [Store.span?, hn]
  exact congrArg Prod.snd heq

theorem Row.pairwise (h : Row b s lo hi ids) (hordered : Ordered b.tokens) :
    ids.Pairwise fun x y => ∃ first second, s.span? x = some first ∧ s.span? y = some second ∧
      first.start < second.start := by
  induction ids generalizing lo with
  | nil => exact .nil
  | cons id rest ih =>
    obtain ⟨i, j, -, -, hid, hrest⟩ := h
    refine .cons (fun y hy => ?_) (ih hrest)
    obtain ⟨i', j', hi', -, hy⟩ := hrest.of_mem hy
    obtain ⟨first, hfirst, hspan⟩ := hid.span?
    obtain ⟨second, hsecond, hspan'⟩ := hy.span?
    exact ⟨first, second, hfirst, hsecond, hspan.start_lt_start hspan' hordered (by omega)⟩

/-- A node has a span from a token to the same or a later one.  Its children have spans: those of
attributes lie before the span of the node, which is a function or an external function then, and
those of other children lie within it.  Children start one after the other. -/
structure Nestled (tokens : List (Located Token)) (s : Store) (id : NodeId) (n : Node)
    (span : Span) : Prop where
  get : s.get? id = some n
  located : n.span = some span
  fromTo : ∃ i j, FromTo tokens i j span
  child : ∀ child ∈ n.construct.children, ∃ m inner, s.get? child = some m ∧ m.span = some inner ∧
    (m.kind = .attr → (n.kind = .function ∨ n.kind = .external) ∧ inner.stop ≤ span.start) ∧
    (m.kind ≠ .attr → span.start ≤ inner.start ∧ inner.stop ≤ span.stop)
  siblings : n.construct.children.Pairwise fun x y => ∃ first second,
    s.span? x = some first ∧ s.span? y = some second ∧ first.start < second.start

/-- The children of a node that stands on tokens. -/
theorem LaidOut.spans_of_mem {span : Span} (h : LaidOut b s i j n.construct)
    (hordered : Ordered b.tokens) (hspan : FromTo b.tokens i j span)
    (horderly : Orderly base s id n) (hchild : child ∈ n.construct.children) :
    ∃ m inner, s.get? child = some m ∧ m.span = some inner ∧
      (m.kind = .attr → (n.kind = .function ∨ n.kind = .external) ∧ inner.stop ≤ span.start) ∧
      (m.kind ≠ .attr → span.start ≤ inner.start ∧ inner.stop ≤ span.stop) := by
  obtain ⟨-, m, hm, -, -⟩ := horderly.child child hchild
  rcases horderly.mem_of_mem_children hchild hm with ⟨hmark, hkind⟩ | ⟨hinner, hkind⟩
  · obtain ⟨i', j', -, hj, hstands⟩ := h.marks.of_mem hmark
    obtain ⟨inner, hlocated, hspan'⟩ := hstands.span_of_get hm
    refine ⟨m, inner, hm, hlocated, fun _ => ⟨Construct.kind_of_mem_marks hmark, ?_⟩,
      fun hne => absurd hkind hne⟩
    exact hspan'.stop_le_start hspan hordered hj
  · obtain ⟨i', j', hi, hj, hstands⟩ := h.inner.of_mem hinner
    obtain ⟨inner, hlocated, hspan'⟩ := hstands.span_of_get hm
    refine ⟨m, inner, hm, hlocated, fun heq => absurd heq hkind, fun _ => ?_⟩
    exact hspan.within hspan' hordered hi (Nat.le_of_lt_succ hj)

/-- What a node that stands on tokens holds. -/
theorem Settled.laidOut (h : Settled b s) (hid : StandsOn b s id i j) :
    ∃ n span i' j', s.get? id = some n ∧ n.span = some span ∧ FromTo b.tokens i' j' span ∧
      LaidOut b s i' j' n.construct := by
  obtain ⟨hnew, c, span, hbody, -⟩ := hid
  obtain ⟨i', j', hspan, hlaid⟩ := h id c span hnew hbody
  obtain ⟨n, hn, heq⟩ := Option.map_eq_some_iff.mp hbody
  obtain ⟨rfl, hlocated⟩ := Prod.mk.inj heq
  exact ⟨n, span, i', j', hn, hlocated, hspan, hlaid⟩

theorem LaidOut.row (h : LaidOut b s i j n.construct) (hij : i ≤ j) :
    Row b s 0 (j + 1) n.construct.children := by
  rw [Construct.children_eq]
  exact h.marks.append h.inner (Nat.zero_le i) (Nat.le_succ_of_le hij)

end Store

namespace Grammar

open Store

variable {name text : String} {reading : Nat} {tokens : List (Located Token)} {store : Store}
  {notices : Notices} {parsed : Parsed} {root id : NodeId}

/-- All nodes of a module that has been read stand on tokens. -/
theorem standsOn_of_below (h : parseModule tokens store notices = .ok parsed)
    (hroot : parsed.result = .ok root) (hbelow : parsed.store.Below root id) :
    ∃ i j, StandsOn ⟨tokens, store.size, notices.size⟩ parsed.store id i j := by
  obtain ⟨hsettled, -, hstands⟩ := traced_parseModule h
  induction hbelow with
  | refl => exact hstands root hroot
  | child _ hget hchild ih =>
    obtain ⟨_, _, hid⟩ := ih
    obtain ⟨n, span, i, j, hn, -, hspan, hlaid⟩ := hsettled.laidOut hid
    obtain rfl := Option.some.inj (hget.symm.trans hn)
    obtain ⟨i', j', -, -, hstands'⟩ := (hlaid.row hspan.1).of_mem hchild
    exact ⟨i', j', hstands'⟩

/-- Where a text has no lexical error it is parsed, whatever the store and the notices are.  Each
notice that is recorded in parsing spans tokens.  If a module comes out, every node below it has a
span over tokens; its attributes lie before that span and its other children within it, and its
children start one after the other. -/
theorem nestled_of_parseModule (h : (Source.ofText name text reading).tokens = .ok tokens)
    (store : Store) (notices : Notices) :
    ∃ parsed, parseModule tokens store notices = .ok parsed ∧
      (∀ k notice, notices.size ≤ k → parsed.notices[k]? = some notice →
        ∃ i j, FromTo tokens i j notice.span) ∧
      ∀ root, parsed.result = .ok root → ∀ id, parsed.store.Below root id →
        ∃ n span, Nestled tokens parsed.store id n span := by
  obtain ⟨parts, rest, hcut⟩ := cuts_ofText h
  have heof : (tokens.map Located.value).getLast? = some .eof := by
    rw [hcut.tokens_eq]
    simp
  obtain ⟨cursor, hcursor⟩ := exists_ofTokens heof
  have hparse : parseModule tokens store notices = _ := parseModule_eq hcursor
  obtain ⟨hsettled, hnotices, -⟩ := traced_parseModule hparse
  refine ⟨_, hparse, hnotices, fun root hroot id hbelow => ?_⟩
  obtain ⟨_, _, hid⟩ := standsOn_of_below hparse hroot hbelow
  obtain ⟨n, span, i, j, hn, hlocated, hspan, hlaid⟩ := hsettled.laidOut hid
  have horderly := (holds_parseModule hparse).1.orderly id n hid.1 hn
  exact ⟨n, span, hn, hlocated, ⟨i, j, hspan⟩,
    fun child hchild => hlaid.spans_of_mem hcut.ordered hspan horderly hchild,
    (hlaid.row hspan.1).pairwise hcut.ordered⟩

/-- A text with attributes, an operation in parentheses, and a declaration that cannot be read. -/
def markedSource : Source := .ofText "m"
  "module m \x7b\n@cold @pure fn f(i8 a) \x7b\n\tlet x = (a + 1) * -2;\n\x7d\nglobal;\n\x7d" 0

theorem nestled_of_parseModule_marked : ∃ tokens parsed root, markedSource.tokens = .ok tokens ∧
    parseModule tokens leftovers #[] = .ok parsed ∧ parsed.result = .ok root ∧
    parsed.store.nodes.toList.any (fun n => n.construct.marks.length = 2) = true ∧
    (∃ notice i j, parsed.notices[0]? = some notice ∧ FromTo tokens i j notice.span) ∧
    ∀ id, parsed.store.Below root id → ∃ n span, Nestled tokens parsed.store id n span := by
  have hrun : markedSource.tokens.toOption.any (fun tokens =>
      (parseModule tokens leftovers #[]).toOption.any fun parsed =>
        parsed.result.toOption.isSome && (parsed.notices[0]?).isSome &&
          parsed.store.nodes.toList.any fun n => n.construct.marks.length = 2) = true := by
    decide +kernel
  cases htokens : markedSource.tokens with
  | error fault =>
    rw [htokens] at hrun
    cases hrun
  | ok tokens =>
    obtain ⟨parsed, hparse, hnotices, hnodes⟩ := nestled_of_parseModule htokens leftovers #[]
    simp only [htokens, hparse, Except.toOption, Option.any_some, Bool.and_eq_true] at hrun
    obtain ⟨⟨hresult, hnotice⟩, hmarks⟩ := hrun
    obtain ⟨notice, hnotice⟩ := Option.isSome_iff_exists.mp hnotice
    obtain ⟨i, j, hspan⟩ := hnotices 0 notice (Nat.le_refl 0) hnotice
    cases hroot : parsed.result with
    | error marker => simp [hroot] at hresult
    | ok root =>
      exact ⟨tokens, parsed, root, rfl, hparse, hroot, hmarks, ⟨notice, i, j, hnotice, hspan⟩,
        hnodes root hroot⟩

end Grammar

end FrontEnd
