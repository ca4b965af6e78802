import FrontEnd.Proofs.Tree.Relocation

/-!
# Editing a store

A store is built and changed by seven operations.  Whatever they are applied to, and in whatever
order, what a node lists as its children agrees with what the children name as their parent, and
scopes agree with what they are the scopes of: that of a module lists its items, and that of a
block the first declaration of each variable among its statements.  A block may hold further
declarations of a variable, since statements may be moved to a block that declares it already.

`Linked` is the invariant.  It is the case of all kinds of `LinkedOn`, which speaks of the nodes of
some kinds only and has one lemma for each way to change a store.  Blocks have to be among the
kinds, since statements are moved between them.  Nothing is said of a node whose parent does not
list it: nodes may be attached to any other.

## Main definitions

* `Edit`: an operation with its arguments, and `Edit.run`.
* `Store.LinkedOn`, `Store.Linked`: the invariant, on some kinds of nodes and on all.
* `Store.Consistent`: the invariant in terms of what can be read of a store.

## Main statements

* `Store.LinkedOn.run`: one edit keeps a store linked.
* `Store.consistent_of_edits`: a store that edits have made is consistent.
-/

namespace FrontEnd

/-- A construct without contents, if it is a module or a block. -/
def Construct.Unfilled : Construct → Prop
  | .module m => m.items = [] ∧ m.scope = .empty
  | .block b => b.statements = [] ∧ b.scope = .empty
  | _ => True

/-- A change of a store. -/
inductive Edit
  | alloc (c : Construct) (span : Option Span)
  | attach (child parent : NodeId)
  | adopt (parent : NodeId) (children : List NodeId)
  | addItem (module : NodeId) (name : Ident) (item : NodeId)
  | append (block statement : NodeId)
  | split (block : NodeId) (place : Nat)
  | relocate (source target : NodeId) (start : Nat)

namespace Edit

/-- Modules and blocks are added without contents. -/
def AddsUnfilled : Edit → Prop
  | .alloc c _ => c.Unfilled
  | _ => True

/-- Modules and blocks are added without contents, if they are of some kinds. -/
def AddsUnfilledOf (kinds : Kind → Prop) : Edit → Prop
  | .alloc c _ => kinds c.kind → c.Unfilled
  | _ => True

theorem AddsUnfilled.of_kinds {e : Edit} (h : e.AddsUnfilled) (kinds : Kind → Prop) :
    e.AddsUnfilledOf kinds := by
  cases e with
  | alloc c span => exact fun _ => h
  | _ => trivial

/-- The store after a change.  One that is refused leaves the store as it is, and one that faults
leaves none. -/
def run (s : Store) : Edit → Except Fault Store
  | .alloc c span => return (← s.alloc c span).2
  | .attach child parent => s.attach child parent
  | .adopt parent children => s.adopt parent children
  | .addItem module name item => return (← s.addItem module name item).toOption.getD s
  | .append block statement => return (← s.appendStatement block statement).toOption.getD s
  | .split block place => return ((← s.split block place).toOption.map Prod.snd).getD s
  | .relocate source target start => return (← s.relocate source target start).2

end Edit

namespace Store

variable {s s' : Store} {id child parent : NodeId} {n : Node} {c c' : Construct}
  {span : Option Span} {children : List NodeId} {kinds : Kind → Prop}

/-! ## Links -/

/-- A scope agrees with what it is the scope of. -/
def ScopeAgrees (s : Store) : Construct → Prop
  | .module m => m.scope.nodes = m.items
  | .block b => b.scope = .ofEntries (s.declarations b.statements)
  | _ => True

/-- A node lists distinct children, each of which names it as its parent, and has a scope that
agrees. -/
structure LinkedAt (s : Store) (id : NodeId) (c : Construct) : Prop where
  nodup : c.children.Nodup
  child : ∀ child ∈ c.children, ∃ n, s.get? child = some n ∧ n.parent = some id
  scope : s.ScopeAgrees c

/-- All nodes of a store are linked. -/
def Linked (s : Store) : Prop := ∀ id c, s.construct? id = some c → s.LinkedAt id c

/-- The nodes of some kinds are linked. -/
def LinkedOn (kinds : Kind → Prop) (s : Store) : Prop :=
  ∀ id c, s.construct? id = some c → kinds c.kind → s.LinkedAt id c

theorem linked_iff : Linked s ↔ LinkedOn (fun _ => True) s :=
  ⟨fun h id c hc _ => h id c hc, fun h id c hc => h id c hc trivial⟩

/-- Nodes that have a parent keep it, and declare what they declared. -/
def Keeps (s s' : Store) : Prop := ∀ id n p, s.get? id = some n → n.parent = some p →
  (∃ n', s'.get? id = some n' ∧ n'.parent = some p) ∧ s'.declared? id = s.declared? id

/-- It is enough that nodes with a parent stay as they are. -/
theorem keeps_of_get? (h : ∀ id n p, s.get? id = some n → n.parent = some p →
    s'.get? id = some n) : Keeps s s' := by
  intro id n p hn hp
  have hn' := h id n p hn hp
  refine ⟨⟨n, hn', hp⟩, ?_⟩
  rw [declared?, hn', declared?, hn]

/-- Whether a scope agrees depends on what the children declare. -/
theorem ScopeAgrees.congr (h : s.ScopeAgrees c)
    (hsame : ∀ child ∈ c.children, s'.declared? child = s.declared? child) :
    s'.ScopeAgrees c := by
  cases c with
  | block b =>
    have hsame : s'.declarations b.statements = s.declarations b.statements :=
      declarations_congr hsame
    change b.scope = .ofEntries (s'.declarations b.statements)
    rwa [hsame]
  | module m => exact h
  | _ => trivial

/-- A node stays linked while its children keep their parent. -/
theorem LinkedAt.mono (h : s.LinkedAt id c) (hkeeps : Keeps s s') : s'.LinkedAt id c := by
  have hchild : ∀ child ∈ c.children, (∃ n', s'.get? child = some n' ∧ n'.parent = some id) ∧
      s'.declared? child = s.declared? child := by
    intro child hmem
    obtain ⟨n, hn, hparent⟩ := h.child child hmem
    exact hkeeps child n id hn hparent
  exact ⟨h.nodup, fun child hmem => (hchild child hmem).1,
    h.scope.congr fun child hmem => (hchild child hmem).2⟩

theorem linked_empty : Linked .empty := by
  intro id c hc
  simp [construct?] at hc

/-- Two nodes do not list the same child. -/
theorem LinkedAt.eq_of_mem {p q : NodeId} (h : s.LinkedAt p c) (h' : s.LinkedAt q c')
    (hp : child ∈ c.children) (hq : child ∈ c'.children) : p = q := by
  obtain ⟨n, hn, hnp⟩ := h.child child hp
  obtain ⟨n', hn', hnq⟩ := h'.child child hq
  obtain rfl := Option.some.inj (hn.symm.trans hn')
  exact Option.some.inj (hnp.symm.trans hnq)

/-! ## Giving roots a parent -/

theorem construct?_setParent (s : Store) (id parent other : NodeId) :
    (s.setParent id parent).construct? other = s.construct? other := by
  rw [construct?, get?_setParent, construct?]
  split
  · simp [Function.comp_def]
  · rfl

theorem construct?_link (s : Store) (parent : NodeId) (children : List NodeId) (other : NodeId) :
    (s.link parent children).construct? other = s.construct? other := by
  rw [construct?, get?_link, construct?]
  split
  · simp [Function.comp_def]
  · rfl

/-- Nodes can be adopted if they are distinct roots. -/
theorem eq_link_of_adopt (h : s.adopt parent children = .ok s') : children.Nodup ∧
    (∀ child ∈ children, child ≠ parent ∧ s.IsRoot child) ∧ s' = s.link parent children := by
  induction children generalizing s with
  | nil =>
    cases h
    exact ⟨List.nodup_nil, by simp, rfl⟩
  | cons child children ih =>
    rw [adopt, List.foldlM_cons] at h
    obtain ⟨s₁, hattach, hrest⟩ := ok_of_bind h
    obtain ⟨hne, hroot, rfl⟩ := attach_eq_ok_iff.mp hattach
    obtain ⟨hnodup, hroots, rfl⟩ := ih hrest
    have hold : ∀ other ∈ children, other ≠ child ∧ other ≠ parent ∧ s.IsRoot other := by
      intro other hother
      obtain ⟨hne, n, hn, hnone⟩ := hroots other hother
      rw [get?_setParent] at hn
      split at hn
      · obtain ⟨m, -, rfl⟩ := Option.map_eq_some_iff.mp hn
        cases hnone
      next hapart => exact ⟨Ne.symm hapart, hne, n, hn, hnone⟩
    refine ⟨List.nodup_cons.mpr ⟨fun hmem => (hold child hmem).1 rfl, hnodup⟩, ?_, rfl⟩
    exact List.forall_mem_cons.mpr ⟨⟨hne, hroot⟩, fun other hother => (hold other hother).2⟩

/-- Giving roots a parent leaves the other nodes alone. -/
theorem keeps_link (hroots : ∀ child ∈ children, s.IsRoot child) :
    Keeps s (s.link parent children) := by
  refine keeps_of_get? fun id n p hn hp => ?_
  rw [get?_link, if_neg, hn]
  intro hmem
  rw [(hroots id hmem).parent_eq hn] at hp
  cases hp

theorem LinkedOn.link (h : LinkedOn kinds s) (hroots : ∀ child ∈ children, s.IsRoot child) :
    LinkedOn kinds (s.link parent children) := by
  intro id c hc hkind
  rw [construct?_link] at hc
  exact (h id c hc hkind).mono (keeps_link hroots)

/-! ## Adding nodes -/

theorem Added.keeps (h : Added n s s') : Keeps s s' :=
  keeps_of_get? fun _ _ _ hn _ => h.get?_of_get? hn

theorem Added.construct?_cases (h : Added n s s') (hc : s'.construct? id = some c) :
    id = s.fresh ∧ c = n.construct ∨ s.construct? id = some c := by
  rw [construct?, h] at hc
  split at hc
  next heq => exact .inl ⟨heq, (Option.some.inj hc).symm⟩
  next => exact .inr hc

/-- A new node stays linked, and so do the others. -/
theorem LinkedOn.added (h : LinkedOn kinds s) (hadded : Added n s s')
    (hnew : s'.LinkedAt s.fresh n.construct) : LinkedOn kinds s' := by
  intro id c hc hkind
  rcases hadded.construct?_cases hc with ⟨rfl, rfl⟩ | hc
  · exact hnew
  · exact (h id c hc hkind).mono hadded.keeps

theorem linkedAt_emptyBlock (s : Store) (id : NodeId) : s.LinkedAt id .emptyBlock :=
  ⟨List.nodup_nil, by simp [Construct.emptyBlock, Construct.children], rfl⟩

theorem scopeAgrees_of_unfilled (h : c.Unfilled) : s.ScopeAgrees c := by
  cases c with
  | module m =>
    change m.scope.nodes = m.items
    rw [h.1, h.2]
    rfl
  | block b =>
    change b.scope = .ofEntries (s.declarations b.statements)
    rw [h.1, h.2]
    rfl
  | _ => trivial

/-! ## Taking in roots -/

/-- A node that takes in roots stays linked if it keeps its kind and its scope agrees. -/
theorem LinkedOn.takesIn {q : NodeId} {before adopted : List NodeId} (h : LinkedOn kinds s)
    (htakes : TakesIn s s' q before adopted)
    (hsame : ∀ c, s.construct? q = some c →
      ∃ c', s'.construct? q = some c' ∧ c'.kind = c.kind ∧ c.kind ≠ .varDecl)
    (hscope : ∀ c, s'.construct? q = some c → kinds c.kind → s.ScopeAgrees c) :
    LinkedOn kinds s' := by
  have hdeclared : ∀ id n, s.get? id = some n → s'.declared? id = s.declared? id := by
    intro id n hn
    by_cases hq : id = q
    · subst hq
      obtain ⟨c', hc', hkind, hne⟩ := hsame _ (construct?_of_get? hn)
      rw [declared?_of_construct? hc' (hkind ▸ hne),
        declared?_of_construct? (construct?_of_get? hn) hne]
    · exact declared?_congr (htakes.construct?_eq hq)
  intro id c hc hof
  obtain ⟨n', hn', rfl⟩ := Option.map_eq_some_iff.mp hc
  have hold : ∀ n, s.get? id = some n → s.LinkedAt id n.construct := by
    intro n hn
    refine h id n.construct (construct?_of_get? hn) ?_
    by_cases hq : id = q
    · subst hq
      obtain ⟨c', hc', hkind, -⟩ := hsame _ (construct?_of_get? hn)
      rwa [← hkind, Option.some.inj (hc'.symm.trans hc)]
    · rw [htakes.construct?_eq hq, construct?_of_get? hn] at hc
      rwa [Option.some.inj hc]
  have hoffspring := htakes.offspring (fun n hn => ⟨(hold n hn).nodup, (hold n hn).child⟩) hn'
  have hagrees : s.ScopeAgrees n'.construct := by
    by_cases hq : id = q
    · subst hq
      exact hscope _ hc hof
    · obtain ⟨n, hn, heq⟩ := htakes.exists_of_get? hq hn'
      exact heq ▸ (hold n hn).scope
  refine ⟨hoffspring.nodup, hoffspring.child, hagrees.congr fun child hchild => ?_⟩
  obtain ⟨m, hm⟩ : ∃ m, s.get? child = some m := by
    rcases htakes.child_cases hn' hchild with ⟨-, hmem⟩ | ⟨n, hn, hmem⟩
    · exact (htakes.isRoot hmem).imp fun _ => And.left
    · exact ((hold n hn).child child hmem).imp fun _ => And.left
  exact hdeclared child m hm

/-- A new node takes in its children. -/
theorem takesIn_of_alloc (halloc : s.alloc c span = .ok (id, s')) :
    id = s.fresh ∧ s'.construct? s.fresh = some c ∧ TakesIn s s' s.fresh [] c.children := by
  obtain ⟨s₁, hadopt, hpure⟩ := ok_of_bind halloc
  cases hpure
  obtain ⟨hnodup, hroots, rfl⟩ := eq_link_of_adopt hadopt
  refine ⟨rfl, ?_, takesIn_build hnodup (fun child hchild => ?_) span⟩
  · rw [construct?_link, construct?, get?_push, if_pos rfl]
    rfl
  · obtain ⟨hne, n, hn, hnone⟩ := hroots child hchild
    rw [get?_push, if_neg hne] at hn
    exact ⟨n, hn, hnone⟩

theorem LinkedOn.alloc (h : LinkedOn kinds s) (hunfilled : kinds c.kind → c.Unfilled)
    (halloc : s.alloc c span = .ok (id, s')) : LinkedOn kinds s' := by
  obtain ⟨-, hc, htakes⟩ := takesIn_of_alloc halloc
  refine h.takesIn htakes (fun d hd => ?_) fun d hd hof => ?_
  · rw [construct?, get?_fresh] at hd
    cases hd
  · obtain rfl := Option.some.inj (hc.symm.trans hd)
    exact scopeAgrees_of_unfilled (hunfilled hof)

/-- A node takes in a root at the end of what it lists. -/
theorem LinkedOn.snoc (h : LinkedOn kinds s) (hc : s.construct? parent = some c)
    (hkind : c.kind ≠ .varDecl) (hsame : c'.kind = c.kind) (hne : child ≠ parent)
    (hroot : s.IsRoot child) (hchildren : c'.children = c.children ++ [child])
    (hscope : kinds c.kind → s.ScopeAgrees c') :
    LinkedOn kinds ((s.put parent c').setParent child parent) := by
  have hc' : ((s.put parent c').setParent child parent).construct? parent = some c' := by
    rw [construct?_setParent, construct?_put, if_pos rfl, hc]
    rfl
  refine h.takesIn (takesIn_put hc hne hroot hchildren) (fun d hd => ?_) fun d hd hof => ?_
  · obtain rfl := Option.some.inj (hc.symm.trans hd)
    exact ⟨c', hc', hsame, hkind⟩
  · obtain rfl := Option.some.inj (hc'.symm.trans hd)
    exact hscope (hsame ▸ hof)

/-- What attaching a node does, after other contents have been put. -/
theorem attach_put_eq_ok (h : (s.put parent c).attach child parent = .ok s') :
    child ≠ parent ∧ s.IsRoot child ∧ s' = (s.put parent c).setParent child parent := by
  obtain ⟨hne, ⟨n, hn, hnone⟩, rfl⟩ := attach_eq_ok_iff.mp h
  rw [get?_put, if_neg (Ne.symm hne)] at hn
  exact ⟨hne, ⟨n, hn, hnone⟩, rfl⟩

/-- What adding an item does. -/
theorem exists_of_addItem {module item : NodeId} {name : Ident}
    (h : s.addItem module name item = .ok (.ok s')) :
    ∃ m scope, s.construct? module = some (.module m) ∧ m.scope.insert name item = .ok scope ∧
      item ≠ module ∧ s.IsRoot item ∧
      s' = (s.put module (.module ⟨m.name, m.items ++ [item], scope⟩)).setParent item module := by
  obtain ⟨m, hread, h⟩ := ok_of_bind h
  cases hinsert : m.scope.insert name item with
  | error existing =>
    rw [hinsert] at h
    cases h
  | ok scope =>
    rw [hinsert] at h
    obtain ⟨_, hattach, hpure⟩ := ok_of_bind h
    cases hpure
    exact ⟨m, scope, read_module_eq_ok_iff.mp hread, hinsert, attach_put_eq_ok hattach⟩

theorem LinkedOn.addItem (h : LinkedOn kinds s) {module item : NodeId} {name : Ident}
    (hadd : s.addItem module name item = .ok (.ok s')) : LinkedOn kinds s' := by
  obtain ⟨m, scope, hmodule, hinsert, hne, hroot, rfl⟩ := exists_of_addItem hadd
  refine h.snoc hmodule (by simp [Construct.kind]) rfl hne hroot rfl fun hof => ?_
  have hscope : m.scope.nodes = m.items := (h module _ hmodule hof).scope
  change scope.nodes = m.items ++ [item]
  rw [(Scope.insert_eq_ok_iff.mp hinsert).2, Scope.nodes_append, hscope]

/-- What appending a statement does. -/
theorem exists_of_appendStatement {block statement : NodeId}
    (h : s.appendStatement block statement = .ok (.ok s')) :
    ∃ b, s.construct? block = some (.block b) ∧
      (s.declared? statement).bind b.scope.lookup = none ∧ statement ≠ block ∧
      s.IsRoot statement ∧
      s' = (s.put block (.block (b.snoc statement (s.declared? statement)))).setParent
        statement block := by
  obtain ⟨c, hconstruct, h⟩ := ok_of_bind h
  obtain ⟨b, hread, h⟩ := ok_of_bind h
  have hc := construct_eq_ok_iff.mp hconstruct
  refine ⟨b, read_block_eq_ok_iff.mp hread, ?_⟩
  cases c with
  | varDecl v =>
    have hdeclared : s.declared? statement = some v.name := by
      obtain ⟨⟨_, p, span⟩, hn, rfl⟩ := Option.map_eq_some_iff.mp hc
      rw [declared?, hn]
    rw [hdeclared]
    cases hlookup : b.scope.lookup v.name with
    | some existing =>
      simp only [Option.bind_some, hlookup] at h
      cases h
    | none =>
      simp only [Option.bind_some, hlookup] at h
      obtain ⟨_, hattach, hpure⟩ := ok_of_bind h
      cases hpure
      exact ⟨hlookup, attach_put_eq_ok hattach⟩
  | _ =>
    have hdeclared : s.declared? statement = none :=
      declared?_of_construct? hc (by simp [Construct.kind])
    rw [hdeclared]
    obtain ⟨_, hattach, hpure⟩ := ok_of_bind h
    cases hpure
    exact ⟨rfl, attach_put_eq_ok hattach⟩

theorem takesIn_of_appendStatement {block statement : NodeId}
    (h : s.appendStatement block statement = .ok (.ok s')) :
    ∃ b, s.construct? block = some (.block b) ∧ TakesIn s s' block b.statements [statement] := by
  obtain ⟨b, hb, -, hne, hroot, rfl⟩ := exists_of_appendStatement h
  exact ⟨b, hb, takesIn_put hb hne hroot rfl⟩

theorem LinkedOn.append (h : LinkedOn kinds s) {block statement : NodeId}
    (happend : s.appendStatement block statement = .ok (.ok s')) : LinkedOn kinds s' := by
  obtain ⟨b, hblock, hnew, hne, hroot, rfl⟩ := exists_of_appendStatement happend
  refine h.snoc hblock (by simp [Construct.kind]) rfl hne hroot rfl fun hof => ?_
  have hscope : b.scope = .ofEntries (s.declarations b.statements) := (h block _ hblock hof).scope
  change (b.snoc statement (s.declared? statement)).scope =
    .ofEntries (s.declarations (b.statements ++ [statement]))
  rw [declarations_append, Scope.ofEntries_append, ← hscope]
  cases hdeclared : s.declared? statement with
  | none => simp [BlockNode.snoc, declarations, hdeclared]
  | some name =>
    rw [hdeclared, Option.bind_some] at hnew
    simp [BlockNode.snoc, declarations, hdeclared, Scope.enroll, Scope.contains, hnew]

/-! ## Moving -/

section Moves

variable {m : Move}

/-- The node that lists a moved statement is the source. -/
theorem LinkedOn.eq_source (h : LinkedOn kinds s) (hblock : kinds .block) (hmoves : Moves m s s')
    (hlinked : s.LinkedAt id c) (hchild : child ∈ c.children) (hmoved : child ∈ m.moved) :
    id = m.source := by
  obtain ⟨b, hsource, hstatements⟩ := hmoves.source
  refine hlinked.eq_of_mem (h m.source _ hsource hblock) hchild ?_
  change child ∈ b.statements
  simp [hstatements, hmoved]

/-- A child that does not move keeps its parent. -/
theorem Moves.parent_of_not_mem (h : Moves m s s') (hmoved : child ∉ m.moved)
    (hchild : ∃ n, s.get? child = some n ∧ n.parent = some id) :
    ∃ n, s'.get? child = some n ∧ n.parent = some id := by
  obtain ⟨n, hn, hparent⟩ := hchild
  refine ⟨m.node (s.declarations m.moved) child n, by rw [h.node, hn]; rfl, ?_⟩
  rw [Move.node, Move.parent, if_neg hmoved, hparent]

/-- The scope of a block follows its statements as they go and come. -/
theorem scope_of_move {statements : List NodeId} (hnodup : (m.kept ++ m.moved).Nodup)
    (hstatements : id = m.source → statements = m.kept ++ m.moved) :
    (s.declarations m.moved).foldl (m.scope id) (.ofEntries (s.declarations statements)) =
      .ofEntries (s.declarations (m.statements id statements)) := by
  have hnodes := nodup_declarations (s := s) hnodup
  rw [declarations_append] at hnodes
  unfold Move.statements
  by_cases hsource : id = m.source
  · rw [hstatements hsource, declarations_append]
    by_cases htarget : id = m.target
    · have hstep : m.scope id = Scope.renew := by
        funext scope e
        simp only [Move.scope, if_pos hsource, if_pos htarget, Scope.renew]
      rw [hstep, if_pos hsource, if_pos htarget, declarations_append]
      exact Scope.foldl_renew_ofEntries hnodes
    · have hstep : m.scope id = Scope.release := by
        funext scope e
        simp only [Move.scope, if_pos hsource, if_neg htarget]
      rw [hstep, if_pos hsource, if_neg htarget, List.append_nil]
      exact Scope.foldl_release_ofEntries hnodes
  · by_cases htarget : id = m.target
    · have hstep : m.scope id = Scope.enroll := by
        funext scope e
        simp only [Move.scope, if_neg hsource, if_pos htarget]
      rw [hstep, if_neg hsource, if_pos htarget, declarations_append, Scope.ofEntries_append]
    · rw [Move.scope_of_ne hsource htarget, if_neg hsource, if_neg htarget, List.append_nil]
      exact List.foldl_fixed ..

/-- Moving statements keeps a store linked, wherever they go. -/
theorem LinkedOn.move (h : LinkedOn kinds s) (hblock : kinds .block) (hmoves : Moves m s s') :
    LinkedOn kinds s' := by
  obtain ⟨b, hsource, hstatements⟩ := hmoves.source
  have hnodup : (m.kept ++ m.moved).Nodup := hstatements ▸ (h _ _ hsource hblock).nodup
  have hapart : ∀ child ∈ m.kept, child ∉ m.moved := fun child hkept hmoved =>
    List.disjoint_of_nodup_append hnodup hkept hmoved
  intro id c' hc' hof
  rw [hmoves.construct?_eq] at hc'
  obtain ⟨c, hc, rfl⟩ := Option.map_eq_some_iff.mp hc'
  rw [Move.kind_construct] at hof
  have hlinked := h id c hc hof
  have hstays : ∀ child ∈ c.children, child ∉ m.moved →
      ∃ n, s'.get? child = some n ∧ n.parent = some id := fun child hmem hmoved =>
    hmoves.parent_of_not_mem hmoved (hlinked.child child hmem)
  cases c with
  | block t =>
    have hold : id = m.source → t.statements = m.kept ++ m.moved := by
      rintro rfl
      rw [hc] at hsource
      cases hsource
      exact hstatements
    have hfirst : ∀ child ∈ (if id = m.source then m.kept else t.statements),
        child ∈ t.statements ∧ child ∉ m.moved := by
      intro child hmem
      split at hmem
      next heq => exact ⟨by simp [hold heq, hmem], hapart child hmem⟩
      next hne => exact ⟨hmem, fun hmoved => hne (h.eq_source hblock hmoves hlinked hmem hmoved)⟩
    refine ⟨?_, fun child hmem => ?_, ?_⟩
    · change (m.statements id t.statements).Nodup
      rw [Move.statements, List.nodup_append]
      refine ⟨?_, ?_, ?_⟩
      · split
        · exact hnodup.of_append_left
        · exact hlinked.nodup
      · split
        · exact hnodup.of_append_right
        · exact List.nodup_nil
      · rintro child hmem _ hmoved rfl
        split at hmoved
        · exact (hfirst child hmem).2 hmoved
        · cases hmoved
    · rcases List.mem_append.mp (show child ∈ m.statements id t.statements from hmem) with
        hmem | hmem
      · exact hstays child (hfirst child hmem).1 (hfirst child hmem).2
      · split at hmem
        next htarget =>
          obtain ⟨n, hn, -⟩ := (h _ _ hsource hblock).child child
            (show child ∈ b.statements by simp [hstatements, hmem])
          refine ⟨m.node (s.declarations m.moved) child n, by rw [hmoves.node, hn]; rfl, ?_⟩
          rw [Move.node, Move.parent, if_pos hmem, htarget]
        next => cases hmem
    · have hscope : t.scope = .ofEntries (s.declarations t.statements) := hlinked.scope
      change (s.declarations m.moved).foldl (m.scope id) t.scope =
        .ofEntries (s'.declarations (m.statements id t.statements))
      rw [hscope, scope_of_move hnodup hold,
        declarations_congr fun st _ => hmoves.declared?_eq st]
  | _ =>
    refine ⟨hlinked.nodup, fun child hmem => hstays child hmem fun hmoved => ?_, hlinked.scope⟩
    obtain rfl := h.eq_source hblock hmoves hlinked hmem hmoved
    rw [hc] at hsource
    cases hsource

end Moves

/-! ## Edits -/

/-- A change keeps a store linked. -/
theorem LinkedOn.run {e : Edit} (h : LinkedOn kinds s) (hblock : kinds .block)
    (hunfilled : e.AddsUnfilledOf kinds) (hrun : e.run s = .ok s') : LinkedOn kinds s' := by
  cases e with
  | alloc c span =>
    obtain ⟨⟨id, s₁⟩, halloc, hpure⟩ := ok_of_bind hrun
    cases hpure
    exact h.alloc hunfilled halloc
  | attach child parent =>
    obtain ⟨-, hroot, rfl⟩ := attach_eq_ok_iff.mp hrun
    exact h.link (List.forall_mem_singleton.mpr hroot)
  | adopt parent children =>
    obtain ⟨-, hroots, rfl⟩ := eq_link_of_adopt hrun
    exact h.link fun child hchild => (hroots child hchild).2
  | addItem module name item =>
    obtain ⟨result, hadd, hpure⟩ := ok_of_bind hrun
    cases hpure
    cases result with
    | error existing => exact h
    | ok s₁ => exact h.addItem hadd
  | append block statement =>
    obtain ⟨result, happend, hpure⟩ := ok_of_bind hrun
    cases hpure
    cases result with
    | error existing => exact h
    | ok s₁ => exact h.append happend
  | split block place =>
    obtain ⟨result, hsplit, hpure⟩ := ok_of_bind hrun
    cases hpure
    cases result with
    | error refusal => exact h
    | ok result =>
      obtain ⟨_, _, _, s₁, -, -, -, hadded, hmoves⟩ := moves_of_split hsplit
      exact (h.added hadded (linkedAt_emptyBlock s₁ s.fresh)).move hblock hmoves
  | relocate source target start =>
    obtain ⟨⟨count, s₁⟩, hrelocate, hpure⟩ := ok_of_bind hrun
    cases hpure
    obtain ⟨_, -, -, hmoves⟩ := moves_of_relocate hrelocate
    exact h.move hblock hmoves

/-- What each of some changes keeps, all of them keep. -/
theorem foldlM_run_induction {Q : Store → Prop} {edits : List Edit}
    (hstep : ∀ e ∈ edits, ∀ s s', Q s → e.run s = .ok s' → Q s') (h : Q s)
    (hrun : edits.foldlM Edit.run s = .ok s') : Q s' := by
  induction edits generalizing s with
  | nil =>
    cases hrun
    exact h
  | cons e edits ih =>
    rw [List.foldlM_cons] at hrun
    obtain ⟨s₁, hfirst, hrest⟩ := ok_of_bind hrun
    exact ih (fun d hd => hstep d (by simp [hd])) (hstep e (by simp) s s₁ h hfirst) hrest

/-- Changes keep a store linked. -/
theorem Linked.foldlM_run {edits : List Edit} (h : Linked s)
    (hunfilled : ∀ e ∈ edits, e.AddsUnfilled) (hrun : edits.foldlM Edit.run s = .ok s') :
    Linked s' := by
  refine foldlM_run_induction (fun e he s s' hs hstep => ?_) h hrun
  exact linked_iff.mpr ((linked_iff.mp hs).run trivial ((hunfilled e he).of_kinds _) hstep)

/-- The links of a store agree, and so do its scopes. -/
structure Consistent (s : Store) : Prop where
  /-- A node lists a child once, and the child names it as its parent. -/
  child : ∀ p children, s.children p = .ok children →
    children.Nodup ∧ ∀ child ∈ children, s.parent child = .ok (some p)
  /-- No other node lists the child. -/
  sole : ∀ p q children others, s.children p = .ok children → s.children q = .ok others →
    ∀ child ∈ children, child ∈ others → p = q
  /-- The scope of a module lists its items. -/
  items : ∀ id m, s.read .module id = .ok m → m.scope.nodes = m.items
  /-- The scope of a block lists the first declaration of each name, in order. -/
  blocks : ∀ id b, s.read .block id = .ok b →
    b.scope.entries.Sublist (s.declarations b.statements) ∧
      ∀ e, e ∈ b.scope.entries ↔ IsFirst e (s.declarations b.statements)

theorem Linked.consistent (h : Linked s) : s.Consistent where
  child p children hchildren := by
    obtain ⟨n, hn, rfl⟩ := exists_of_children hchildren
    have hlinked := h p n.construct (construct?_of_get? hn)
    refine ⟨hlinked.nodup, fun child hmem => ?_⟩
    obtain ⟨m, hm, hparent⟩ := hlinked.child child hmem
    rw [Store.parent, node_eq_ok_iff.mpr hm]
    exact congrArg Except.ok hparent
  sole p q children others hchildren hothers child hmem hmem' := by
    obtain ⟨n, hn, rfl⟩ := exists_of_children hchildren
    obtain ⟨m, hm, rfl⟩ := exists_of_children hothers
    have hp := h p n.construct (construct?_of_get? hn)
    have hq := h q m.construct (construct?_of_get? hm)
    exact hp.eq_of_mem hq hmem hmem'
  items id m hm := (h id _ (read_module_eq_ok_iff.mp hm)).scope
  blocks id b hb := by
    have hscope : b.scope = .ofEntries (s.declarations b.statements) :=
      (h id _ (read_block_eq_ok_iff.mp hb)).scope
    rw [hscope]
    exact ⟨Scope.sublist_ofEntries _, fun e => Scope.mem_ofEntries_iff⟩

/-- A store that changes have made is consistent, whatever they were. -/
theorem consistent_of_edits {edits : List Edit} (hunfilled : ∀ e ∈ edits, e.AddsUnfilled)
    (hrun : edits.foldlM Edit.run .empty = .ok s) : s.Consistent :=
  (linked_empty.foldlM_run hunfilled hrun).consistent

/-- Two blocks declare a variable each, in two spellings, and one takes in what the other holds.
The block and a struct then belong to a module. -/
def reunion : List Edit :=
  [.alloc .emptyBlock none, .alloc .emptyBlock none, .alloc (.literal (.bool true)) none,
    .alloc (.varDecl ⟨⟨"x"⟩, none, ⟨2⟩⟩) none, .alloc (.literal (.bool false)) none,
    .alloc (.varDecl ⟨⟨"X"⟩, none, ⟨4⟩⟩) none, .append ⟨0⟩ ⟨3⟩, .append ⟨1⟩ ⟨5⟩,
    .relocate ⟨0⟩ ⟨1⟩ 0, .relocate ⟨1⟩ ⟨1⟩ 0, .split ⟨0⟩ 0, .alloc (.module ⟨⟨"m"⟩, [], .empty⟩) none,
    .alloc (.struct ⟨⟨"s"⟩, .empty⟩) none, .addItem ⟨7⟩ ⟨"s"⟩ ⟨8⟩, .adopt ⟨8⟩ [⟨0⟩, ⟨1⟩],
    .attach ⟨6⟩ ⟨7⟩]

/-- The declaration that came first is the one in scope. -/
theorem consistent_of_edits_reunion : ∃ s, reunion.foldlM Edit.run .empty = .ok s ∧
    s.read .block ⟨1⟩ = .ok ⟨[⟨5⟩, ⟨3⟩], ⟨[(⟨"X"⟩, ⟨5⟩)]⟩⟩ ∧ s.Consistent := by
  have hread : (reunion.foldlM Edit.run .empty >>= fun s => s.read .block ⟨1⟩) =
      .ok ⟨[⟨5⟩, ⟨3⟩], ⟨[(⟨"X"⟩, ⟨5⟩)]⟩⟩ := by decide +kernel
  obtain ⟨s, hrun, hread⟩ := ok_of_bind hread
  refine ⟨s, hrun, hread, consistent_of_edits ?_ hrun⟩
  simp [reunion, Edit.AddsUnfilled, Construct.Unfilled, Construct.emptyBlock]

end Store

end FrontEnd
