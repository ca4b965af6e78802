import FrontEnd.Proofs.Tree.Edits

/-!
# Splitting a block and joining it again

A block of a store that edits have made can be split at each of its statements, and anywhere if it
is empty.  What comes of it is a new block beside it, with the statements from there on.  Moving
these back gives the store as it was, but for the new block, which stays behind empty.

Nothing is asked of the place of a block in its tree: it may hold statements of any kind, itself
among them, and may be nobody's child.  The scopes come back because a scope is determined by the
statements of its block, so that it is enough to follow the statements.

## Main definitions

* `Store.Edited`: the stores that edits make of the empty one.
* `Store.SplitAt`: what a split makes of a store.
* `Move.back`: the move that undoes a move into an empty block.

## Main statements

* `Store.Joined.run`, `Store.Edited.joined`: in a store that edits have made, parents exist and
  blocks are linked.
* `Store.Moves.eq_of_back`: moving statements away and back changes nothing.
* `Store.split_and_rejoin`: what splitting a block does, and how to undo it.
-/

namespace FrontEnd

namespace Edit

/-- A node is given a parent that the store has. -/
def AttachesWithin (s : Store) : Edit → Prop
  | .attach _ parent | .adopt parent _ => ∃ n, s.get? parent = some n
  | _ => True

end Edit

namespace Move

/-- The move of the same statements to where they came from. -/
def back (m : Move) : Move := ⟨m.target, m.source, [], m.moved⟩

/-- A move changes the two blocks only. -/
theorem construct_of_ne {m : Move} {entries : List (Ident × NodeId)} {id : NodeId} {c : Construct}
    (hsource : id ≠ m.source) (htarget : id ≠ m.target) : m.construct entries id c = c := by
  cases c with
  | block b => simp [construct, statements, hsource, htarget, scope_of_ne hsource htarget]
  | _ => rfl

/-- The statements of a block after a move into an empty block and back. -/
theorem statements_back {m : Move} {id : NodeId} {old : List NodeId} (hne : m.source ≠ m.target)
    (hsource : id = m.source → old = m.kept ++ m.moved) (htarget : id = m.target → old = []) :
    m.back.statements id (m.statements id old) = old := by
  unfold Move.statements Move.back
  by_cases hs : id = m.source
  · have ht : id ≠ m.target := fun ht => hne (hs.symm.trans ht)
    simp [hs, hne, hsource hs]
  · by_cases ht : id = m.target
    · simp [ht, Ne.symm hne, htarget ht]
    · simp [hs, ht]

end Move

namespace Store

variable {s s' s₁ s₂ : Store} {id child parent block : NodeId} {n : Node} {c : Construct}
  {children : List NodeId} {b : BlockNode} {m : Move}

/-! ## Stores that edits have made -/

/-- A store that comes from the empty one by edits.  Blocks are added without statements, and a
node is attached to nodes of the store only. -/
inductive Edited : Store → Prop
  | empty : Edited .empty
  | edit {s s' : Store} {e : Edit} : Edited s → e.AddsUnfilledOf (· = .block) →
      e.AttachesWithin s → e.run s = .ok s' → Edited s'

/-- Every parent is a node of the store. -/
def ParentsExist (s : Store) : Prop :=
  ∀ id n p, s.get? id = some n → n.parent = some p → ∃ q, s.get? p = some q

/-- Parents exist, and blocks are linked. -/
structure Joined (s : Store) : Prop where
  parents : s.ParentsExist
  blocks : s.LinkedOn (· = .block)

theorem parentsExist_empty : ParentsExist .empty := by
  intro id n p hn
  simp at hn

/-- It is enough that no node is lost and that a parent is an old one or exists. -/
theorem ParentsExist.of_get? (h : s.ParentsExist)
    (hkeep : ∀ id n, s.get? id = some n → ∃ n', s'.get? id = some n')
    (hparent : ∀ id n' p, s'.get? id = some n' → n'.parent = some p →
      (∃ n, s.get? id = some n ∧ n.parent = some p) ∨ ∃ q, s'.get? p = some q) :
    s'.ParentsExist := by
  intro id n' p hn' hp
  rcases hparent id n' p hn' hp with ⟨n, hn, hp⟩ | hq
  · obtain ⟨q, hq⟩ := h id n p hn hp
    exact hkeep p q hq
  · exact hq

theorem ParentsExist.link (h : s.ParentsExist) (hparent : ∃ n, s.get? parent = some n) :
    (s.link parent children).ParentsExist := by
  have hkeep : ∀ id n, s.get? id = some n → ∃ n', (s.link parent children).get? id = some n' := by
    intro id n hn
    rw [get?_link, hn]
    split
    · exact ⟨_, rfl⟩
    · exact ⟨n, rfl⟩
  refine h.of_get? hkeep fun id n' p hn' hp => ?_
  rw [get?_link] at hn'
  split at hn'
  · obtain ⟨n, hn, rfl⟩ := Option.map_eq_some_iff.mp hn'
    obtain ⟨q, hq⟩ := hparent
    cases hp
    exact .inr (hkeep parent q hq)
  · exact .inl ⟨n', hn', hp⟩

theorem ParentsExist.added (h : s.ParentsExist) (hadded : Added n s s')
    (hparent : ∀ p, n.parent = some p → ∃ q, s.get? p = some q) : s'.ParentsExist := by
  have hkeep : ∀ id n', s.get? id = some n' → ∃ n', s'.get? id = some n' :=
    fun id n' hn' => ⟨n', hadded.get?_of_get? hn'⟩
  refine h.of_get? hkeep fun id n' p hn' hp => ?_
  rw [hadded] at hn'
  split at hn'
  · cases hn'
    obtain ⟨q, hq⟩ := hparent p hp
    exact .inr (hkeep p q hq)
  · exact .inl ⟨n', hn', hp⟩

theorem exists_get?_of_construct? (h : s.construct? id = some c) : ∃ n, s.get? id = some n := by
  obtain ⟨n, hn, -⟩ := Option.map_eq_some_iff.mp h
  exact ⟨n, hn⟩

theorem ParentsExist.takesIn {q : NodeId} {before adopted : List NodeId} (h : s.ParentsExist)
    (htakes : TakesIn s s' q before adopted) : s'.ParentsExist := by
  refine h.of_get? (fun id n hn => ?_) fun id n' p hn' hp => ?_
  · obtain ⟨n', hn', -⟩ := htakes.exists_node hn
    exact ⟨n', hn'⟩
  · refine (htakes.parent_cases hn' hp).symm.imp_right ?_
    rintro ⟨rfl, -⟩
    obtain ⟨k, hk, -⟩ := htakes.node
    exact ⟨k, hk⟩

theorem ParentsExist.move (h : s.ParentsExist) (hmoves : Moves m s s') : s'.ParentsExist := by
  have hkeep : ∀ id n, s.get? id = some n → ∃ n', s'.get? id = some n' := by
    intro id n hn
    rw [hmoves.node, hn]
    exact ⟨_, rfl⟩
  refine h.of_get? hkeep fun id n' p hn' hp => ?_
  rw [hmoves.node] at hn'
  obtain ⟨n, hn, rfl⟩ := Option.map_eq_some_iff.mp hn'
  change m.parent id n.parent = some p at hp
  rw [Move.parent] at hp
  split at hp
  next hmem =>
    cases hp
    obtain ⟨t, ht⟩ := hmoves.target (List.ne_nil_of_mem hmem)
    obtain ⟨q, hq⟩ := exists_get?_of_construct? ht
    exact .inr (hkeep m.target q hq)
  next => exact .inl ⟨n, hn, hp⟩

/-- A change leaves no parent out of the store. -/
theorem ParentsExist.run {e : Edit} (h : s.ParentsExist) (hwithin : e.AttachesWithin s)
    (hrun : e.run s = .ok s') : s'.ParentsExist := by
  cases e with
  | alloc c span =>
    obtain ⟨⟨id, s₁⟩, halloc, hpure⟩ := ok_of_bind hrun
    cases hpure
    exact h.takesIn (takesIn_of_alloc halloc).2.2
  | attach child parent =>
    obtain ⟨-, -, rfl⟩ := attach_eq_ok_iff.mp hrun
    have hlink : (s.link parent [child]).ParentsExist := h.link hwithin
    exact hlink
  | adopt parent children =>
    obtain ⟨-, -, rfl⟩ := eq_link_of_adopt hrun
    exact h.link hwithin
  | addItem module name item =>
    obtain ⟨result, hadd, hpure⟩ := ok_of_bind hrun
    cases hpure
    cases result with
    | error existing => exact h
    | ok s₁ =>
      obtain ⟨m, scope, hmodule, -, hne, hroot, rfl⟩ := exists_of_addItem hadd
      exact h.takesIn (takesIn_put hmodule hne hroot rfl)
  | append block statement =>
    obtain ⟨result, happend, hpure⟩ := ok_of_bind hrun
    cases hpure
    cases result with
    | error existing => exact h
    | ok s₁ =>
      obtain ⟨b, -, htakes⟩ := takesIn_of_appendStatement happend
      exact h.takesIn htakes
  | split block place =>
    obtain ⟨result, hsplit, hpure⟩ := ok_of_bind hrun
    cases hpure
    cases result with
    | error refusal => exact h
    | ok result =>
      obtain ⟨b, p, span, s₁, hget, -, -, hadded, hmoves⟩ := moves_of_split hsplit
      exact (h.added hadded fun q hq => h block _ q hget hq).move hmoves
  | relocate source target start =>
    obtain ⟨⟨count, s₁⟩, hrelocate, hpure⟩ := ok_of_bind hrun
    cases hpure
    obtain ⟨_, -, -, hmoves⟩ := moves_of_relocate hrelocate
    exact h.move hmoves

/-- A change keeps parents in the store and blocks linked. -/
theorem Joined.run {e : Edit} (h : s.Joined) (hunfilled : e.AddsUnfilledOf (· = .block))
    (hwithin : e.AttachesWithin s) (hrun : e.run s = .ok s') : s'.Joined :=
  ⟨h.parents.run hwithin hrun, h.blocks.run rfl hunfilled hrun⟩

theorem Edited.joined (h : s.Edited) : s.Joined := by
  induction h with
  | empty => exact ⟨parentsExist_empty, fun id c hc _ => linked_empty id c hc⟩
  | edit _ hunfilled hwithin hrun ih => exact ih.run hunfilled hwithin hrun

/-! ## Away and back -/

/-- The statements of a linked block determine its scope. -/
theorem LinkedOn.block_eq (h : s.LinkedOn (· = .block)) (h' : s'.LinkedOn (· = .block))
    (hdeclared : ∀ st, s'.declared? st = s.declared? st) {b b' : BlockNode}
    (hb : s.construct? id = some (.block b)) (hb' : s'.construct? id = some (.block b'))
    (hstatements : b'.statements = b.statements) : b' = b := by
  have hscope : b.scope = .ofEntries (s.declarations b.statements) := (h id _ hb rfl).scope
  have hscope' : b'.scope = .ofEntries (s'.declarations b'.statements) := (h' id _ hb' rfl).scope
  rw [hstatements, declarations_congr fun st _ => hdeclared st, ← hscope] at hscope'
  cases b
  cases b'
  exact congrArg₂ BlockNode.mk hstatements hscope'

/-- A construct after a move to an empty block and back. -/
theorem Moves.construct?_back (h : s.LinkedOn (· = .block)) (hmoves : Moves m s s₁)
    (hback : Moves m.back s₁ s₂) (hne : m.source ≠ m.target)
    (hempty : s.construct? m.target = some .emptyBlock) : s₂.construct? id = s.construct? id := by
  have hafter := hback.construct?_eq id
  rw [hmoves.construct?_eq id] at hafter
  cases hc : s.construct? id with
  | none => simpa [hc] using hafter
  | some c =>
    rw [hc, Option.map_some, Option.map_some] at hafter
    cases c with
    | block t =>
      have hstatements : m.back.statements id (m.statements id t.statements) = t.statements := by
        refine Move.statements_back hne ?_ ?_
        · rintro rfl
          obtain ⟨b, hsource, hstatements⟩ := hmoves.source
          cases hc.symm.trans hsource
          exact hstatements
        · rintro rfl
          cases hc.symm.trans hempty
          rfl
      have hdeclared : ∀ st, s₂.declared? st = s.declared? st :=
        fun st => (hback.declared?_eq st).trans (hmoves.declared?_eq st)
      have hlinked := (h.move rfl hmoves).move rfl hback
      have hblock := h.block_eq hlinked hdeclared hc hafter hstatements
      exact hafter.trans (congrArg (fun t => some (Construct.block t)) hblock)
    | _ => exact hafter

/-- A statement that moves is the child of the block that it comes from, so that it comes back to
its parent. -/
theorem Moves.parent_back (h : s.LinkedOn (· = .block)) (hmoves : Moves m s s₁)
    (hn : s.get? id = some n) : m.back.parent id (m.parent id n.parent) = n.parent := by
  by_cases hmem : id ∈ m.moved
  · obtain ⟨b, hsource, hstatements⟩ := hmoves.source
    obtain ⟨n', hn', hparent⟩ := (h _ _ hsource rfl).child id
      (show id ∈ b.statements by simp [hstatements, hmem])
    obtain rfl := Option.some.inj (hn.symm.trans hn')
    rw [Move.parent, if_pos (show id ∈ m.back.moved from hmem), hparent]
    rfl
  · rw [Move.parent, if_neg (show id ∉ m.back.moved from hmem), Move.parent, if_neg hmem]

/-- Statements that go to an empty block and come back leave the store as it was. -/
theorem Moves.eq_of_back (h : s.LinkedOn (· = .block)) (hmoves : Moves m s s₁)
    (hback : Moves m.back s₁ s₂) (hne : m.source ≠ m.target)
    (hempty : s.construct? m.target = some .emptyBlock) : s₂ = s := by
  refine ext_get? fun id => ?_
  have hnode := hback.node id
  rw [hmoves.node id] at hnode
  have hconstruct : s₂.construct? id = s.construct? id :=
    hmoves.construct?_back h hback hne hempty
  cases hn : s.get? id with
  | none => simpa [hn] using hnode
  | some n =>
    rw [hn, Option.map_some, Option.map_some] at hnode
    rw [construct?, construct?, hn, hnode] at hconstruct
    rw [hnode, Option.some.injEq, Node.mk.injEq]
    exact ⟨Option.some.inj hconstruct, hmoves.parent_back h hn, rfl⟩

/-! ## Splitting -/

/-- A scope lists the first declaration of each name among statements, in order. -/
def ListsFirst (s : Store) (statements : List NodeId) (scope : Scope) : Prop :=
  scope.entries.Sublist (s.declarations statements) ∧
    ∀ e, e ∈ scope.entries ↔ IsFirst e (s.declarations statements)

/-- What splitting the block `b` with this parent and span makes of a store. -/
structure SplitAt (s : Store) (block : NodeId) (b : BlockNode) (parent : Option NodeId)
    (span : Option Span) (place : Nat) (s' : Store) : Prop where
  /-- One node is added. -/
  size : s'.size = s.size + 1
  /-- The block keeps its first statements. -/
  kept : ∃ scope, s'.construct? block = some (.block ⟨b.statements.take place, scope⟩) ∧
    s'.ListsFirst (b.statements.take place) scope
  /-- The new node is a block beside it, with the other statements. -/
  added : ∃ scope, s'.get? s.fresh = some ⟨.block ⟨b.statements.drop place, scope⟩, parent, span⟩ ∧
    s'.ListsFirst (b.statements.drop place) scope
  moved : ∀ statement ∈ b.statements.drop place, s'.parent statement = .ok (some s.fresh)
  /-- Only the block changes its contents, and only what moves its parent. -/
  others : ∀ id n, s.get? id = some n → ∃ n', s'.get? id = some n' ∧ n'.span = n.span ∧
    (id ∉ b.statements.drop place → n'.parent = n.parent) ∧
    (id ≠ block → n'.construct = n.construct)

theorem added_nodes_push (s : Store) (n : Node) : Added n s ⟨s.nodes.push n⟩ := by
  rintro ⟨k⟩
  simp [get?, fresh, size, Array.getElem?_push]

theorem Added.eq_push (h : Added n s s') : s' = ⟨s.nodes.push n⟩ :=
  ext_get? fun id => (h id).trans (added_nodes_push s n id).symm

theorem Moves.size_eq (h : Moves m s s') : s'.size = s.size := by
  have hnone : ∀ k, s'.size ≤ k ↔ s.size ≤ k := by
    intro k
    have hsize : ∀ t : Store, t.size ≤ k ↔ t.get? ⟨k⟩ = none := fun t => get?_eq_none_iff.symm
    rw [hsize, hsize, h.node, Option.map_eq_none_iff]
  have hle := (hnone s.size).mpr (Nat.le_refl _)
  have hge := (hnone s'.size).mp (Nat.le_refl _)
  omega

theorem LinkedOn.listsFirst (h : s.LinkedOn (· = .block))
    (hb : s.construct? block = some (.block b)) : s.ListsFirst b.statements b.scope := by
  have hscope : b.scope = .ofEntries (s.declarations b.statements) := (h block _ hb rfl).scope
  rw [ListsFirst, hscope]
  exact ⟨Scope.sublist_ofEntries _, fun e => Scope.mem_ofEntries_iff⟩

section Split

variable {parent : Option NodeId} {span : Option Span} {place : Nat}

/-- Behind its last statement a block is not split. -/
theorem split_eq_error (hget : s.get? block = some ⟨.block b, parent, span⟩)
    (hplace : b.statements ≠ [] ∧ b.statements.length ≤ place) :
    s.split block place = .ok (.error (.outOfBounds place b.statements.length)) := by
  have hblock : s.construct? block = some (.block b) := construct?_of_get? hget
  rw [split, read_block_eq_ok_iff.mpr hblock]
  simp only [bind, Except.bind]
  rw [if_pos hplace]
  rfl

/-- A new node can be attached to a parent that exists, since that is not the new node itself. -/
theorem attach_push_eq_ok {p : NodeId} (hp : ∃ q, s.get? p = some q) :
    (s.push c span).attach s.fresh p = .ok ⟨s.nodes.push ⟨c, some p, span⟩⟩ := by
  obtain ⟨q, hq⟩ := hp
  have hnew : (s.push c span).get? s.fresh = some ⟨c, none, span⟩ := by
    rw [get?_push, if_pos rfl]
  have hattach := attach_eq_setParent (Ne.symm (ne_fresh hq)) hnew rfl
  rw [hattach, (added_of_attach hattach).eq_push]

/-- A block that is empty or long enough can be split. -/
theorem Joined.exists_split (h : s.Joined) (hget : s.get? block = some ⟨.block b, parent, span⟩)
    (hplace : ¬ (b.statements ≠ [] ∧ b.statements.length ≤ place)) :
    ∃ s', s.split block place = .ok (.ok (s.fresh, s')) := by
  have hblock : s.construct? block = some (.block b) := construct?_of_get? hget
  have hadded := added_nodes_push s ⟨.emptyBlock, parent, span⟩
  have hsource : (⟨s.nodes.push ⟨.emptyBlock, parent, span⟩⟩ : Store).construct? block =
      some (.block b) := construct?_of_get? (hadded.get?_of_get? hget)
  have htarget : (⟨s.nodes.push ⟨.emptyBlock, parent, span⟩⟩ : Store).construct? s.fresh =
      some .emptyBlock := construct?_of_get? hadded.get?_new
  obtain ⟨s', hrelocate⟩ := exists_relocate place hsource htarget fun statement hmem => by
    obtain ⟨n, hn, -⟩ := (h.blocks block _ hblock rfl).child statement hmem
    exact Option.isSome_of_eq_some (construct?_of_get? (hadded.get?_of_get? hn))
  refine ⟨s', ?_⟩
  rw [split, read_block_eq_ok_iff.mpr hblock]
  simp only [bind, Except.bind]
  rw [if_neg hplace, node_eq_ok_iff.mpr hget]
  cases parent with
  | none =>
    simp only [pure, Except.pure, push, hrelocate]
  | some p =>
    simp only [attach_push_eq_ok (h.parents block _ p hget rfl), hrelocate]
    rfl

section Cut

variable {s₁ : Store} (h : s.Joined) (hget : s.get? block = some ⟨.block b, parent, span⟩)
  (hadded : Added ⟨.emptyBlock, parent, span⟩ s s₁)
  (hmoves : Moves (.cut block s.fresh b.statements place) s₁ s')
include h hget hadded hmoves

/-- What a split does, in terms of what can be read. -/
theorem splitAt_of_moves : s.SplitAt block b parent span place s' := by
  have hblock : s.construct? block = some (.block b) := construct?_of_get? hget
  have hne := ne_fresh hget
  have hlinked : s'.LinkedOn (· = .block) :=
    (h.blocks.added hadded (linkedAt_emptyBlock s₁ s.fresh)).move rfl hmoves
  have hnode : ∀ {id n}, s₁.get? id = some n → s'.get? id =
      some ((Move.cut block s.fresh b.statements place).node
        (s₁.declarations (b.statements.drop place)) id n) := by
    intro id n hn
    rw [hmoves.node, hn]
    rfl
  have hstatements : (Move.cut block s.fresh b.statements place).statements block b.statements =
      b.statements.take place := by
    simp [Move.statements, Move.cut, hne]
  have hstatements' : (Move.cut block s.fresh b.statements place).statements s.fresh [] =
      b.statements.drop place := by
    simp [Move.statements, Move.cut, Ne.symm hne]
  constructor
  case size =>
    rw [hmoves.size_eq, hadded.eq_push]
    simp [size]
  case kept =>
    have hkept : s'.construct? block = some (.block ⟨_, _⟩) :=
      construct?_of_get? (hnode (hadded.get?_of_get? hget))
    rw [hstatements] at hkept
    exact ⟨_, hkept, hlinked.listsFirst hkept⟩
  case added =>
    have hnew : s'.get? s.fresh = some ⟨.block ⟨_, _⟩, _, span⟩ := hnode hadded.get?_new
    have hparent : (Move.cut block s.fresh b.statements place).parent s.fresh parent = parent := by
      rw [Move.parent, if_neg]
      intro hmem
      obtain ⟨n, hn, -⟩ := (h.blocks block _ hblock rfl).child _ (List.mem_of_mem_drop hmem)
      exact ne_fresh hn rfl
    rw [hstatements', hparent] at hnew
    exact ⟨_, hnew, hlinked.listsFirst (construct?_of_get? hnew)⟩
  case moved =>
    intro st hst
    obtain ⟨n, hn, -⟩ := (h.blocks block _ hblock rfl).child st (List.mem_of_mem_drop hst)
    rw [Store.parent, node_eq_ok_iff.mpr (hnode (hadded.get?_of_get? hn))]
    exact congrArg Except.ok (if_pos hst)
  case others =>
    intro id n hn
    refine ⟨_, hnode (hadded.get?_of_get? hn), rfl, fun hstays => if_neg hstays, fun hother => ?_⟩
    exact Move.construct_of_ne hother (ne_fresh hn)

/-- The statements that have left a block can be moved back. -/
theorem relocate_back (hsplit : s.SplitAt block b parent span place s') :
    s'.relocate s.fresh block 0 = .ok ((b.statements.drop place).length, s₁) := by
  have hlinked := h.blocks.added hadded (linkedAt_emptyBlock s₁ s.fresh)
  obtain ⟨scope, hkept, -⟩ := hsplit.kept
  obtain ⟨scope', hnew, -⟩ := hsplit.added
  have hsource : s'.construct? s.fresh = some (.block ⟨b.statements.drop place, scope'⟩) :=
    construct?_of_get? hnew
  obtain ⟨s₂, hrelocate⟩ := exists_relocate 0 hsource hkept fun st hst => by
    obtain ⟨n, hn, -⟩ := ((hlinked.move rfl hmoves) _ _ hsource rfl).child st hst
    exact Option.isSome_of_eq_some (construct?_of_get? hn)
  obtain ⟨b', hb', -, hback⟩ := moves_of_relocate hrelocate
  cases hsource.symm.trans hb'
  have hempty : s₁.construct? s.fresh = some .emptyBlock := construct?_of_get? hadded.get?_new
  rw [hrelocate, hmoves.eq_of_back hlinked hback (ne_fresh hget) hempty]
  rfl

end Cut

/-- A block that is empty or holds a statement at the place is split there, and the statements that
have left can be moved back, which restores the store but for the new block.  At a place behind its
last statement, any other block is left alone. -/
theorem split_and_rejoin (hs : s.Edited) (hget : s.get? block = some ⟨.block b, parent, span⟩)
    (place : Nat) :
    (b.statements ≠ [] ∧ b.statements.length ≤ place →
      s.split block place = .ok (.error (.outOfBounds place b.statements.length)) ∧
        (Edit.split block place).run s = .ok s) ∧
    (¬ (b.statements ≠ [] ∧ b.statements.length ≤ place) →
      ∃ s', s.split block place = .ok (.ok (s.fresh, s')) ∧
        s.SplitAt block b parent span place s' ∧
        s'.relocate s.fresh block 0 = .ok ((b.statements.drop place).length,
          ⟨s.nodes.push ⟨.emptyBlock, parent, span⟩⟩)) := by
  have hjoined := hs.joined
  constructor
  · intro hplace
    have hrefused := split_eq_error hget hplace
    exact ⟨hrefused, by rw [Edit.run, hrefused]; rfl⟩
  · intro hplace
    obtain ⟨s', hsplit⟩ := hjoined.exists_split hget hplace
    obtain ⟨b', parent', span', s₁, hget', -, -, hadded, hmoves⟩ := moves_of_split hsplit
    cases hget.symm.trans hget'
    have hat := splitAt_of_moves hjoined hget hadded hmoves
    have hback := relocate_back hjoined hget hadded hmoves hat
    rw [hadded.eq_push] at hback
    exact ⟨s', hsplit, hat, hback⟩

end Split

/-- Edits that attach nothing themselves. -/
theorem Edited.foldlM_run {edits : List Edit} (h : s.Edited)
    (hunfilled : ∀ e ∈ edits, e.AddsUnfilledOf (· = .block))
    (hwithin : ∀ e ∈ edits, ∀ s, e.AttachesWithin s) (hrun : edits.foldlM Edit.run s = .ok s') :
    s'.Edited :=
  foldlM_run_induction (fun e he s _ hs => hs.edit (hunfilled e he) (hwithin e he s)) h hrun

/-- A block that declares a variable twice, in two spellings, inside the block that one of the
declarations comes from. -/
def twice : List Edit :=
  [.alloc .emptyBlock none, .alloc .emptyBlock none, .alloc (.literal (.bool true)) none,
    .alloc (.varDecl ⟨⟨"x"⟩, none, ⟨2⟩⟩) none, .alloc (.literal (.bool false)) none,
    .alloc (.varDecl ⟨⟨"X"⟩, none, ⟨4⟩⟩) none, .append ⟨0⟩ ⟨3⟩, .append ⟨1⟩ ⟨5⟩,
    .relocate ⟨0⟩ ⟨1⟩ 0, .append ⟨0⟩ ⟨1⟩]

/-- The second declaration comes into scope while it is away. -/
theorem split_and_rejoin_twice : ∃ s, twice.foldlM Edit.run .empty = .ok s ∧
    s.get? ⟨1⟩ = some ⟨.block ⟨[⟨5⟩, ⟨3⟩], ⟨[(⟨"X"⟩, ⟨5⟩)]⟩⟩, some ⟨0⟩, none⟩ ∧
    s.split ⟨1⟩ 2 = .ok (.error (.outOfBounds 2 2)) ∧
    ∃ s', s.split ⟨1⟩ 1 = .ok (.ok (s.fresh, s')) ∧
      s.SplitAt ⟨1⟩ ⟨[⟨5⟩, ⟨3⟩], ⟨[(⟨"X"⟩, ⟨5⟩)]⟩⟩ (some ⟨0⟩) none 1 s' ∧
      s'.relocate s.fresh ⟨1⟩ 0 =
        .ok (1, ⟨s.nodes.push ⟨.emptyBlock, some ⟨0⟩, none⟩⟩) := by
  have hread : (twice.foldlM Edit.run .empty >>= fun s => s.node ⟨1⟩) =
      .ok ⟨.block ⟨[⟨5⟩, ⟨3⟩], ⟨[(⟨"X"⟩, ⟨5⟩)]⟩⟩, some ⟨0⟩, none⟩ := by decide +kernel
  obtain ⟨s, hrun, hnode⟩ := ok_of_bind hread
  have hget := node_eq_ok_iff.mp hnode
  have hs : s.Edited := by
    refine Edited.empty.foldlM_run ?_ ?_ hrun
    · simp [twice, Edit.AddsUnfilledOf, Construct.Unfilled, Construct.emptyBlock, Construct.kind]
    · simp [twice, Edit.AttachesWithin]
  exact ⟨s, hrun, hget, ((split_and_rejoin hs hget 2).1 (by decide)).1,
    (split_and_rejoin hs hget 1).2 (by decide)⟩

end Store

end FrontEnd
