import FrontEnd.Proofs.Grammar.Trees
import FrontEnd.Proofs.Tree.Relocation

/-!
# Moving the statements of a parsed module

Statements of a block of a module may go to another block of the same module, or to a new block
that is split off.  Neither operation looks at where the target stands.

A block that is split off has the parent of the block that it comes from, but the parent does not
list it.  So what has gone there is not reached from the module any more, though the way up from
it still ends there.

A target that stands at or below a moved statement has that statement as its child, and is above
it as well.  Then the way up from whatever was moved never ends.  In every other case the ways up
end as before.

## Main definitions

* `Store.Lists`, `Store.Under`: a child of a node, and a node at or below some others.
* `Store.SplitOff`: where the nodes of a module stand after a block was split.
* `Store.Climbs`: the way up from a node comes to an end.

## Main statements

* `splitOff_of_split`: what is left of a module, and what is not, when a block is split.
* `climbs_of_relocate`: from which nodes the ways up end when statements have been moved.
-/

namespace FrontEnd

namespace Store

variable {base s s' : Store} {root top id p child : NodeId} {n : Node}
  {steps up : List (NodeId × Node)}

/-! ## Children -/

/-- A node lists another among its children. -/
def Lists (s : Store) (p child : NodeId) : Prop :=
  ∃ n, s.get? p = some n ∧ child ∈ n.construct.children

/-- A node is at or below one of some nodes. -/
def Under (s : Store) (tops : List NodeId) (id : NodeId) : Prop := ∃ top ∈ tops, s.Below top id

theorem Below.snoc (h : s.Below top p) (hlists : s.Lists p child) : s.Below top child := by
  obtain ⟨n, hn, hmem⟩ := hlists
  exact h.child hn hmem

theorem Below.cases_last (h : s.Below top id) : id = top ∨ ∃ p, s.Below top p ∧ s.Lists p id := by
  cases h with
  | refl => exact .inl rfl
  | child hbelow hget hmem => exact .inr ⟨_, hbelow, _, hget, hmem⟩

/-- A new node is above exactly the nodes that have it on their way up. -/
theorem LinkedIn.mem_chain_iff {inside : NodeId → Prop} (h : LinkedIn inside s) (htop : inside top)
    (hchain : Chain s (some id) steps) : top ∈ steps.map Prod.fst ↔ s.Below top id := by
  constructor
  · intro hmem
    have hancestors : (s.ancestors id).steps = steps := by rw [hchain.ancestors_eq]
    exact h.below_of_ancestorsWithin htop (hancestors ▸ hmem)
  · intro hbelow
    induction hbelow generalizing steps with
    | refl =>
      cases hchain with
      | cons hget hrest => simp
    | @child p child n hbelow hget hmem ih =>
      obtain ⟨-, m, hm, hparent⟩ := h.child p n (h.inside_of_below htop hbelow) hget child hmem
      cases hchain with
      | cons hchild hrest =>
        rw [Option.some.inj (hchild.symm.trans hm), hparent] at hrest
        exact List.mem_cons_of_mem _ (ih hrest)

section Tidy

variable (h : Tidy base s) (hbase : Inward base)
include h hbase

/-- A new node is listed by its parent, and by no other node. -/
theorem Tidy.lists_iff_parent (hid : base.size ≤ id.index) (hn : s.get? id = some n) :
    s.Lists p id ↔ n.parent = some p := by
  constructor
  · rintro ⟨m, hm, hmem⟩
    obtain ⟨n', hn', hparent⟩ := h.parent_eq hbase hid hm hmem
    rwa [Option.some.inj (hn.symm.trans hn')]
  · intro hparent
    obtain ⟨-, m, hm, hmem⟩ := (h.orderly id n hid hn).parent p hparent
    exact ⟨m, hm, hmem⟩

theorem Tidy.eq_of_lists (hp : base.size ≤ p.index) (hchild : s.Lists p child) {q : NodeId}
    (hother : s.Lists q child) : q = p := by
  obtain ⟨n, hn, hmem⟩ := hchild
  obtain ⟨hnew, m, hm, hparent⟩ := (h.linked hbase).child p n hp hn child hmem
  rw [(h.lists_iff_parent hbase hnew hm).mp hother] at hparent
  exact Option.some.inj hparent

end Tidy

/-! ## Moves -/

namespace Moves

variable {m : Move} (hmoves : Moves m s s')
include hmoves

/-- A moved statement is listed by the target, and any other child by the node that listed it. -/
theorem lists_iff (hnodup : (m.kept ++ m.moved).Nodup)
    (hsole : ∀ st ∈ m.moved, ∀ p, s.Lists p st → p = m.source) :
    s'.Lists p child ↔ s.Lists p child ∧ child ∉ m.moved ∨ p = m.target ∧ child ∈ m.moved := by
  obtain ⟨b, hsource, hstatements⟩ := hmoves.source
  have hapart : child ∈ m.kept → child ∉ m.moved := fun hkept hmoved =>
    List.disjoint_of_nodup_append hnodup hkept hmoved
  constructor
  · rintro ⟨n', hn', hmem⟩
    rw [hmoves.node] at hn'
    obtain ⟨n, hn, rfl⟩ := Option.map_eq_some_iff.mp hn'
    have hold : child ∈ n.construct.children → child ∈ m.moved → p = m.source :=
      fun hchild hmoved => hsole child hmoved p ⟨n, hn, hchild⟩
    obtain ⟨c, parent, span⟩ := n
    have hblock : p = m.source → c = .block b := by
      rintro rfl
      rw [construct?, hn] at hsource
      exact Option.some.inj hsource
    cases c with
    | block t =>
      rcases List.mem_append.mp (show child ∈ m.statements p t.statements from hmem) with
        hfirst | hlast
      · refine .inl ?_
        split at hfirst
        next heq =>
          cases hblock heq
          refine ⟨⟨_, hn, ?_⟩, hapart hfirst⟩
          change child ∈ b.statements
          simp [hstatements, hfirst]
        next hne => exact ⟨⟨_, hn, hfirst⟩, fun hmoved => hne (hold hfirst hmoved)⟩
      · split at hlast
        next heq => exact .inr ⟨heq, hlast⟩
        next => cases hlast
    | _ => exact .inl ⟨⟨_, hn, hmem⟩, fun hmoved => by cases hblock (hold hmem hmoved)⟩
  · rintro (⟨⟨n, hn, hmem⟩, hmoved⟩ | ⟨rfl, hmoved⟩)
    · refine ⟨_, by rw [hmoves.node, hn]; rfl, ?_⟩
      obtain ⟨c, parent, span⟩ := n
      cases c with
      | block t =>
        refine List.mem_append_left _ ?_
        split
        next heq =>
          rw [construct?, ← heq, hn] at hsource
          cases hsource
          have hmem : child ∈ b.statements := hmem
          simpa [hstatements, hmoved] using hmem
        next => exact hmem
      | _ => exact hmem
    · obtain ⟨t, ht⟩ := hmoves.target (List.ne_nil_of_mem hmoved)
      obtain ⟨⟨_, parent, span⟩, hn, rfl⟩ := Option.map_eq_some_iff.mp ht
      refine ⟨_, by rw [hmoves.node, hn]; rfl, List.mem_append_right _ ?_⟩
      rwa [if_pos rfl]

theorem get?_eq (hn : s.get? id = some n) : ∃ n', s'.get? id = some n' ∧
    n'.parent = if id ∈ m.moved then some m.target else n.parent :=
  ⟨_, by rw [hmoves.node, hn]; rfl, rfl⟩

/-- A way up that meets no moved statement is as it was. -/
theorem chain_of_apart {start : Option NodeId} (hchain : Chain s start steps)
    (hapart : ∀ e ∈ steps, e.1 ∉ m.moved) :
    ∃ steps', Chain s' start steps' ∧ steps'.map Prod.fst = steps.map Prod.fst := by
  refine hchain.of_parents fun id n hmem hn => ?_
  obtain ⟨n', hn', hparent⟩ := hmoves.get?_eq hn
  exact ⟨n', hn', hparent.trans (if_neg (hapart (id, n) hmem))⟩

/-- A way up goes on as that of the target from the first moved statement on. -/
theorem chain_of_target {start : Option NodeId} (hup : Chain s' (some m.target) up)
    (hchain : Chain s start steps) : ∃ steps', Chain s' start steps' ∧
      ∀ id ∈ steps.map Prod.fst, id ∈ up.map Prod.fst → id ∈ steps'.map Prod.fst := by
  refine hchain.redirect hup fun id n hn => ?_
  obtain ⟨n', hn', hparent⟩ := hmoves.get?_eq hn
  split at hparent
  · exact ⟨n', hn', .inl hparent⟩
  · exact ⟨n', hn', .inr hparent⟩

end Moves

/-! ## Splitting -/

theorem Added.lists_iff (hadded : Added n s s') (hnone : n.construct.children = []) :
    s'.Lists p child ↔ s.Lists p child := by
  constructor
  · rintro ⟨k, hk, hmem⟩
    rw [hadded] at hk
    split at hk
    · obtain rfl := Option.some.inj hk
      rw [hnone] at hmem
      cases hmem
    · exact ⟨k, hk, hmem⟩
  · rintro ⟨k, hk, hmem⟩
    exact ⟨k, hadded.get?_of_get? hk, hmem⟩

/-- Where the nodes below a root stand after a block was split at some statements. -/
structure SplitOff (s s' : Store) (root block new : NodeId) (moved : List NodeId) : Prop where
  /-- The new block has the parent of the old one, which does not list it. -/
  parent : s'.parent new = s.parent block
  unlisted : ∀ p, ¬ s'.Lists p new
  /-- What was at or below the moved statements is below the new block, and not below the root. -/
  below_root : ∀ id, s'.Below root id ↔ s.Below root id ∧ ¬ s.Under moved id
  below_new : ∀ id, s'.Below new id ↔ id = new ∨ s.Under moved id
  /-- Every other node is listed by its parent, and by no other node. -/
  lists_iff : ∀ id, s.Below root id → ∀ p, s'.Lists p id ↔ s'.parent id = .ok (some p)
  /-- The way up still ends at the root. -/
  ancestors : ∀ id, s.Below root id →
    (s'.ancestors id).cut = none ∧ root ∈ (s'.ancestors id).steps.map Prod.fst

section Blocks

variable {block new : NodeId} {b : BlockNode} {moved : List NodeId}

/-- Some of the statements of a new block. -/
structure Tidy.Block (base s : Store) (block : NodeId) (b : BlockNode) (moved : List NodeId) :
    Prop where
  tidy : Tidy base s
  inward : Inward base
  new : base.size ≤ block.index
  construct : s.construct? block = some (.block b)
  chain : ∃ steps, Chain s (some block) steps
  subset : moved ⊆ b.statements

/-- Some nodes have gone to a node, and every other node is listed where it was. -/
def Regrouped (s s' : Store) (moved : List NodeId) (new : NodeId) : Prop :=
  ∀ p child, s'.Lists p child ↔ s.Lists p child ∧ child ∉ moved ∨ p = new ∧ child ∈ moved

namespace Tidy.Block

variable (h : Tidy.Block base s block b moved)
include h

theorem lists {st : NodeId} : s.Lists block st ↔ st ∈ b.statements := by
  obtain ⟨n, hn, hc⟩ := Option.map_eq_some_iff.mp h.construct
  constructor
  · rintro ⟨m, hm, hmem⟩
    rwa [Option.some.inj (hm.symm.trans hn), hc] at hmem
  · intro hmem
    exact ⟨n, hn, by rwa [hc]⟩

theorem nodup : b.statements.Nodup := by
  obtain ⟨n, hn, hc⟩ := Option.map_eq_some_iff.mp h.construct
  have hnodup := (h.tidy.orderly block n h.new hn).nodup
  rwa [hc] at hnodup

/-- A statement is a new node, which no other node lists. -/
theorem of_mem {st : NodeId} (hst : st ∈ b.statements) : base.size ≤ st.index ∧
    (∃ n, s.get? st = some n) ∧ ∀ p, s.Lists p st → p = block := by
  have hlists := h.lists.mpr hst
  obtain ⟨n, hn, hmem⟩ := hlists
  obtain ⟨hnew, m, hm, -⟩ := (h.tidy.linked h.inward).child block n h.new hn st hmem
  exact ⟨hnew, ⟨m, hm⟩, fun p => h.tidy.eq_of_lists h.inward h.new ⟨n, hn, hmem⟩⟩

/-- A block is under none of its statements. -/
theorem not_under : ¬ s.Under moved block := by
  rintro ⟨st, hst, hbelow⟩
  obtain ⟨steps, hchain⟩ := h.chain
  obtain ⟨n, hn, hmem⟩ := h.lists.mpr (h.subset hst)
  exact (h.tidy.linked h.inward).not_below_child h.new hn hchain hmem hbelow

/-- The nodes under some statements are those that meet one of them on their way up. -/
theorem under_iff (hchain : Chain s (some id) steps) :
    s.Under moved id ↔ ∃ e ∈ steps, e.1 ∈ moved := by
  have hmem : ∀ st ∈ moved, st ∈ steps.map Prod.fst ↔ s.Below st id := fun st hst =>
    (h.tidy.linked h.inward).mem_chain_iff (h.of_mem (h.subset hst)).1 hchain
  constructor
  · rintro ⟨st, hst, hbelow⟩
    obtain ⟨e, he, rfl⟩ := List.mem_map.mp ((hmem st hst).mpr hbelow)
    exact ⟨e, he, hst⟩
  · rintro ⟨e, he, hst⟩
    exact ⟨e.1, hst, (hmem e.1 hst).mp (List.mem_map_of_mem he)⟩

/-- What is below the node that the statements have gone to. -/
theorem below_new_iff (hnew : s.get? new = none) (hlists : Regrouped s s' moved new) :
    s'.Below new id ↔ id = new ∨ s.Under moved id := by
  constructor
  · intro hbelow
    induction hbelow with
    | refl => exact .inl rfl
    | @child p child n _ hget hmem ih =>
      right
      rcases (hlists p child).mp ⟨n, hget, hmem⟩ with ⟨hlisted, -⟩ | ⟨-, hmoved⟩
      · rcases ih with rfl | ⟨st, hst, hbelow⟩
        · obtain ⟨m, hm, -⟩ := hlisted
          rw [hnew] at hm
          cases hm
        · exact ⟨st, hst, hbelow.snoc hlisted⟩
      · exact ⟨child, hmoved, .refl child⟩
  · rintro (rfl | ⟨st, hst, hbelow⟩)
    · exact .refl id
    · induction hbelow with
      | refl => exact (Below.refl new).snoc ((hlists new st).mpr (.inr ⟨rfl, hst⟩))
      | @child p child n hbelow hget hmem ih =>
        have hlisted : s.Lists p child := ⟨n, hget, hmem⟩
        refine ih.snoc ((hlists p child).mpr (.inl ⟨hlisted, fun hmoved => ?_⟩))
        -- Only the block lists its statements, and it is under none of them.
        obtain rfl := (h.of_mem (h.subset hmoved)).2.2 p hlisted
        exact h.not_under ⟨st, hst, hbelow⟩

end Tidy.Block

section Root

variable (h : Holds base s [.of [.module] root]) (hbase : Inward base)
include h hbase

theorem Holds.tidyBlock (place : Nat) (hbelow : s.Below root block)
    (hb : s.read .block block = .ok b) :
    Tidy.Block base s block b (b.statements.drop place) := by
  obtain ⟨steps, hchain, -⟩ := (h.treed hbase).chain_of_below hbelow
  exact ⟨h.tidy, hbase, (h.of_below hbelow).1, read_block_eq_ok_iff.mp hb, ⟨steps, hchain⟩,
    List.drop_subset _ _⟩

/-- What is below a root after statements have gone to a node that it does not reach. -/
theorem Holds.below_root_iff (hb : Tidy.Block base s block b moved) (hnew : s.get? new = none)
    (hlists : Regrouped s s' moved new) :
    s'.Below root id ↔ s.Below root id ∧ ¬ s.Under moved id := by
  constructor
  · intro hbelow
    induction hbelow with
    | refl =>
      -- The root is not listed, so it could only be one of the statements.
      have hunlisted : ∀ p, ¬ s.Lists p root := by
        intro p hp
        obtain ⟨hroot, n, hn, hparent, -⟩ := h.stands _ (List.mem_singleton.mpr rfl)
        rw [(h.tidy.lists_iff_parent hbase hroot hn).mp hp] at hparent
        cases hparent
      refine ⟨.refl root, ?_⟩
      rintro ⟨st, hst, hbelow⟩
      rcases hbelow.cases_last with rfl | ⟨p, -, hp⟩
      · exact hunlisted block (hb.lists.mpr (hb.subset hst))
      · exact hunlisted p hp
    | @child p child n _ hget hmem ih =>
      obtain ⟨hbelow, hunder⟩ := ih
      rcases (hlists p child).mp ⟨n, hget, hmem⟩ with ⟨hlisted, hmoved⟩ | ⟨rfl, -⟩
      · refine ⟨hbelow.snoc hlisted, ?_⟩
        rintro ⟨st, hst, hst'⟩
        rcases hst'.cases_last with rfl | ⟨q, hq, hq'⟩
        · exact hmoved hst
        · obtain rfl := h.tidy.eq_of_lists hbase (h.of_below hbelow).1 hlisted hq'
          exact hunder ⟨st, hst, hq⟩
      · obtain ⟨-, m, hm, -⟩ := h.of_below hbelow
        rw [hnew] at hm
        cases hm
  · rintro ⟨hbelow, hunder⟩
    induction hbelow with
    | refl => exact .refl root
    | @child p child n hbelow hget hmem ih =>
      have hlisted : s.Lists p child := ⟨n, hget, hmem⟩
      have hmoved : child ∉ moved := fun hst => hunder ⟨child, hst, .refl child⟩
      have hp : ¬ s.Under moved p := by
        rintro ⟨st, hst, hst'⟩
        exact hunder ⟨st, hst, hst'.snoc hlisted⟩
      exact (ih hp).snoc ((hlists p child).mpr (.inl ⟨hlisted, hmoved⟩))

end Root

section Split

variable {s₁ : Store} {parent : Option NodeId} {span : Option Span} {place : Nat}
  (hb : Tidy.Block base s block b (b.statements.drop place))
  (hadded : Added ⟨.emptyBlock, parent, span⟩ s s₁)
  (hmoves : Moves (.cut block s.fresh b.statements place) s₁ s')
include hb

theorem Tidy.Block.fresh_not_mem : s.fresh ∉ b.statements.drop place := by
  intro hmem
  obtain ⟨-, ⟨n, hn⟩, -⟩ := hb.of_mem (hb.subset hmem)
  exact ne_fresh hn rfl

include hadded hmoves

/-- The new block lists what has gone there, and else each node lists what it listed. -/
theorem Tidy.Block.regrouped : Regrouped s s' (b.statements.drop place) s.fresh := by
  intro p child
  rw [hmoves.lists_iff, hadded.lists_iff rfl]
  · rfl
  · change (b.statements.take place ++ b.statements.drop place).Nodup
    rw [List.take_append_drop]
    exact hb.nodup
  · intro st hst q hq
    exact (hb.of_mem (hb.subset hst)).2.2 q ((hadded.lists_iff rfl).mp hq)

/-- The way up from the new block is that of the block that was split. -/
theorem Tidy.Block.chain_of_split (hget : s.get? block = some ⟨.block b, parent, span⟩)
    (hchain : Chain s parent steps) : ∃ up, Chain s' (some s.fresh) up ∧
      up.map Prod.fst = s.fresh :: steps.map Prod.fst := by
  have hafter := hchain.mono fun _ _ => hadded.get?_of_get?
  refine hmoves.chain_of_apart (.cons hadded.get?_new hafter) fun e he hst => ?_
  rcases List.mem_cons.mp he with rfl | he
  · exact hb.fresh_not_mem hst
  · exact hb.not_under ((hb.under_iff (.cons hget hchain)).mpr ⟨e, by simp [he], hst⟩)

end Split

/-- The root of a module is no block. -/
theorem Holds.ne_root (h : Holds base s [.of [.module] root])
    (hblock : s.construct? block = some (.block b)) : root ≠ block := by
  rintro rfl
  obtain ⟨-, n, hn, -, hkind, -⟩ := h.stands _ (List.mem_singleton.mpr rfl)
  rw [Child.node_of] at hn
  rw [construct?, hn, Option.map_some, Option.some.injEq] at hblock
  rw [Node.kind, hblock] at hkind
  simp [Child.of, Construct.kind] at hkind

/-- A block of a module is split. -/
theorem Holds.splitOff (h : Holds base s [.of [.module] root]) (hbase : Inward base)
    (hbelow : s.Below root block) {place : Nat}
    (hsplit : s.split block place = .ok (.ok (new, s'))) :
    ∃ b, s.read .block block = .ok b ∧ (b.statements = [] ∨ place < b.statements.length) ∧
      SplitOff s s' root block new (b.statements.drop place) := by
  obtain ⟨b, parent, span, s₁, hget, hplace, rfl, hadded, hmoves⟩ := moves_of_split hsplit
  have hread : s.read .block block = .ok b :=
    read_block_eq_ok_iff.mpr (by rw [construct?, hget]; rfl)
  have hb := h.tidyBlock hbase place hbelow hread
  have hlists := hb.regrouped hadded hmoves
  refine ⟨b, hread, hplace, ?_, fun p hp => ?_,
    fun id => h.below_root_iff hbase hb (get?_fresh s) hlists,
    fun id => hb.below_new_iff (get?_fresh s) hlists, fun id hid p => ?_, fun id hid => ?_⟩
  · obtain ⟨n', hn', hparent⟩ := hmoves.get?_eq hadded.get?_new
    rw [Store.parent, node_eq_ok_iff.mpr hn', Store.parent, node_eq_ok_iff.mpr hget]
    exact congrArg Except.ok (hparent.trans (if_neg hb.fresh_not_mem))
  · rcases (hlists p s.fresh).mp hp with ⟨⟨n, hn, hmem⟩, -⟩ | ⟨-, hmem⟩
    · have hlt := (h.tidy.inward hbase).child p n hn s.fresh hmem
      exact Nat.lt_irrefl _ hlt
    · exact hb.fresh_not_mem hmem
  · obtain ⟨hidnew, n, hn, -⟩ := h.of_below hid
    obtain ⟨n', hn', hparent⟩ := hmoves.get?_eq (hadded.get?_of_get? hn)
    have hread : s'.parent id = .ok n'.parent := by
      rw [Store.parent, node_eq_ok_iff.mpr hn']
      rfl
    rw [hlists p id, h.tidy.lists_iff_parent hbase hidnew hn, hread, hparent]
    by_cases hid : id ∈ b.statements.drop place
    · simp [Move.cut, hid, eq_comm]
    · simp [Move.cut, hid]
  · obtain ⟨rest, hchain, hroot⟩ := (h.treed hbase).chain_of_below hbelow
    cases hchain with
    | @cons _ n rest hn hrest =>
      obtain rfl := Option.some.inj (hn.symm.trans hget)
      obtain ⟨up, hup, hmap⟩ := hb.chain_of_split hadded hmoves hget hrest
      have hroot : root ∈ up.map Prod.fst := by
        rw [hmap]
        rcases List.mem_cons.mp hroot with heq | hroot
        · exact absurd heq (h.ne_root hb.construct)
        · exact List.mem_cons_of_mem _ hroot
      obtain ⟨steps, hchain, hroot'⟩ := (h.treed hbase).chain_of_below hid
      obtain ⟨steps', hchain', hmem⟩ := hmoves.chain_of_target hup
        (hchain.mono fun _ _ => hadded.get?_of_get?)
      rw [hchain'.ancestors_eq]
      exact ⟨rfl, hmem root hroot' hroot⟩

end Blocks

/-! ## Ways up -/

/-- The way up from a node comes to an end. -/
structure Climbs (s : Store) (id : NodeId) : Prop where
  uncut : (s.ancestors id).cut = none
  /-- It comes to no node twice, so that no node is above itself. -/
  nodup : ((s.ancestors id).steps.map Prod.fst).Nodup
  lookup : ∀ name, s.lookup id name ≠ .error .endless
  moduleOf : ∃ module, s.moduleOf id = .ok module

section Lookup

variable {start inner : NodeId} {name : Ident} {c : Construct}

theorem bind_ne_endless {α β : Type} {x : Except Fault α} {f : α → Except Fault β}
    (hx : x ≠ .error .endless) (hf : ∀ a, f a ≠ .error .endless) : (x >>= f) ≠ .error .endless := by
  cases x with
  | error fault =>
    intro h
    cases h
    exact hx rfl
  | ok a => exact hf a

theorem read_ne_endless {α : Type} {shape : Shape α} : s.read shape id ≠ .error .endless := by
  rw [read, construct, node]
  cases s.get? id with
  | none => simp [bind, Except.bind]
  | some n =>
    simp only [bind, Except.bind, pure, Except.pure]
    cases shape.view? n.construct <;> simp

theorem precedes_ne_endless {first second : NodeId} :
    s.precedes id first second ≠ .error .endless := by
  have hlocate : ∀ statement, s.locate id statement ≠ .error .endless :=
    fun statement => bind_ne_endless read_ne_endless fun b => by simp [pure, Except.pure]
  refine bind_ne_endless (hlocate first) fun i => bind_ne_endless (hlocate second) fun j => ?_
  split <;> simp [pure, Except.pure]

/-- What a name means in one construct is found without following links. -/
theorem visible_ne_endless : s.visible start inner name id c ≠ .error .endless := by
  cases c with
  | block b =>
    rw [visible]
    cases b.scope.lookup name with
    | none => simp [pure, Except.pure]
    | some decl =>
      by_cases hstart : id = start
      · simp [hstart, pure, Except.pure]
      · simp only [if_neg hstart]
        exact bind_ne_endless precedes_ne_endless fun found => by simp [pure, Except.pure]
  | function f =>
    exact bind_ne_endless read_ne_endless fun prototype =>
      bind_ne_endless read_ne_endless fun arguments => by simp [pure, Except.pure]
  | _ => simp [visible, pure, Except.pure]

theorem lookupAlong_ne_endless :
    s.lookupAlong start name none inner steps ≠ .error .endless := by
  induction steps generalizing inner with
  | nil => simp [lookupAlong]
  | cons e steps ih =>
    refine bind_ne_endless visible_ne_endless fun found => ?_
    cases found with
    | none => exact ih
    | some decl => simp [pure, Except.pure]

end Lookup

theorem Chain.climbs (h : Chain s (some id) steps) : s.Climbs id where
  uncut := by rw [h.ancestors_eq]
  nodup := by
    rw [h.ancestors_eq]
    have hnodup := h.nodup
    rw [← Function.comp_def, ← List.map_map] at hnodup
    exact hnodup.of_map _
  lookup name := by
    rw [Store.lookup, h.ancestors_eq]
    exact lookupAlong_ne_endless
  moduleOf := by
    rw [Store.moduleOf, h.ancestors_eq, Trail.first?]
    split
    · exact ⟨_, rfl⟩
    · exact ⟨_, rfl⟩

/-- A way up that is not cut leads to a root. -/
theorem chain_of_uncut {k : Nat} (h : (s.ancestorsWithin k id).cut = none) :
    Chain s (some id) (s.ancestorsWithin k id).steps := by
  induction k generalizing id with
  | zero => cases h
  | succ k ih =>
    rw [ancestorsWithin] at h ⊢
    cases hn : s.get? id with
    | none =>
      rw [hn] at h
      cases h
    | some n =>
      cases hp : n.parent with
      | none =>
        simp only [hp]
        exact .cons hn (hp ▸ .nil)
      | some p =>
        simp only [hn, hp] at h ⊢
        exact .cons hn (hp ▸ ih h)

/-- A way up that stays among nodes with a parent never ends. -/
theorem cut_eq_endless {k : Nat} {P : NodeId → Prop}
    (hclosed : ∀ id, P id → ∃ n p, s.get? id = some n ∧ n.parent = some p ∧ P p) (hid : P id) :
    (s.ancestorsWithin k id).cut = some .endless := by
  induction k generalizing id with
  | zero => rfl
  | succ k ih =>
    obtain ⟨n, p, hn, hp, hnext⟩ := hclosed id hid
    rw [ancestorsWithin, hn]
    simp only [hp]
    exact ih hnext

section Relocate

variable {block target : NodeId} {b t : BlockNode} {m : Move}

/-- Statements that take their own target with them stay among themselves. -/
theorem Tidy.Block.closed (hb : Tidy.Block base s block b m.moved) (hmoves : Moves m s s')
    (htarget : s.Under m.moved m.target) (hid : s.Under m.moved id) :
    ∃ n p, s'.get? id = some n ∧ n.parent = some p ∧ s.Under m.moved p := by
  by_cases hmoved : id ∈ m.moved
  · obtain ⟨-, ⟨n, hn⟩, -⟩ := hb.of_mem (hb.subset hmoved)
    obtain ⟨n', hn', hparent⟩ := hmoves.get?_eq hn
    exact ⟨n', _, hn', hparent.trans (if_pos hmoved), htarget⟩
  · obtain ⟨st, hst, hbelow⟩ := hid
    rcases hbelow.cases_last with rfl | ⟨p, hp, k, hk, hmem⟩
    · exact absurd hst hmoved
    · have hlinked := hb.tidy.linked hb.inward
      have hin := hlinked.inside_of_below (hb.of_mem (hb.subset hst)).1 hp
      obtain ⟨-, n, hn, hold⟩ := hlinked.child p k hin hk id hmem
      obtain ⟨n', hn', hparent⟩ := hmoves.get?_eq hn
      exact ⟨n', p, hn', (hparent.trans (if_neg hmoved)).trans hold, st, hst, hp⟩

/-- Of two blocks of a module, one takes in statements of the other. -/
theorem Holds.climbs_relocate (h : Holds base s [.of [.module] root]) (hbase : Inward base)
    (hblock : s.Below root block) (htarget : s.Below root target)
    (hb : s.read .block block = .ok b) (ht : s.read .block target = .ok t) (place : Nat) :
    ∃ s', s.relocate block target place = .ok (b.statements.length - place, s') ∧
      ∀ id, (s.ancestors id).cut = none →
        (s.Under (b.statements.drop place) target → s.Under (b.statements.drop place) id →
          (s'.ancestors id).cut = some .endless) ∧
        (¬ (s.Under (b.statements.drop place) target ∧ s.Under (b.statements.drop place) id) →
          s'.Climbs id ∧
            (s.Below root id → root ∈ (s'.ancestors id).steps.map Prod.fst)) := by
  have hblock := h.tidyBlock hbase place hblock hb
  have hconstruct := read_block_eq_ok_iff.mp ht
  obtain ⟨s', hrelocate⟩ := exists_relocate place hblock.construct hconstruct fun id hid => by
    obtain ⟨-, ⟨n, hn⟩, -⟩ := hblock.of_mem hid
    simp [construct?, hn]
  obtain ⟨b', hb', -, hmoves⟩ := moves_of_relocate hrelocate
  obtain rfl : b' = b := by
    rw [hblock.construct] at hb'
    cases hb'
    rfl
  refine ⟨s', hrelocate, fun id hcut => ⟨fun hloop hid => ?_, fun hnot => ?_⟩⟩
  · exact cut_eq_endless (fun id => hblock.closed hmoves hloop) hid
  · have hchain := chain_of_uncut hcut
    by_cases hid : s.Under (b'.statements.drop place) id
    · -- The target is not under what moves, so its way up is as it was.
      have hloop : ¬ s.Under (b'.statements.drop place) target := fun hloop => hnot ⟨hloop, hid⟩
      obtain ⟨steps, hsteps, hroot⟩ := (h.treed hbase).chain_of_below htarget
      obtain ⟨up, hup, hmap⟩ := hmoves.chain_of_apart hsteps fun e he hst =>
        hloop ((hblock.under_iff hsteps).mpr ⟨e, he, hst⟩)
      obtain ⟨steps', hchain', hmem⟩ := hmoves.chain_of_target hup hchain
      refine ⟨hchain'.climbs, fun hbelow => ?_⟩
      rw [hchain'.ancestors_eq]
      exact hmem root ((h.treed hbase).below_iff.mp hbelow) (hmap ▸ hroot)
    · obtain ⟨steps', hchain', hmap⟩ := hmoves.chain_of_apart hchain fun e he hst =>
        hid ((hblock.under_iff hchain).mpr ⟨e, he, hst⟩)
      refine ⟨hchain'.climbs, fun hbelow => ?_⟩
      rw [hchain'.ancestors_eq, hmap]
      exact (h.treed hbase).below_iff.mp hbelow

end Relocate

end Store

namespace Grammar

open Store

variable {tokens : List (Located Token)} {store s' : Store} {notices : Notices} {parsed : Parsed}
  {root block new target : NodeId} {b t : BlockNode} {place : Nat}

/-- When a block of a parsed module is split, the statements that go to the new block are below
that one and not below the module, and no node lists the new block. -/
theorem splitOff_of_split (hstore : Inward store)
    (hparse : parseModule tokens store notices = .ok parsed) (hroot : parsed.result = .ok root)
    (hblock : parsed.store.Below root block)
    (hsplit : parsed.store.split block place = .ok (.ok (new, s'))) :
    ∃ b, parsed.store.read .block block = .ok b ∧
      (b.statements = [] ∨ place < b.statements.length) ∧
      SplitOff parsed.store s' root block new (b.statements.drop place) :=
  ((holds_parseModule hparse).2 root hroot).splitOff hstore hblock hsplit

/-- The tokens of a module with one function, whose body holds a block of two statements. -/
def nestedTokens : List (Located Token) :=
  let tokens : List Token :=
    [.keyword .module, .ident ⟨"m"⟩, .symbol .openCurly,
      .keyword .fn, .ident ⟨"f"⟩, .symbol .openParen, .symbol .closeParen, .symbol .openCurly,
      .symbol .openCurly, .integer 1, .symbol .semicolon, .integer 2, .symbol .semicolon,
      .symbol .closeCurly, .symbol .closeCurly, .symbol .closeCurly, .eof]
  tokens.map fun t => ⟨t, default⟩

/-- The store of that module: the body of the function is node 4, the block in it node 5, and its
statements are nodes 7 and 9. -/
def nestedStore : Store :=
  match parseModule nestedTokens .empty #[] with
  | .ok parsed => parsed.store
  | .error _ => .empty

/-- What that module is, where its blocks and the second statement stand, and what splitting the
block and moving it into itself leads to. -/
theorem nestedStore_spec :
    (parseModule nestedTokens .empty #[]).toOption.bind (·.result.toOption) = some ⟨0⟩ ∧
    nestedStore.read .block ⟨5⟩ = .ok ⟨[⟨7⟩, ⟨9⟩], .empty⟩ ∧
    nestedStore.read .block ⟨4⟩ = .ok ⟨[⟨5⟩], .empty⟩ ∧
    (∀ id ∈ [(⟨4⟩ : NodeId), ⟨5⟩, ⟨9⟩], (nestedStore.ancestors id).cut = none ∧
      ⟨0⟩ ∈ (nestedStore.ancestors id).steps.map Prod.fst) ∧
    ⟨9⟩ ∉ (nestedStore.ancestors ⟨4⟩).steps.map Prod.fst ∧
    ((nestedStore.split ⟨5⟩ 1).toOption.bind (·.toOption)).map (fun result =>
      (result.1, (result.2.parent ⟨11⟩).toOption, (result.2.children ⟨4⟩).toOption)) =
        some (⟨11⟩, some (some ⟨4⟩), some [⟨5⟩]) ∧
    (nestedStore.relocate ⟨4⟩ ⟨5⟩ 0).map (fun result => (result.1,
      result.2.parent ⟨5⟩, (result.2.ancestors ⟨9⟩).cut, result.2.moduleOf ⟨9⟩)) =
        .ok (1, .ok (some ⟨5⟩), some .endless, .error .endless) := by
  refine ⟨?_, ?_, ?_, ?_, ?_, ?_, ?_⟩ <;> decide +kernel

theorem exists_nested : ∃ parsed, parseModule nestedTokens .empty #[] = .ok parsed ∧
    parsed.result = .ok ⟨0⟩ ∧ parsed.store = nestedStore := by
  have hrun := nestedStore_spec.1
  unfold nestedStore
  cases hparse : parseModule nestedTokens .empty #[] with
  | error fault =>
    rw [hparse] at hrun
    cases hrun
  | ok parsed =>
    rw [hparse] at hrun
    exact ⟨parsed, rfl, toOption_eq_some_iff.mp hrun, rfl⟩

theorem holds_nested : Holds .empty nestedStore [.of [.module] ⟨0⟩] := by
  obtain ⟨parsed, hparse, hroot, hstore⟩ := exists_nested
  rw [← hstore]
  exact (holds_parseModule hparse).2 ⟨0⟩ hroot

theorem below_nested {id : NodeId} (h : id ∈ [(⟨4⟩ : NodeId), ⟨5⟩, ⟨9⟩]) :
    nestedStore.Below ⟨0⟩ id := by
  obtain ⟨-, -, -, hup, -⟩ := nestedStore_spec
  exact (holds_nested.treed inward_empty).below_iff.mpr (hup id h).2

theorem exists_split_nested : ∃ s', nestedStore.split ⟨5⟩ 1 = .ok (.ok (⟨11⟩, s')) ∧
    s'.parent ⟨11⟩ = .ok (some ⟨4⟩) ∧ s'.children ⟨4⟩ = .ok [⟨5⟩] := by
  obtain ⟨-, -, -, -, -, hrun, -⟩ := nestedStore_spec
  simp only [Option.map_eq_some_iff, Option.bind_eq_some_iff, toOption_eq_some_iff,
    Prod.mk.injEq] at hrun
  obtain ⟨⟨new, s'⟩, ⟨_, hsplit, rfl⟩, rfl, hparent, hchildren⟩ := hrun
  exact ⟨s', hsplit, hparent, hchildren⟩

theorem splitOff_of_split_nested : ∃ s', nestedStore.split ⟨5⟩ 1 = .ok (.ok (⟨11⟩, s')) ∧
    SplitOff nestedStore s' ⟨0⟩ ⟨5⟩ ⟨11⟩ [⟨9⟩] := by
  obtain ⟨parsed, hparse, hroot, hstore⟩ := exists_nested
  obtain ⟨s', hsplit, -⟩ := exists_split_nested
  have hblock : nestedStore.Below ⟨0⟩ ⟨5⟩ := below_nested (by decide)
  rw [← hstore] at hsplit hblock
  obtain ⟨b, hb, -, hoff⟩ := splitOff_of_split inward_empty hparse hroot hblock hsplit
  rw [hstore] at hb hsplit hoff
  obtain rfl := Except.ok.inj (hb.symm.trans nestedStore_spec.2.1)
  exact ⟨s', hsplit, hoff⟩

/-- Statements are lost to a module when a block is split: the second statement of the block was
below the module, and is not any more. -/
theorem not_below_split_nested : ∃ parsed s', parseModule nestedTokens .empty #[] = .ok parsed ∧
    parsed.result = .ok ⟨0⟩ ∧ parsed.store.Below ⟨0⟩ ⟨5⟩ ∧
    parsed.store.split ⟨5⟩ 1 = .ok (.ok (⟨11⟩, s')) ∧
    parsed.store.Below ⟨0⟩ ⟨9⟩ ∧ ¬ s'.Below ⟨0⟩ ⟨9⟩ ∧
    s'.parent ⟨11⟩ = .ok (some ⟨4⟩) ∧ s'.children ⟨4⟩ = .ok [⟨5⟩] := by
  obtain ⟨parsed, hparse, hroot, hstore⟩ := exists_nested
  obtain ⟨s', hsplit, hparent, hchildren⟩ := exists_split_nested
  have hblock : nestedStore.Below ⟨0⟩ ⟨5⟩ := below_nested (by decide)
  have hstatement : nestedStore.Below ⟨0⟩ ⟨9⟩ := below_nested (by decide)
  obtain ⟨b, hb, -, hoff⟩ := holds_nested.splitOff inward_empty hblock hsplit
  obtain rfl := Except.ok.inj (hb.symm.trans nestedStore_spec.2.1)
  refine ⟨parsed, s', hparse, hroot, ?_⟩
  rw [hstore]
  refine ⟨hblock, hsplit, hstatement, fun hbelow => ?_, hparent, hchildren⟩
  exact ((hoff.below_root ⟨9⟩).mp hbelow).2 ⟨⟨9⟩, by simp, .refl _⟩

/-- Parsing leaves no way up that does not end, whatever it drops. -/
theorem uncut_parseModule
    (hends : ∀ id n, store.get? id = some n → (store.ancestors id).cut = none)
    (hparse : parseModule tokens store notices = .ok parsed) {id : NodeId} {n : Node}
    (hn : parsed.store.get? id = some n) : (parsed.store.ancestors id).cut = none := by
  have htidy := (holds_parseModule hparse).1
  rcases htidy.cases hn with ⟨hid, hold⟩ | ⟨hid, -⟩
  · have hchain := (chain_of_uncut (hends id n hold)).mono fun _ _ => htidy.grown.get?_eq
    rw [hchain.ancestors_eq]
  · obtain ⟨steps, hchain⟩ := htidy.rooted id n hid hn
    rw [hchain.ancestors_eq]

/-- When statements of a block of a parsed module go to another of its blocks, the ways up end as
before, except from what goes where the target goes too. -/
theorem climbs_of_relocate (hstore : Inward store)
    (hparse : parseModule tokens store notices = .ok parsed) (hroot : parsed.result = .ok root)
    (hblock : parsed.store.Below root block) (htarget : parsed.store.Below root target)
    (hb : parsed.store.read .block block = .ok b) (ht : parsed.store.read .block target = .ok t)
    (place : Nat) :
    ((∀ id n, store.get? id = some n → (store.ancestors id).cut = none) →
      ∀ id n, parsed.store.get? id = some n → (parsed.store.ancestors id).cut = none) ∧
    ∃ s', parsed.store.relocate block target place = .ok (b.statements.length - place, s') ∧
      ∀ id, (parsed.store.ancestors id).cut = none →
        (parsed.store.Under (b.statements.drop place) target →
          parsed.store.Under (b.statements.drop place) id →
            (s'.ancestors id).cut = some .endless) ∧
        (¬ (parsed.store.Under (b.statements.drop place) target ∧
          parsed.store.Under (b.statements.drop place) id) →
            s'.Climbs id ∧ (parsed.store.Below root id →
              root ∈ (s'.ancestors id).steps.map Prod.fst)) :=
  ⟨fun hends _ _ hn => uncut_parseModule hends hparse hn,
    ((holds_parseModule hparse).2 root hroot).climbs_relocate hstore hblock htarget hb ht place⟩

/-- The second statement of the block goes to the body of the function. -/
theorem climbs_of_relocate_nested : ∃ s', nestedStore.relocate ⟨5⟩ ⟨4⟩ 1 = .ok (1, s') ∧
    s'.Climbs ⟨9⟩ ∧ ⟨0⟩ ∈ (s'.ancestors ⟨9⟩).steps.map Prod.fst := by
  obtain ⟨parsed, hparse, hroot, hstore⟩ := exists_nested
  obtain ⟨-, hb, ht, hways, hids, -⟩ := nestedStore_spec
  have hblock : nestedStore.Below ⟨0⟩ ⟨5⟩ := below_nested (by decide)
  have hbody : nestedStore.Below ⟨0⟩ ⟨4⟩ := below_nested (by decide)
  have hstatement : nestedStore.Below ⟨0⟩ ⟨9⟩ := below_nested (by decide)
  have hup : (nestedStore.ancestors ⟨9⟩).cut = none := (hways ⟨9⟩ (by decide)).1
  have hapart : ¬ nestedStore.Under ([⟨7⟩, ⟨9⟩].drop 1) ⟨4⟩ := by
    have hcut : (nestedStore.ancestors ⟨4⟩).cut = none := (hways ⟨4⟩ (by decide)).1
    rw [(holds_nested.tidyBlock inward_empty 1 hblock hb).under_iff (chain_of_uncut hcut)]
    rintro ⟨e, he, hst⟩
    have heq : e.1 = ⟨9⟩ := List.mem_singleton.mp hst
    exact hids (heq ▸ List.mem_map_of_mem he)
  rw [← hstore] at hblock hbody hstatement hb ht hup hapart
  obtain ⟨-, s', hrelocate, hmoved⟩ :=
    climbs_of_relocate inward_empty hparse hroot hblock hbody hb ht 1
  obtain ⟨hclimbs, hmem⟩ := (hmoved ⟨9⟩ hup).2 fun hboth => hapart hboth.1
  rw [hstore] at hrelocate
  exact ⟨s', hrelocate, hclimbs, hmem hstatement⟩

/-- The block in the body goes into itself, and the way up from its statements never ends. -/
theorem endless_relocate_nested : ∃ parsed s',
    parseModule nestedTokens .empty #[] = .ok parsed ∧ parsed.result = .ok ⟨0⟩ ∧
    parsed.store.Below ⟨0⟩ ⟨4⟩ ∧ parsed.store.Below ⟨0⟩ ⟨5⟩ ∧
    parsed.store.relocate ⟨4⟩ ⟨5⟩ 0 = .ok (1, s') ∧ s'.parent ⟨5⟩ = .ok (some ⟨5⟩) ∧
    (s'.ancestors ⟨9⟩).cut = some .endless ∧ s'.moduleOf ⟨9⟩ = .error .endless := by
  obtain ⟨parsed, hparse, hroot, hstore⟩ := exists_nested
  have hblock : nestedStore.Below ⟨0⟩ ⟨5⟩ := below_nested (by decide)
  have hbody : nestedStore.Below ⟨0⟩ ⟨4⟩ := below_nested (by decide)
  obtain ⟨-, -, -, -, -, -, hrun⟩ := nestedStore_spec
  refine ⟨parsed, ?_⟩
  rw [hstore]
  cases hrelocate : nestedStore.relocate ⟨4⟩ ⟨5⟩ 0 with
  | error fault =>
    rw [hrelocate] at hrun
    cases hrun
  | ok result =>
    rw [hrelocate] at hrun
    simp only [Except.map, Except.ok.injEq, Prod.mk.injEq] at hrun
    obtain ⟨hcount, hparent, hcut, hmodule⟩ := hrun
    exact ⟨result.2, hparse, hroot, hbody, hblock, by rw [← hcount], hparent, hcut, hmodule⟩

end Grammar

end FrontEnd
