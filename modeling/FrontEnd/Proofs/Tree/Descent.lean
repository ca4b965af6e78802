import FrontEnd.Proofs.Tree.Surroundings

/-!
# The nodes below

The tree under the node of a placed phrase is no deeper than the range of the phrase is
long, so that walking through it is never cut.  What it holds is what the phrase says; in
particular it holds no error marker.

## Main definitions

* `Within`: a tree of bounded depth whose nodes all satisfy a condition.

## Main statements

* `ModuleAt.errorMarkers_eq`: a placed module holds no error marker.
-/

namespace FrontEnd

/-- The construct may stand inside a declaration. -/
def Construct.isPart : Construct → Bool
  | .module _ | .global _ | .errorMarker _ => false
  | _ => true

/-- Trails that are not cut follow each other. -/
theorem Trail.foldl_append {f : NodeId → Trail} {ids : List NodeId} (steps : List (NodeId × Node))
    (h : ∀ id ∈ ids, (f id).cut = none) :
    ids.foldl (fun (t : Trail) id => t.append (f id)) ⟨steps, none⟩ =
      ⟨steps ++ ids.flatMap fun id => (f id).steps, none⟩ := by
  induction ids generalizing steps with
  | nil => simp
  | cons id ids ih =>
    obtain ⟨hfirst, hrest⟩ := List.forall_mem_cons.mp h
    rw [List.foldl_cons, List.flatMap_cons, ← List.append_assoc, ← ih _ hrest, append, hfirst]

namespace Store

open Phrase

variable {s : Store} {root id : NodeId} {p : Option NodeId} {lo hi n : Nat}
  {P : NodeId → Construct → Prop} {ids : List NodeId} {c : Construct} {m : Module}

/-! ## Trees of bounded depth -/

/-- At most `n` levels of nodes are at or below a node, and each satisfies a condition. -/
def Within (s : Store) (P : NodeId → Construct → Prop) : Nat → NodeId → Prop
  | 0, _ => False
  | n + 1, id => ∃ node, s.get? id = some node ∧ P id node.construct ∧
      ∀ child ∈ node.construct.children, Within s P n child

namespace Within

theorem mono (h : Within s P n id) {n' : Nat} (hle : n ≤ n') : Within s P n' id := by
  induction n generalizing id n' with
  | zero => exact h.elim
  | succ n ih =>
    obtain ⟨node, hget, hP, hchildren⟩ := h
    obtain ⟨k, rfl⟩ : ∃ k, n' = k + 1 := Nat.exists_eq_add_one.mpr (by omega)
    exact ⟨node, hget, hP, fun child hmem => ih (hchildren child hmem) (by omega)⟩

/-- Every node below satisfies the condition. -/
theorem of_below (h : Within s P n id) {below : NodeId} (hbelow : s.Below id below) :
    ∃ node, s.get? below = some node ∧ P below node.construct := by
  suffices hdeep : ∃ k, Within s P k below by
    obtain ⟨k, hk⟩ := hdeep
    cases k with
    | zero => exact hk.elim
    | succ k =>
      obtain ⟨node, hget, hP, -⟩ := hk
      exact ⟨node, hget, hP⟩
  induction hbelow with
  | refl => exact ⟨n, h⟩
  | @child id' child node _ hget hmem ih =>
    obtain ⟨k, hk⟩ := ih
    cases k with
    | zero => exact hk.elim
    | succ k =>
      obtain ⟨node', hget', -, hchildren⟩ := hk
      obtain rfl : node = node' := Option.some.inj (hget.symm.trans hget')
      exact ⟨k, hchildren child hmem⟩

/-- Walking through a tree of bounded depth is not cut, and goes through the children after each
other. -/
theorem descendantsWithin_succ (h : Within s P (n + 1) id) : ∃ node, s.get? id = some node ∧
    (∀ child ∈ node.construct.children, Within s P n child) ∧
    s.descendantsWithin (n + 1) id = ⟨(id, node) :: node.construct.children.flatMap fun child =>
      (s.descendantsWithin n child).steps, none⟩ := by
  induction n generalizing id with
  | zero =>
    obtain ⟨node, hget, -, hchildren⟩ := h
    have hnone : node.construct.children = [] := List.eq_nil_iff_forall_not_mem.mpr hchildren
    exact ⟨node, hget, hchildren, by simp [descendantsWithin, hget, hnone]⟩
  | succ n ih =>
    obtain ⟨node, hget, -, hchildren⟩ := h
    refine ⟨node, hget, hchildren, ?_⟩
    rw [descendantsWithin, hget]
    refine Trail.foldl_append _ fun child hchild => ?_
    obtain ⟨_, -, -, hwalk⟩ := ih (hchildren child hchild)
    rw [hwalk]

theorem cut_descendantsWithin (h : Within s P n id) : (s.descendantsWithin n id).cut = none := by
  cases n with
  | zero => exact h.elim
  | succ n =>
    obtain ⟨_, -, -, hwalk⟩ := h.descendantsWithin_succ
    rw [hwalk]

/-- A walk meets nodes below the node where it starts. -/
theorem below_of_mem (h : Within s P n id) {e : NodeId × Node}
    (he : e ∈ (s.descendantsWithin n id).steps) : s.Below id e.1 ∧ s.get? e.1 = some e.2 := by
  induction n generalizing id with
  | zero => exact h.elim
  | succ n ih =>
    obtain ⟨node, hget, hchildren, hwalk⟩ := h.descendantsWithin_succ
    rw [hwalk, List.mem_cons, List.mem_flatMap] at he
    rcases he with rfl | ⟨child, hchild, he⟩
    · exact ⟨.refl id, hget⟩
    · obtain ⟨hbelow, hnode⟩ := ih (hchildren child hchild) he
      exact ⟨hbelow.head hget hchild, hnode⟩

end Within

/-! ## Placed phrases -/

section Laid

variable {α : Type} {At : Placing α} [Framed At] {as : List α} (h : Laid (At s) lo hi p as ids)
include h

/-- Every listed root is that of a phrase in a part of the range. -/
theorem Laid.exists_of_mem {child : NodeId} (hchild : child ∈ ids) :
    ∃ a ∈ as, ∃ lo' hi', lo ≤ lo' ∧ hi' ≤ hi ∧ At s lo' hi' p a child := by
  induction h with
  | nil => cases hchild
  | @cons _ lo mid hi a _ _ _ hhead hrest ih =>
    rcases List.mem_cons.mp hchild with rfl | hchild
    · exact ⟨a, by simp, lo, mid, Nat.le_refl _, hrest.le_of_framed, hhead⟩
    · obtain ⟨b, hb, lo', hi', hlo, hhi, hat⟩ := ih hchild
      have hin := Framed.within hhead
      exact ⟨b, by simp [hb], lo', hi', by omega, hhi, hat⟩

theorem Laid.forall_mem {Q : NodeId → Prop}
    (hQ : ∀ a ∈ as, ∀ {lo' hi' id}, lo ≤ lo' → hi' ≤ hi → At s lo' hi' p a id → Q id) :
    ∀ id ∈ ids, Q id := by
  intro id hid
  obtain ⟨a, ha, lo', hi', hlo, hhi, hat⟩ := h.exists_of_mem hid
  exact hQ a ha hlo hhi hat

end Laid

/-- A node without children. -/
theorem Has.within_leaf (h : s.Has p id c) (hP : P id c) (hnone : c.children = []) (hn : 0 < n) :
    Within s P n id := by
  obtain ⟨span, hget⟩ := h
  obtain ⟨n, rfl⟩ := Nat.exists_eq_add_one.mpr hn
  exact ⟨_, hget, hP, by simp [hnone]⟩

/-- A node with its children. -/
theorem Has.within (h : s.Has p id c) (hP : P id c)
    (hchildren : ∀ child ∈ c.children, Within s P n child) : Within s P (n + 1) id := by
  obtain ⟨span, hget⟩ := h
  exact ⟨_, hget, hP, hchildren⟩

section Parts

variable (hP : ∀ id c, Construct.isPart c = true → P id c)
include hP

theorem ExprAt.tree {e : Expr} (h : ExprAt s lo hi p e id) : Within s P (hi - lo) id := by
  induction e generalizing lo hi p id with
  | literal _ =>
    obtain ⟨hlo, hhi, hn⟩ := h
    exact hn.within_leaf (hP _ _ rfl) rfl (by omega)
  | reference _ =>
    cases h with
    | reference hlo hhi hn => exact hn.within_leaf (hP _ _ rfl) rfl (by omega)
  | call _ arguments ih =>
    cases h with
    | @call _ _ mid _ _ _ ids _ hargs hmid hhi hn =>
      have hle := hargs.le_of_framed
      refine (hn.within (n := mid - lo) (hP _ _ rfl) ?_).mono (by omega)
      exact hargs.forall_mem fun a ha _ _ _ hlo' hhi' hat =>
        (ih a ha hat).mono (by omega)
  | binary _ _ _ ihl ihr =>
    cases h with
    | @binary _ _ mid top _ _ _ _ l r _ hl hr htop hhi hn =>
      have hleft := hl.within
      have hright := hr.within
      refine (hn.within (n := top - lo) (hP _ _ rfl) ?_).mono (by omega)
      intro child hmem
      rcases List.mem_pair.mp hmem with rfl | rfl
      · exact (ihl hl).mono (by omega)
      · exact (ihr hr).mono (by omega)

theorem LeafAt.tree {α : Type} {construct : α → Construct} {a : α}
    (h : LeafAt construct s lo hi p a id) (hpart : (construct a).isPart = true)
    (hnone : (construct a).children = []) : Within s P (hi - lo) id := by
  obtain ⟨hlo, hhi, hn⟩ := h
  exact hn.within_leaf (hP _ _ hpart) hnone (by omega)

/-- Leaves side by side. -/
theorem Laid.tree {α : Type} {construct : α → Construct} {as : List α}
    (h : Laid (LeafAt construct s) lo hi p as ids) (hpart : ∀ a, (construct a).isPart = true)
    (hnone : ∀ a, (construct a).children = []) : ∀ id ∈ ids, Within s P (hi - lo) id :=
  h.forall_mem fun a _ _ _ _ hlo hhi hat =>
    (LeafAt.tree hP hat (hpart a) (hnone a)).mono (by omega)

theorem StmtAt.tree {st : Stmt} (h : StmtAt s lo hi p st id) : Within s P (hi - lo) id := by
  induction st generalizing lo hi p id with
  | block body ih =>
    cases h with
    | @block _ _ _ _ ids _ hlo hbody hn =>
      have hle := hbody.le_of_framed
      refine (hn.within (n := hi - (id.index + 1)) (hP _ _ rfl) ?_).mono (by omega)
      exact hbody.forall_mem fun st hst _ _ _ hlo' hhi' hat =>
        (ih st hst hat).mono (by omega)
  | varDecl name type value =>
    cases h with
    | @varDecl _ _ mid top _ _ _ _ t v _ htype hvalue htop hhi hn =>
      have hle := htype.le_of_framed
      have hin := hvalue.within
      refine (hn.within (n := top - lo) (hP _ _ rfl) ?_).mono (by omega)
      intro child hmem
      rcases List.mem_append.mp hmem with hmem | hmem
      · exact (htype.tree hP (fun _ => rfl) (fun _ => rfl) child hmem).mono (by omega)
      · rw [List.mem_singleton.mp hmem]
        exact (hvalue.tree hP).mono (by omega)
  | ret value =>
    cases h with
    | @ret _ _ mid _ _ v _ hvalue hmid hhi hn =>
      have hle := hvalue.le_of_framed
      refine (hn.within (n := mid - lo) (hP _ _ rfl) ?_).mono (by omega)
      exact hvalue.forall_mem fun _ _ _ _ _ hlo' hhi' hat =>
        (hat.tree hP).mono (by omega)
  | exprStatement value =>
    cases h with
    | @exprStatement _ _ mid _ _ v _ hvalue hmid hhi hn =>
      have hin := hvalue.within
      refine (hn.within (n := mid - lo) (hP _ _ rfl) ?_).mono (by omega)
      intro child hmem
      rw [List.mem_singleton.mp hmem]
      exact hvalue.tree hP

theorem ProtoAt.tree {proto : Proto} (h : ProtoAt s lo hi p proto id) :
    Within s P (hi - lo) id := by
  obtain @⟨_, _, mid, top, _, _, list, result, _, hlist, hresult, htop, hhi, hn⟩ := h
  have hin := Framed.within hlist
  have hin' := Framed.within hresult
  have htree : Within s P (mid - lo) list := by
    obtain @⟨_, _, mid', _, _, _, ids, _, hparams, hmid, hup, hn⟩ := hlist
    have hle := hparams.le_of_framed
    refine (hn.within (n := mid' - lo) (hP _ _ rfl) ?_).mono (by omega)
    intro child hmem
    have hmem' : child ∈ ids := by
      obtain ⟨e, he, rfl⟩ := List.mem_map.mp hmem
      exact (List.of_mem_zip he).2
    exact hparams.tree hP (fun _ => rfl) (fun _ => rfl) child hmem'
  refine (hn.within (n := top - lo) (hP _ _ rfl) ?_).mono (by omega)
  intro child hmem
  rcases List.mem_pair.mp hmem with rfl | rfl
  · exact htree.mono (by omega)
  · exact (LeafAt.tree hP hresult rfl rfl).mono (by omega)

/-- The tree of a declaration, if its own node is as wanted. -/
theorem DeclAt.tree {d : Decl} (h : DeclAt s lo hi p d id)
    (hglobal : ∀ g, s.Has p id (.global g) → P id (.global g)) : Within s P (hi - lo) id := by
  cases h with
  | @struct _ _ mid _ _ _ ids _ hfields hmid hhi hn =>
    have hle := hfields.le_of_framed
    refine (hn.within (n := mid - lo) (hP _ _ rfl) ?_).mono (by omega)
    intro child hmem
    have hmem' : child ∈ ids := by
      obtain ⟨e, he, rfl⟩ := List.mem_map.mp hmem
      exact (List.of_mem_zip he).2
    exact hfields.tree hP (fun _ => rfl) (fun _ => rfl) child hmem'
  | @global _ _ m₁ m₂ _ _ _ _ t v _ htype hvalue hmid hhi hn =>
    have hin := Framed.within htype
    have hle := hvalue.le_of_framed
    refine (hn.within (n := m₂ - lo) (hglobal _ hn) ?_).mono (by omega)
    intro child hmem
    rcases List.mem_cons.mp hmem with rfl | hmem
    · exact (LeafAt.tree hP htype rfl rfl).mono (by omega)
    · exact (hvalue.tree hP (fun _ => rfl) (fun _ => rfl) child hmem).mono (by omega)
  | @external _ _ m₁ m₂ _ _ _ ids f _ hattributes hproto hmid hhi hn =>
    have hle := hattributes.le_of_framed
    have hin := Framed.within hproto
    refine (hn.within (n := m₂ - lo) (hP _ _ rfl) ?_).mono (by omega)
    intro child hmem
    rcases List.mem_append.mp hmem with hmem | hmem
    · exact (hattributes.tree hP (fun _ => rfl) (fun _ => rfl) child hmem).mono (by omega)
    · rw [List.mem_singleton.mp hmem]
      exact (hproto.tree hP).mono (by omega)
  | @function _ _ m₁ m₂ m₃ _ _ _ _ ids f b _ hattributes hproto hbody hmid hhi hn =>
    have hle := hattributes.le_of_framed
    have hin := Framed.within hproto
    have hin' := Framed.within hbody
    refine (hn.within (n := m₃ - lo) (hP _ _ rfl) ?_).mono (by omega)
    intro child hmem
    rcases List.mem_append.mp hmem with hmem | hmem
    · exact (hattributes.tree hP (fun _ => rfl) (fun _ => rfl) child hmem).mono (by omega)
    · rcases List.mem_pair.mp hmem with rfl | rfl
      · exact (hproto.tree hP).mono (by omega)
      · exact (hbody.tree hP).mono (by omega)

end Parts

/-! ## Modules -/

/-- What the tree of a module may hold: no error marker, and no global but those that the
module declares. -/
def Expected (s : Store) (m : Module) (_ : NodeId) (c : Construct) : Prop :=
  c.kind ≠ .errorMarker ∧ ∀ g, c = .global g → ∃ type name value,
    Decl.global type name value ∈ m.decls ∧
      ∀ v ∈ g.value, ∃ l ∈ value, s.read .literal v = .ok l.sized

theorem expected_of_isPart (id : NodeId) (h : c.isPart = true) : Expected s m id c := by
  constructor
  · intro hkind
    cases c with
    | errorMarker _ => cases h
    | _ => cases hkind
  · rintro g rfl
    cases h

/-- The tree of a module is as expected, and no deeper than the store is large. -/
theorem ModuleAt.tree (h : ModuleAt s m root ids) : Within s (Expected s m) (s.size + 1) root := by
  refine h.root.within ⟨by simp [Construct.kind], by simp⟩ ?_
  refine h.decls.forall_mem ?_
  intro d hd lo hi id hlo hhi hat
  refine (hat.tree (fun _ _ => expected_of_isPart _) fun g hg => ?_).mono (by omega)
  refine ⟨by simp [Construct.kind], ?_⟩
  intro g' hg'
  cases hg'
  cases hat with
  | @global _ _ _ _ _ type name value t v _ _ hvalue _ _ hn =>
    cases hn.unique hg
    refine ⟨type, name, value, hd, ?_⟩
    rcases hvalue.option_cases with ⟨rfl, rfl⟩ | ⟨l, v', rfl, rfl, hl⟩
    · simp
    · simpa using hl.2.2.read_eq rfl
  | struct _ _ _ hn | external _ _ _ _ hn | function _ _ _ _ _ hn => cases hn.unique hg

theorem ModuleAt.errorMarkers_eq (h : ModuleAt s m root ids) : s.errorMarkers root = .ok [] := by
  rw [errorMarkers, descendants, h.tree.cut_descendantsWithin]
  dsimp only
  congr 1
  rw [List.filterMap_eq_nil_iff]
  intro e he
  obtain ⟨hbelow, hget⟩ := h.tree.below_of_mem he
  obtain ⟨node, hnode, hkind, -⟩ := h.tree.of_below hbelow
  rw [Option.some.inj (hnode.symm.trans hget)] at hkind
  split
  next heq => rw [heq] at hkind; exact absurd rfl hkind
  next => rfl

end Store

end FrontEnd
